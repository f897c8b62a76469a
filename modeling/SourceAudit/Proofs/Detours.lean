/-
  SourceAudit/Proofs/Detours.lean
  ===============================
  **A file found by another way.**

  A path can take a turn that leads back to where it began, a `.` or into a directory and out
  again with `..` (`Turn`), and a file inside the base can be named from the base instead of
  the root (`Rerouted`).  Folding forgets every turn (`Turn.foldl`), so from one base such
  paths are folded to the same place, and they end with the same name.  Nothing else counts
  for the texts that patterns are tried on (`Resolver.projections_congr`): whatever the way to
  a file, its thresholds are the same (`Resolver.resolve_rerouted`).
-/
import SourceAudit.Proofs.FirstException
import SourceAudit.Proofs.WrittenFiles
import Mathlib.Logic.Relation

namespace SourceAudit

namespace Path

/-! ### What the segments of a path add -/

theorem isAbsolute_iff_segments {p : Path} :
    p.isAbsolute = true ↔ ∃ rest, rest ≠ [] ∧ p.segments = "" :: rest := by
  constructor
  · intro habsolute
    obtain ⟨t, ht⟩ := List.head?_eq_some_iff.mp (of_decide_eq_true habsolute)
    have hcut : p.segments = (⟨""⟩ : Path).segments ++ (⟨String.ofList t⟩ : Path).segments :=
      segments_of_cut (s := []) (by simpa using ht)
    exact ⟨_, segments_ne_nil _, hcut⟩
  · rintro ⟨rest, hne, hp⟩
    exact isAbsolute_of_segments hp hne

/-- The components of a path are those of its segments, behind a root or a leading `.`. -/
theorem components_eq_append (p : Path) : ∃ front,
    p.components = front ++ bodyComponents p.segments ∧
      front.foldl foldStep [] = if p.isAbsolute then [.root] else [] := by
  obtain ⟨first, rest, hp⟩ := List.exists_cons_of_ne_nil (segments_ne_nil p)
  rw [components, hp]
  by_cases habsolute : p.isAbsolute = true
  · obtain ⟨_, -, hrooted⟩ := isAbsolute_iff_segments.mp habsolute
    have hfirst : first = "" := (List.cons.inj (hp.symm.trans hrooted)).1
    refine ⟨[.root], ?_, by simp [habsolute, foldStep]⟩
    simp [habsolute, hfirst, bodyComponents, isSilent]
  · by_cases hhere : first = "."
    · refine ⟨[.here], ?_, by simp [habsolute, foldStep]⟩
      simp [habsolute, hhere, bodyComponents, isSilent]
    · refine ⟨[], ?_, by simp [habsolute]⟩
      simp [habsolute, hhere]

theorem fileName?_of_bodyComponents {p : Path} {name : String}
    (hlast : (bodyComponents p.segments).getLast? = some (.name name)) :
    p.fileName? = some name := by
  obtain ⟨front, hfront, -⟩ := components_eq_append p
  rw [fileName?_eq_some_iff, hfront, List.getLast?_append, hlast]
  rfl

/-- From a base, a path is folded onto the root or the folded base, as it is absolute or not. -/
theorem folded_join_eq (base p : Path) : (base.join p).folded =
    ofComponents ((bodyComponents p.segments).foldl foldStep
      (if p.isAbsolute then [.root] else base.components.foldl foldStep [])).reverse := by
  obtain ⟨front, hfront, hstart⟩ := components_eq_append p
  cases habsolute : p.isAbsolute with
  | true =>
    rw [habsolute, if_pos rfl] at hstart
    rw [join, if_pos habsolute, folded, foldComponents, hfront, List.foldl_append, hstart,
      if_pos rfl]
  | false =>
    rw [habsolute, if_neg Bool.false_ne_true] at hstart
    rw [if_neg Bool.false_ne_true]
    by_cases hempty : base.text = ""
    · have hjoin : base.join p = p := by simp [join, habsolute, hempty]
      have hbase : base.components = [] := by
        obtain ⟨text⟩ := base
        subst hempty
        decide
      rw [hjoin, hbase, List.foldl_nil, folded, foldComponents, hfront, List.foldl_append, hstart]
    · rw [folded, components_join base hempty habsolute, foldComponents, List.foldl_append]

/-! ### Turns -/

/-- Segments that lead back to where they begin: a `.`, or into a directory and out again. -/
inductive Turn : List String → Prop
  | here : Turn ["."]
  | aside {name : String} (hname : IsPlain name) : Turn [name, ".."]

theorem Turn.leads {turn : List String} (h : Turn turn) (cs : List Component) :
    Leads cs turn cs := by
  cases h with
  | here => exact .stay rfl (.stop cs)
  | aside hname => exact .down hname (.up (.stop cs))

/-- Folding forgets a turn, wherever it is. -/
theorem Turn.foldl {turn : List String} (h : Turn turn) (stack : List Component) :
    (bodyComponents turn).foldl foldStep stack = stack := by
  have hleads := (h.leads stack.reverse).foldl
  rwa [List.reverse_reverse] at hleads

/-- `q` is written as `p`, with a turn somewhere before the last name. -/
inductive Detour (p q : Path) : Prop
  | intro {front turn back : List String} {name : String} (hturn : Turn turn)
      (hp : p.segments = front ++ back) (hq : q.segments = front ++ turn ++ back)
      (hroot : p.isAbsolute = true → front ≠ [])
      (hlast : (bodyComponents back).getLast? = some (.name name))

namespace Detour

variable {p q : Path} (h : Detour p q)

include h

theorem isAbsolute_eq : p.isAbsolute = q.isAbsolute := by
  obtain @⟨front, turn, back, name, hturn, hp, hq, hroot, hlast⟩ := h
  have hback : back ≠ [] := by
    rintro rfl
    cases hlast
  rw [Bool.eq_iff_iff]
  constructor
  · intro habsolute
    obtain ⟨rest, -, hrooted⟩ := isAbsolute_iff_segments.mp habsolute
    obtain ⟨first, front, rfl⟩ := List.exists_cons_of_ne_nil (hroot habsolute)
    obtain rfl : first = "" := (List.cons.inj (hp.symm.trans hrooted)).1
    exact isAbsolute_iff_segments.mpr ⟨front ++ turn ++ back, by simp [hback], hq⟩
  · intro habsolute
    obtain ⟨rest, -, hrooted⟩ := isAbsolute_iff_segments.mp habsolute
    cases front with
    | nil =>
      -- no turn begins with the empty segment of a root
      have hfirst := hq.symm.trans hrooted
      cases hturn with
      | here => exact absurd (List.cons.inj hfirst).1 (by decide)
      | aside hname => exact absurd (List.cons.inj hfirst).1 hname.ne_empty
    | cons first front =>
      obtain rfl : first = "" := (List.cons.inj (hq.symm.trans hrooted)).1
      exact isAbsolute_iff_segments.mpr ⟨front ++ back, by simp [hback], hp⟩

theorem fileName?_eq : p.fileName? = q.fileName? := by
  obtain @⟨front, turn, back, name, -, hp, hq, -, hlast⟩ := h
  have hend (before : List String) :
      (bodyComponents (before ++ back)).getLast? = some (.name name) := by
    rw [bodyComponents_append, List.getLast?_append, hlast]
    rfl
  rw [fileName?_of_bodyComponents (p := p) (hp ▸ hend front),
    fileName?_of_bodyComponents (p := q) (hq ▸ hend (front ++ turn))]

theorem folded_join (base : Path) : (base.join p).folded = (base.join q).folded := by
  have habsolute := h.isAbsolute_eq
  obtain ⟨hturn, hp, hq, -, -⟩ := h
  rw [folded_join_eq, folded_join_eq, habsolute, hp, hq]
  simp only [bodyComponents_append, List.foldl_append, hturn.foldl]

end Detour

/-- Two ways to write the path of a file: one takes a turn that the other does not, or one is
    absolute and the other leads to the same place from the base. -/
inductive Rerouted (base : Path) : Path → Path → Prop
  | turn {p q : Path} (hdetour : Detour p q) : Rerouted base p q
  | fromBase {file p : Path} {name : String} (hfile : file.isAbsolute = true)
      (hlast : file.fileName? = some name) (hrelative : p.isAbsolute = false)
      (hname : p.fileName? = some name)
      (hleads : Leads base.folded.components p.segments file.folded.components) :
      Rerouted base file p

namespace Rerouted

variable {base p q : Path} (h : Rerouted base p q)

include h

theorem fileName?_eq : p.fileName? = q.fileName? := by
  cases h with
  | turn hdetour => exact hdetour.fileName?_eq
  | fromBase _ hlast _ hname => rw [hlast, hname]

theorem folded_join : (base.join p).folded = (base.join q).folded := by
  cases h with
  | turn hdetour => exact hdetour.folded_join base
  | fromBase hfile _ hrelative _ hleads =>
    have hstart : base.folded.components.reverse = base.components.foldl foldStep [] := by
      rw [components_folded, foldComponents, List.reverse_reverse]
    have hplace := hleads.foldl
    rw [hstart] at hplace
    rw [folded_join_eq base q, if_neg (by simp [hrelative]), hplace, List.reverse_reverse,
      ofComponents_folded, join, if_pos hfile]

end Rerouted

end Path

/-! ### Thresholds -/

namespace Resolver

variable {r : Resolver}

/-- From the base only the folded place of a file and its name are looked at. -/
theorem projections_congr {p q : Path} (hplace : (r.base.join p).folded = (r.base.join q).folded)
    (hname : p.fileName? = q.fileName?) : r.projections p = r.projections q := by
  have hbehind (directory : Path) : r.behind? p directory = r.behind? q directory := by
    rw [behind?, behind?, hplace]
  simp only [projections, hbehind, hname]

/-- **The way to a file does not matter.**  Turns before the last name, any number of them and
    anywhere, and naming a file from the base instead of the root leave the thresholds of every
    rule and metric as they are. -/
theorem resolve_rerouted {p q : Path} (h : Relation.EqvGen (Path.Rerouted r.base) p q)
    (config : RuleConfig) (metric : Option String) :
    (r.resolve p config metric).value = (r.resolve q config metric).value := by
  have hprojections : r.projections p = r.projections q := by
    induction h with
    | rel p q hstep => exact projections_congr hstep.folded_join hstep.fileName?_eq
    | refl p => rfl
    | symm p q _ ih => exact ih.symm
    | trans p q s _ _ hfirst hsecond => exact hfirst.trans hsecond
  exact value_resolve_congr hprojections

/-- From the library, through another directory and back, to the generated file. -/
def turnedPath : Path := ⟨"src/../generated/api.dart"⟩

theorem resolve_rerouted_generated :
    ∃ mine, FilePattern.read "lib/generated/*.dart" = .ok mine ∧
      Relation.EqvGen (Path.Rerouted libraryResolver.base) generatedPath turnedPath ∧
      (libraryResolver.resolve turnedPath { countedConfig with exceptions := [exceptionFor mine] }
        none).value = ⟨some (.infinity false), none⟩ := by
  obtain ⟨mine, hmine, hvalue⟩ : ∃ mine, FilePattern.read "lib/generated/*.dart" = .ok mine ∧
      (libraryResolver.resolve generatedPath { countedConfig with exceptions := [exceptionFor mine] }
        none).value = ⟨some (.infinity false), none⟩ := ⟨_, rfl, by decide +kernel⟩
  have hsrc : Path.IsPlain "src" := by decide
  have hturn : Path.Detour ⟨"generated/api.dart"⟩ turnedPath :=
    @Path.Detour.intro _ _ [] _ ["generated", "api.dart"] _ (.aside hsrc) (by decide) (by decide)
      (by decide) rfl
  have hbase : Path.Rerouted libraryResolver.base generatedPath ⟨"generated/api.dart"⟩ := by
    have hname : generatedPath.fileName? = some "api.dart" := by decide
    have hinto : Path.Leads libraryResolver.base.folded.components ["generated", "api.dart"] _ :=
      .into _ (by decide)
    exact .fromBase (by decide) hname (by decide) (by decide) hinto
  have hways := (Relation.EqvGen.rel _ _ hbase).trans _ _ _ (.rel _ _ (.turn hturn))
  refine ⟨mine, hmine, hways, ?_⟩
  rw [← resolve_rerouted hways]
  exact hvalue

end Resolver

end SourceAudit
