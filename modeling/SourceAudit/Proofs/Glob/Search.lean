/-
  SourceAudit/Proofs/Glob/Search.lean
  ===================================
  **The search for a match is exact.**

  The search tries runs of growing length and gives up at once when the text ran out
  (`Verdict.never`).  Three verdicts, three meanings, proved together by induction on
  the tokens (`sound_of_placed`):

    * `found`   — the tokens match the text;
    * `notHere` — they do not;
    * `never`   — they match no later part of the text either.

  The last one is what makes giving up right, and it needs an invariant.  Behind a
  slash `**` is tried, but not in the middle of a segment, so a verdict on a text says
  nothing about the parts of it that begin there.  Patterns only have `**` at the
  beginning of a segment (`Placed`), which is where later parts are cut as well.
-/
import Mathlib.Data.List.Chain
import SourceAudit.Proofs.Glob.Language

namespace SourceAudit.Glob

/-! ### Where `**` stands -/

/-- Every `**` stands behind a slash or another `**`. -/
def Placed : List Token → Prop :=
  List.IsChain fun before token =>
    token = .anySegments → before = .literal '/' ∨ before = .anySegments

/-- The tokens begin with `**`. -/
def StartsWide (ts : List Token) : Prop := ts.head? = some .anySegments

/-! ### Runs of growing length -/

/-- What `*` finds out about the rest of a pattern. -/
theorem afterRun_found {rest : List Char → Verdict} {t : List Char}
    (h : afterRun .separate rest t = .found) :
    ∃ run u, t = run ++ u ∧ '/' ∉ run ∧ rest u = .found := by
  induction t with
  | nil => exact ⟨[], [], rfl, by simp, h⟩
  | cons c t ih =>
    rw [afterRun] at h
    split at h
    · next hhere =>
      by_cases hc : c = '/'
      · simp [hc] at h
      · obtain ⟨run, u, rfl, hrun, hu⟩ := ih (by simpa [hc] using h)
        exact ⟨c :: run, u, rfl, by simp [hrun, Ne.symm hc], hu⟩
    · exact ⟨[], c :: t, rfl, by simp, h⟩

theorem afterRun_notHere {rest : List Char → Verdict} {t : List Char}
    (h : afterRun .separate rest t = .notHere) {run u : List Char} (ht : t = run ++ u)
    (hrun : '/' ∉ run) : rest u = .notHere := by
  induction t generalizing run with
  | nil =>
    obtain ⟨rfl, rfl⟩ := List.append_eq_nil_iff.mp ht.symm
    exact h
  | cons c t ih =>
    rw [afterRun] at h
    split at h
    · next hhere =>
      cases run with
      | nil => exact (List.nil_append u ▸ ht) ▸ hhere
      | cons d run =>
        obtain ⟨rfl, rfl⟩ := List.cons_eq_cons.mp ht
        have hc : c ≠ '/' := fun hc => hrun (by simp [hc])
        exact ih (by simpa [hc] using h) rfl fun hmem => hrun (List.mem_cons_of_mem _ hmem)
    · next hother => exact absurd h hother

/-- Giving up happens at some place, and everything longer was tried before. -/
theorem afterRun_never {rest : List Char → Verdict} {t : List Char}
    (h : afterRun .separate rest t = .never) :
    ∃ run stop, t = run ++ stop ∧ rest stop = .never ∧
      ∀ u, u <:+ t → stop.length < u.length → rest u = .notHere := by
  induction t with
  | nil =>
    refine ⟨[], [], rfl, h, ?_⟩
    intro u hu hlong
    rw [List.suffix_nil.mp hu] at hlong
    exact absurd hlong (Nat.lt_irrefl 0)
  | cons c t ih =>
    rw [afterRun] at h
    split at h
    · next hhere =>
      by_cases hc : c = '/'
      · simp [hc] at h
      · obtain ⟨run, stop, rfl, hstop, hlonger⟩ := ih (by simpa [hc] using h)
        refine ⟨c :: run, stop, rfl, hstop, ?_⟩
        intro u hu hlong
        rcases List.suffix_cons_iff.mp hu with rfl | hu
        · exact hhere
        · exact hlonger u hu hlong
    · refine ⟨[], c :: t, rfl, h, ?_⟩
      intro u hu hlong
      exact absurd hlong (Nat.not_lt.mpr hu.length_le)

/-! ### Behind every slash -/

theorem afterSlashes_found {rest : List Char → Verdict} {t : List Char}
    (h : afterSlashes rest t = .found) :
    rest [] = .found ∨ ∃ v u, t = v ++ '/' :: u ∧ rest u = .found := by
  induction t with
  | nil => exact .inl h
  | cons c t ih =>
    have hlater (hrest : afterSlashes rest t = .found) :
        rest [] = .found ∨ ∃ v u, c :: t = v ++ '/' :: u ∧ rest u = .found := by
      rcases ih hrest with hnil | ⟨v, u, rfl, hu⟩
      · exact .inl hnil
      · exact .inr ⟨c :: v, u, rfl, hu⟩
    rw [afterSlashes] at h
    split at h
    · next hc =>
      subst hc
      split at h
      · exact hlater h
      · exact .inr ⟨[], t, rfl, h⟩
    · exact hlater h

theorem afterSlashes_notHere {rest : List Char → Verdict} {t : List Char}
    (h : afterSlashes rest t = .notHere) :
    rest [] = .notHere ∧ ∀ v u, t = v ++ '/' :: u → rest u = .notHere := by
  induction t with
  | nil => exact ⟨h, by simp⟩
  | cons c t ih =>
    rw [afterSlashes] at h
    split at h
    · next hc =>
      split at h
      · next hhere =>
        refine ⟨(ih h).1, ?_⟩
        intro v u ht
        rcases List.cons_eq_append_iff.mp ht with ⟨rfl, hu⟩ | ⟨v, rfl, rfl⟩
        · obtain ⟨-, rfl⟩ := List.cons_eq_cons.mp hu
          exact hhere
        · exact (ih h).2 v u rfl
      · next hother => exact absurd h hother
    · next hc =>
      refine ⟨(ih h).1, ?_⟩
      intro v u ht
      rcases List.cons_eq_append_iff.mp ht with ⟨rfl, hu⟩ | ⟨v, rfl, rfl⟩
      · exact absurd (List.cons_eq_cons.mp hu).1.symm hc
      · exact (ih h).2 v u rfl

theorem afterSlashes_never {rest : List Char → Verdict} {t : List Char}
    (h : afterSlashes rest t = .never) :
    ∃ stop, rest stop = .never ∧ (stop = [] ∨ ∃ v, t = v ++ '/' :: stop) ∧
      ∀ v u, t = v ++ '/' :: u → stop.length < u.length → rest u = .notHere := by
  induction t with
  | nil => exact ⟨[], h, .inl rfl, by simp⟩
  | cons c t ih =>
    have hlater (hrest : afterSlashes rest t = .never) (hhere : c = '/' → rest t = .notHere) :
        ∃ stop, rest stop = .never ∧ (stop = [] ∨ ∃ v, c :: t = v ++ '/' :: stop) ∧
          ∀ v u, c :: t = v ++ '/' :: u → stop.length < u.length → rest u = .notHere := by
      obtain ⟨stop, hstop, hplace, hlonger⟩ := ih hrest
      refine ⟨stop, hstop, hplace.imp_right fun ⟨v, hv⟩ => ⟨c :: v, by rw [hv]; rfl⟩, ?_⟩
      intro v u ht hlong
      rcases List.cons_eq_append_iff.mp ht with ⟨rfl, hu⟩ | ⟨v, rfl, rfl⟩
      · obtain ⟨hc, rfl⟩ := List.cons_eq_cons.mp hu
        exact hhere hc.symm
      · exact hlonger v u rfl hlong
    rw [afterSlashes] at h
    split at h
    · next hc =>
      subst hc
      split at h
      · next hhere => exact hlater h fun _ => hhere
      · refine ⟨t, h, .inr ⟨[], rfl⟩, ?_⟩
        intro v u ht hlong
        have hlength := congrArg List.length ht
        simp only [List.length_cons, List.length_append] at hlength
        omega
    · next hc => exact hlater h fun heq => absurd heq hc

/-! ### Three verdicts -/

/-- What the verdicts on a list of tokens mean. -/
structure Sound (ts : List Token) : Prop where
  found : ∀ t, matchTokens .separate ts t = .found → Matches ts t
  notHere : ∀ t, matchTokens .separate ts t = .notHere → ¬ Matches ts t
  never : ∀ s u, matchTokens .separate ts (s ++ u) = .never →
    (StartsWide ts → WholeSegments s) → ¬ Matches ts u

/-- Without tokens the search never gives up. -/
theorem matchTokens_nil_ne_never (t : List Char) : matchTokens .separate [] t ≠ .never := by
  cases t <;> simp [matchTokens]

theorem sound_nil : Sound [] where
  found t h := by
    cases t with
    | nil => rfl
    | cons c t => simp [matchTokens] at h
  notHere t h := by
    cases t with
    | nil => simp [matchTokens] at h
    | cons c t => simp [Matches]
  never s u h := absurd h (matchTokens_nil_ne_never _)

/-! #### One character -/

/-- The token stands for one character. -/
def Token.IsSingle (token : Token) : Prop := token ≠ .anyRun ∧ token ≠ .anySegments

section Single

variable {token : Token} (hsingle : token.IsSingle) {ts : List Token}

include hsingle

theorem matchTokens_single_nil : matchTokens .separate (token :: ts) [] = .never := by
  cases token <;> first | rfl | simp [Token.IsSingle] at hsingle

theorem matchTokens_single_cons (c : Char) (t : List Char) :
    matchTokens .separate (token :: ts) (c :: t) =
      if token.accepts .separate c then matchTokens .separate ts t else .notHere := by
  cases token <;> first | rfl | simp [Token.IsSingle] at hsingle

theorem matches_single {t : List Char} :
    Matches (token :: ts) t ↔
      ∃ c u, t = c :: u ∧ token.accepts .separate c = true ∧ Matches ts u := by
  cases token <;> first | rfl | simp [Token.IsSingle] at hsingle

/-- A character in front of a sound rest.  If the rest begins with `**`, the character
    is a slash, so what lies behind it begins a segment. -/
theorem sound_single (hslash : StartsWide ts → token = .literal '/') (hts : Sound ts) :
    Sound (token :: ts) where
  found t h := by
    cases t with
    | nil => simp [matchTokens_single_nil hsingle] at h
    | cons c t =>
      rw [matchTokens_single_cons hsingle] at h
      split at h
      · next hc => exact (matches_single hsingle).mpr ⟨c, t, rfl, hc, hts.found t h⟩
      · cases h
  notHere t h hmatch := by
    obtain ⟨c, u, rfl, hc, hu⟩ := (matches_single hsingle).mp hmatch
    rw [matchTokens_single_cons hsingle, if_pos hc] at h
    exact hts.notHere u h hu
  never s u h hwide hmatch := by
    obtain ⟨d, b, rfl, hd, hb⟩ := (matches_single hsingle).mp hmatch
    cases s with
    | nil =>
      rw [List.nil_append, matchTokens_single_cons hsingle, if_pos hd] at h
      exact hts.never [] b h (fun _ => .none) hb
    | cons c s =>
      rw [List.cons_append, matchTokens_single_cons hsingle] at h
      split at h
      · rw [List.append_cons] at h
        refine hts.never (s ++ [d]) b h ?_ hb
        intro hstarts
        obtain rfl : d = '/' := by simpa [hslash hstarts, Token.accepts] using hd
        exact .concat s
      · cases h

end Single

/-! #### Wildcards -/

/-- Two ends of a text: the shorter one ends the longer one. -/
theorem exists_append_of_length_le {s u v stop : List Char} (h : s ++ u = v ++ stop)
    (hlength : u.length ≤ stop.length) : ∃ m, stop = m ++ u := by
  obtain ⟨m, hm⟩ := List.suffix_of_suffix_length_le (h ▸ List.suffix_append s u)
    (List.suffix_append v stop) hlength
  exact ⟨m, hm.symm⟩

theorem sound_anyRun {ts : List Token} (hnarrow : ¬ StartsWide ts) (hts : Sound ts) :
    Sound (.anyRun :: ts) where
  found t h := by
    obtain ⟨run, u, rfl, hrun, hu⟩ := afterRun_found h
    exact ⟨run, u, rfl, hrun, hts.found u hu⟩
  notHere t h := by
    rintro ⟨run, u, rfl, hrun, hu⟩
    exact hts.notHere u (afterRun_notHere h rfl hrun) hu
  never s u h _ := by
    rintro ⟨run, b, rfl, -, hb⟩
    obtain ⟨v, stop, heq, hstop, hlonger⟩ := afterRun_never h
    rw [← List.append_assoc] at heq hlonger
    rcases Nat.lt_or_ge stop.length b.length with hlong | hshort
    · exact hts.notHere b (hlonger b (List.suffix_append _ b) hlong) hb
    · obtain ⟨m, rfl⟩ := exists_append_of_length_le heq hshort
      exact hts.never m b hstop (fun hstarts => absurd hstarts hnarrow) hb

/-- A text has a last segment, and what stands before it is made of whole segments. -/
theorem exists_lastSegment (t : List Char) :
    ∃ s u, t = s ++ u ∧ WholeSegments s ∧ '/' ∉ u := by
  induction t with
  | nil => exact ⟨[], [], rfl, .none, by simp⟩
  | cons c t ih =>
    obtain ⟨s, u, rfl, hs, hu⟩ := ih
    by_cases hc : c = '/'
    · subst hc
      exact ⟨'/' :: s, u, rfl, .slash hs, hu⟩
    · by_cases hempty : s = []
      · subst hempty
        exact ⟨[], c :: u, rfl, .none, by simp [hu, Ne.symm hc]⟩
      · exact ⟨c :: s, u, rfl, hs.cons hc hempty, hu⟩

/-- Tokens that may stand for nothing may stand for any text without a slash. -/
theorem matches_of_matches_nil {ts : List Token} (hnil : Matches ts []) (hne : ts ≠ [])
    {u : List Char} (hu : '/' ∉ u) : Matches ts u := by
  induction ts with
  | nil => exact absurd rfl hne
  | cons token ts ih =>
    cases token with
    | anyRun =>
      obtain ⟨run, rest, heq, -, hrest⟩ := hnil
      obtain ⟨-, rfl⟩ := List.append_eq_nil_iff.mp heq.symm
      exact ⟨u, [], by simp, hu, hrest⟩
    | anySegments =>
      by_cases hlast : ts = []
      · exact .inl hlast
      · obtain ⟨s, rest, heq, -, hrest⟩ := hnil.resolve_left hlast
        obtain ⟨-, rfl⟩ := List.append_eq_nil_iff.mp heq.symm
        exact .inr ⟨[], u, rfl, .none, ih hrest hlast⟩
    | _ =>
      obtain ⟨c, rest, heq, -⟩ := hnil
      cases heq

theorem sound_anySegments {ts : List Token} (hts : Sound ts) : Sound (.anySegments :: ts) where
  found t h := by
    rw [matchTokens] at h
    split at h
    · rcases afterSlashes_found h with hnil | ⟨v, u, rfl, hu⟩
      · by_cases hlast : ts = []
        · exact .inl hlast
        · obtain ⟨s, u, rfl, hs, hu⟩ := exists_lastSegment t
          exact .inr ⟨s, u, rfl, hs, matches_of_matches_nil (hts.found [] hnil) hlast hu⟩
      · exact .inr ⟨v ++ ['/'], u, by simp, .concat v, hts.found u hu⟩
    · exact .inr ⟨[], t, rfl, .none, hts.found t h⟩
  notHere t h := by
    rw [matchTokens] at h
    split at h
    · next hhere =>
      obtain ⟨hnil, hbehind⟩ := afterSlashes_notHere h
      rintro (rfl | ⟨s, u, rfl, hs, hu⟩)
      · cases hnil
      · rcases hs.eq_nil_or_concat with rfl | ⟨init, rfl⟩
        · exact hts.notHere u hhere hu
        · exact hts.notHere u (hbehind init u (by simp)) hu
    · next hother => exact absurd h hother
  never s u h hwide hmatch := by
    have hs := hwide rfl
    rw [matchTokens] at h
    split at h
    · next hhere =>
      obtain ⟨stop, hstop, hplace, hlonger⟩ := afterSlashes_never h
      rcases hmatch with rfl | ⟨a, b, rfl, ha, hb⟩
      · exact matchTokens_nil_ne_never stop hstop
      rw [← List.append_assoc] at hhere hplace hlonger
      rcases (hs.append ha).eq_nil_or_concat with hnil | ⟨init, hinit⟩
      · rw [hnil] at hhere
        exact hts.notHere b hhere hb
      -- `b` begins a segment, so it was tried unless the search had stopped before
      have htext : s ++ a ++ b = init ++ '/' :: b := by simp [hinit]
      rcases Nat.lt_or_ge stop.length b.length with hlong | hshort
      · exact hts.notHere b (hlonger init b htext hlong) hb
      rcases hplace with rfl | ⟨v, hv⟩
      · obtain rfl : b = [] := List.eq_nil_of_length_eq_zero (Nat.le_zero.mp hshort)
        exact hts.never [] [] hstop (fun _ => .none) hb
      · rw [List.append_cons] at hv
        obtain ⟨m, rfl⟩ := exists_append_of_length_le hv hshort
        rw [← List.append_assoc] at hv
        refine hts.never m b hstop (fun _ => ?_) hb
        exact .of_append (List.append_cancel_right hv ▸ hs.append ha)
    · rcases hmatch with rfl | ⟨a, b, rfl, ha, hb⟩
      · exact matchTokens_nil_ne_never _ h
      · rw [← List.append_assoc] at h
        exact hts.never (s ++ a) b h (fun _ => hs.append ha) hb

/-! ### The search -/

theorem not_startsWide_of_placed {token : Token} {ts : List Token}
    (hplaced : Placed (token :: ts)) (hslash : token ≠ .literal '/')
    (hwide : token ≠ .anySegments) : ¬ StartsWide ts := by
  intro hstarts
  obtain ⟨tail, rfl⟩ := List.head?_eq_some_iff.mp hstarts
  rcases (List.isChain_cons_cons.mp hplaced).1 rfl with h | h
  · exact hslash h
  · exact hwide h

theorem sound_of_placed {ts : List Token} (hplaced : Placed ts) : Sound ts := by
  induction ts with
  | nil => exact sound_nil
  | cons token ts ih =>
    have hts := ih hplaced.tail
    by_cases hrun : token = .anyRun
    · subst hrun
      exact sound_anyRun (not_startsWide_of_placed hplaced (by simp) (by simp)) hts
    by_cases hwide : token = .anySegments
    · subst hwide
      exact sound_anySegments hts
    refine sound_single ⟨hrun, hwide⟩ ?_ hts
    intro hstarts
    by_contra hslash
    exact not_startsWide_of_placed hplaced hslash hwide hstarts

/-- **The search is exact.**  Where every `**` begins a segment, the search finds a
    match if and only if there is one. -/
theorem matchTokens_found_iff {ts : List Token} (hplaced : Placed ts) (t : List Char) :
    matchTokens .separate ts t = .found ↔ Matches ts t := by
  constructor
  · exact (sound_of_placed hplaced).found t
  · intro hmatch
    cases hverdict : matchTokens .separate ts t with
    | found => rfl
    | notHere => exact absurd hmatch ((sound_of_placed hplaced).notHere t hverdict)
    | never => exact absurd hmatch ((sound_of_placed hplaced).never [] t hverdict fun _ => .none)

end SourceAudit.Glob
