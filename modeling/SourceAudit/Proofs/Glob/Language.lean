/-
  SourceAudit/Proofs/Glob/Language.lean
  =====================================
  **What a glob stands for.**

  Two readings of a pattern as a set of texts, neither of which searches:

    * `Denotes` reads the text of a pattern from left to right;
    * `Matches` reads its tokens.

  In both a wildcard inside a segment never stands for a slash, and `**` with the
  slash behind it stands for whole segments.  Only `**` at the very end of a pattern
  stands for any text.
-/
import SourceAudit.FilePattern

namespace SourceAudit.Glob

/-! ### Segments and classes -/

/-- Any number of whole segments, each with the slash behind it. -/
inductive WholeSegments : List Char → Prop
  | none : WholeSegments []
  | more {segment rest : List Char} : '/' ∉ segment → WholeSegments rest →
      WholeSegments (segment ++ '/' :: rest)

/-- A character is named by the text of a class: by a range or as itself. -/
inductive InClass : List Char → Char → Prop
  | range {first last c : Char} {rest : List Char} : first ≤ c → c ≤ last →
      InClass (first :: '-' :: last :: rest) c
  | afterRange {first last c : Char} {rest : List Char} : InClass rest c →
      InClass (first :: '-' :: last :: rest) c
  | single {c : Char} {rest : List Char} : (∀ last more, rest ≠ '-' :: last :: more) →
      InClass (c :: rest) c
  | afterSingle {c d : Char} {rest : List Char} : (∀ last more, rest ≠ '-' :: last :: more) →
      InClass rest c → InClass (d :: rest) c

/-- The text between the brackets of a class.  Its first character may be `]`. -/
structure IsClassBody (body : List Char) : Prop where
  ne_nil : body ≠ []
  no_close : ']' ∉ body.tail

/-! ### The language of a pattern -/

/-- The texts a pattern stands for.  `openEnd` says whether a `**/` at the very end
    counts as a `**` there. -/
inductive Denotes (openEnd : Bool) : List Char → List Char → Prop
  | nil : Denotes openEnd [] []
  | literal {c : Char} {p t : List Char} : c ≠ '*' → c ≠ '?' → c ≠ '[' →
      Denotes openEnd p t → Denotes openEnd (c :: p) (c :: t)
  | anyChar {c : Char} {p t : List Char} : c ≠ '/' → Denotes openEnd p t →
      Denotes openEnd ('?' :: p) (c :: t)
  | anyRun {run p t : List Char} : '/' ∉ run → p.head? ≠ some '*' → Denotes openEnd p t →
      Denotes openEnd ('*' :: p) (run ++ t)
  | segments {s p t : List Char} : WholeSegments s → Denotes openEnd p t →
      Denotes openEnd ('*' :: '*' :: '/' :: p) (s ++ t)
  | everything {t : List Char} : Denotes openEnd ['*', '*'] t
  | everythingBelow {t : List Char} : openEnd = true → Denotes openEnd ['*', '*', '/'] t
  | inside {body p t : List Char} {c : Char} : IsClassBody body → body.head? ≠ some '!' →
      c ≠ '/' → InClass body c → Denotes openEnd p t →
      Denotes openEnd ('[' :: (body ++ ']' :: p)) (c :: t)
  | outside {body p t : List Char} {c : Char} : IsClassBody body → c ≠ '/' →
      ¬ InClass body c → Denotes openEnd p t →
      Denotes openEnd ('[' :: '!' :: (body ++ ']' :: p)) (c :: t)

/-- The texts that tokens stand for. -/
def Matches : List Token → List Char → Prop
  | [], t => t = []
  | .anyRun :: ts, t => ∃ run u, t = run ++ u ∧ '/' ∉ run ∧ Matches ts u
  | .anySegments :: ts, t => ts = [] ∨ ∃ s u, t = s ++ u ∧ WholeSegments s ∧ Matches ts u
  | token :: ts, t => ∃ c u, t = c :: u ∧ token.accepts .separate c = true ∧ Matches ts u

/-! ### Segments -/

namespace WholeSegments

theorem slash {s : List Char} (hs : WholeSegments s) : WholeSegments ('/' :: s) :=
  @more [] s (by simp) hs

theorem cons {c : Char} {s : List Char} (hc : c ≠ '/') (hs : WholeSegments s) (hne : s ≠ []) :
    WholeSegments (c :: s) := by
  cases hs with
  | none => exact absurd rfl hne
  | @more segment rest hsegment hrest =>
    exact @more (c :: segment) rest (by simp [hsegment, Ne.symm hc]) hrest

/-- Texts that end in a slash, and the empty text, are the ones made of whole segments. -/
theorem iff_getLast? {s : List Char} : WholeSegments s ↔ ∀ c ∈ s.getLast?, c = '/' := by
  constructor
  · intro hs
    induction hs with
    | none => simp
    | @more segment rest _ _ ih =>
      cases rest with
      | nil => simp
      | cons d rest => simpa [List.getLast?_cons] using ih
  · intro hlast
    induction s with
    | nil => exact .none
    | cons c rest ih =>
      by_cases hrest : rest = []
      · subst hrest
        obtain rfl : c = '/' := hlast c (by simp)
        exact .slash .none
      · obtain ⟨d, tail, rfl⟩ := List.exists_cons_of_ne_nil hrest
        have hwhole := ih (by simpa [List.getLast?_cons] using hlast)
        by_cases hc : c = '/'
        · subst hc
          exact .slash hwhole
        · exact hwhole.cons hc (by simp)

theorem eq_nil_or_concat {s : List Char} (hs : WholeSegments s) :
    s = [] ∨ ∃ init, s = init ++ ['/'] := by
  rcases List.eq_nil_or_concat s with rfl | ⟨init, c, rfl⟩
  · exact .inl rfl
  · obtain rfl : c = '/' := iff_getLast?.mp hs c (by simp)
    exact .inr ⟨init, by simp⟩

theorem concat (s : List Char) : WholeSegments (s ++ ['/']) := by
  simp [iff_getLast?]

theorem append {s t : List Char} (hs : WholeSegments s) (ht : WholeSegments t) :
    WholeSegments (s ++ t) := by
  rw [iff_getLast?] at *
  cases ht' : t.getLast? with
  | none => simpa [List.getLast?_append, ht'] using hs
  | some d => simpa [List.getLast?_append, ht'] using ht

/-- The end of whole segments is made of whole segments, wherever it begins. -/
theorem of_append {s t : List Char} (hst : WholeSegments (s ++ t)) : WholeSegments t := by
  rw [iff_getLast?] at *
  cases ht : t.getLast? with
  | none => simp
  | some d => simpa [List.getLast?_append, ht] using hst

end WholeSegments

/-! ### Classes -/

/-- The text of a class names the characters that its entries hold. -/
theorem inClass_iff (body : List Char) (c : Char) :
    InClass body c ↔ (classItems body).any (·.holds c) = true := by
  fun_induction classItems body with
  | case1 first last rest ih =>
    rw [List.any_cons, Bool.or_eq_true, ← ih, ClassItem.holds, Bool.and_eq_true,
      decide_eq_true_eq, decide_eq_true_eq]
    constructor
    · intro hclass
      cases hclass with
      | range hfirst hlast => exact .inl ⟨hfirst, hlast⟩
      | afterRange hrest => exact .inr hrest
      | single hplain => exact absurd rfl (hplain last rest)
      | afterSingle hplain _ => exact absurd rfl (hplain last rest)
    · rintro (⟨hfirst, hlast⟩ | hrest)
      · exact .range hfirst hlast
      · exact .afterRange hrest
  | case2 d rest hplain ih =>
    rw [List.any_cons, Bool.or_eq_true, ← ih, ClassItem.holds, decide_eq_true_eq]
    constructor
    · intro hclass
      cases hclass with
      | range => exact absurd rfl (hplain _ _)
      | afterRange => exact absurd rfl (hplain _ _)
      | single => exact .inl rfl
      | afterSingle _ hrest => exact .inr hrest
    · rintro (rfl | hrest)
      · exact .single hplain
      · exact .afterSingle hplain hrest
  | case3 =>
    constructor
    · intro hclass
      cases hclass
    · intro hany
      simp at hany

end SourceAudit.Glob
