/-
  SourceAudit/Proofs/CommentScan.lean
  ===================================
  **Comments read character by character.**

  Lines are counted by looking at their beginnings, and at most for one mark behind that.  Here
  a text is read from left to right instead (`Scan`): outside a comment `//` hides the rest of
  the line and `/*` opens a block, which `*/` closes.  The two readings part where a block
  comment opens behind something else on its line and is still open at the end of that line
  (`Scan.OpensLate`):

    * every line up to the first such line has the kind that the scan gives it
                                                        — `LineKind.getElem?_scanned`;
    * the line behind it lies inside a comment, but is taken for one outside
                                                        — `LineKind.behind_late`.

  `LineCount.scan_parts_at_late_comment` puts this together for kinds and counts.
-/
import SourceAudit.Proofs.LineKinds
import SourceAudit.Proofs.Trimming

namespace SourceAudit

/-! ### Reading from left to right -/

/-- Where the reading of a text stands. -/
inductive Scan where
  | outside                                     -- of any comment
  | slash                                       -- outside, right behind a slash
  | hidden                                      -- behind two slashes, until the line ends
  | inside                                      -- of a block comment
  | star                                        -- inside, right behind a star
deriving DecidableEq, Repr

namespace Scan

def next (c : Char) : Scan → Scan
  | .outside => if c = '/' then .slash else .outside
  | .slash => if c = '/' then .hidden else if c = '*' then .inside else .outside
  | .hidden => if c = '\n' then .outside else .hidden
  | .inside => if c = '*' then .star else .inside
  | .star => if c = '/' then .outside else if c = '*' then .star else .inside

/-- Where the reading stands behind a text, when it began at `s`. -/
def after (s : Scan) (text : List Char) : Scan :=
  text.foldl (fun s c => s.next c) s

def isInside : Scan → Bool
  | .inside | .star => true
  | _ => false

/-- The mark that closes a block comment. -/
def close : List Char := ['*', '/']

theorem after_cons (s : Scan) (c : Char) (rest : List Char) :
    s.after (c :: rest) = (s.next c).after rest := rfl

theorem after_append (s : Scan) (front back : List Char) :
    s.after (front ++ back) = (s.after front).after back := List.foldl_append

theorem after_opening (s : Scan) (hs : s = .outside) (rest : List Char) :
    s.after ('/' :: '*' :: rest) = Scan.inside.after rest := by
  rw [hs, after_cons, after_cons]
  rfl

theorem after_blanks {front : List Char} (hfront : ∀ c ∈ front, Text.isBlank c = true) :
    Scan.outside.after front = .outside := by
  induction front with
  | nil => rfl
  | cons c rest ih =>
    obtain ⟨hblank, hrest⟩ := List.forall_mem_cons.mp hfront
    have hc : c ≠ '/' := by
      rintro rfl
      exact absurd hblank (by decide)
    rw [after_cons, next, if_neg hc, ih hrest]

/-- At the end of a line everything but a block comment ends. -/
theorem after_lineEnd (s : Scan) {back : List Char} (hback : back = [] ∨ back = ['\r']) :
    s.after (back ++ ['\n']) = if s.isInside then .inside else .outside := by
  rcases hback with rfl | rfl <;> cases s <;> rfl

/-! ### How a block comment closes -/

/-- What was read last of a closing mark. -/
def pending : Scan → List Char
  | .star => ['*']
  | _ => []

/-- A character inside a comment is read into what is pending, or it completes the mark. -/
theorem pending_next {s : Scan} (hs : s.isInside = true) (c : Char) :
    ((s.next c).isInside = true ∧ ∀ text, close <:+: s.pending ++ c :: text ↔
        close <:+: (s.next c).pending ++ text) ∨
      s.next c = .outside ∧ close <:+: s.pending ++ [c] := by
  cases s with
  | inside =>
    by_cases hstar : c = '*'
    · simp [next, hstar, isInside, pending]
    · have hother : '*' ≠ c := Ne.symm hstar
      simp [next, hstar, hother, isInside, pending, close, List.infix_cons_iff]
  | star =>
    by_cases hslash : c = '/'
    · simp [next, hslash, pending, close]
    · have hother : '/' ≠ c := Ne.symm hslash
      by_cases hstar : c = '*'
      · simp [next, hstar, isInside, pending, close, List.infix_cons_iff]
      · have hother' : '*' ≠ c := Ne.symm hstar
        simp [next, hslash, hother, hstar, hother', isInside, pending, close, List.infix_cons_iff]
  | outside | slash | hidden => cases hs

theorem isInside_of_unclosed {s : Scan} (hs : s.isInside = true) {text : List Char}
    (htext : ¬ close <:+: s.pending ++ text) : (s.after text).isInside = true := by
  induction text generalizing s with
  | nil => exact hs
  | cons c rest ih =>
    rcases pending_next hs c with ⟨hinside, hpending⟩ | ⟨-, hclosed⟩
    · exact ih hinside fun h => htext ((hpending rest).mpr h)
    · rw [List.append_cons] at htext
      exact absurd (hclosed.trans (List.prefix_append ..).isInfix) htext

/-- A block comment is left through its closing mark only. -/
theorem close_of_outside {text : List Char} (htext : Scan.inside.after text = .outside) :
    close <:+: text := by
  by_contra hclose
  have hinside := isInside_of_unclosed (s := .inside) rfl hclose
  rw [htext] at hinside
  cases hinside

/-! ### Comments that stay open -/

/-- Behind `front`, a line opens a block comment and does not close it any more. -/
structure Opens (s : Scan) (line front back : List Char) : Prop where
  text : line = front ++ '/' :: '*' :: back
  outside : s.after front = .outside
  unclosed : ¬ close <:+: back

/-- The comment that stays open begins behind something else. -/
def OpensLate (s : Scan) (line : List Char) : Prop :=
  ∃ front back, s.Opens line front back ∧ ∃ c ∈ front, Text.isBlank c = false

namespace Opens

variable {s : Scan} {line front back : List Char}

theorem isInside (h : s.Opens line front back) : (s.after line).isInside = true := by
  rw [h.text, after_append, after_opening _ h.outside]
  exact isInside_of_unclosed rfl h.unclosed

theorem cons {c : Char} (h : (s.next c).Opens line front back) :
    s.Opens (c :: line) (c :: front) back where
  text := by rw [h.text, List.cons_append]
  outside := h.outside
  unclosed := h.unclosed

/-- There is at most one comment of a line that stays open. -/
theorem unique {front' back' : List Char} (h : s.Opens line front back)
    (h' : s.Opens line front' back') : front = front' := by
  have hno {front back middle back' : List Char} (h : s.Opens line front back)
      (h' : s.Opens line (front ++ middle) back') : middle = [] := by
    have hrest := h'.text.symm.trans h.text
    rw [List.append_assoc, List.append_cancel_left_eq] at hrest
    have houtside := h'.outside
    rw [after_append, h.outside] at houtside
    -- behind its opening mark the comment is not left any more
    match middle, hrest, houtside with
    | [], _, _ => rfl
    | [c], hrest, houtside =>
      obtain rfl := (List.cons.inj hrest).1
      cases houtside
    | c :: d :: more, hrest, houtside =>
      simp only [List.cons_append, List.cons.injEq] at hrest
      obtain ⟨rfl, rfl, rfl⟩ := hrest
      rw [after_opening _ rfl] at houtside
      exact absurd ((close_of_outside houtside).trans (List.infix_append' [] more _)) h.unclosed
  rcases List.append_eq_append_iff.mp (h.text.symm.trans h'.text) with ⟨m, hm, -⟩ | ⟨m, hm, -⟩
  · subst hm
    rw [hno h h', List.append_nil]
  · subst hm
    rw [hno h' h, List.append_nil]

/-- Where nothing but blanks stands in front, the line begins with the comment. -/
theorem late_or_first (h : s.Opens line front back) :
    s.OpensLate line ∨ Text.trimStart line = '/' :: '*' :: back := by
  by_cases hblank : ∀ c ∈ front, Text.isBlank c = true
  · refine .inr ?_
    rw [h.text, Text.trimStart_append hblank]
    rfl
  · simp only [not_forall, Bool.not_eq_true] at hblank
    obtain ⟨c, hc, hvisible⟩ := hblank
    exact .inl ⟨front, back, h, c, hc, hvisible⟩

end Opens

/-- The comment that is open, or opens with the next character, is not closed any more. -/
def StaysOpen (line : List Char) : Scan → Prop
  | .slash => ∃ back, line = '*' :: back ∧ ¬ close <:+: back
  | .inside => ¬ close <:+: line
  | .star => ¬ close <:+: '*' :: line
  | _ => False

theorem staysOpen_iff {s : Scan} (hs : s.isInside = true) {line : List Char} :
    s.StaysOpen line ↔ ¬ close <:+: s.pending ++ line := by
  cases s with
  | inside | star => rfl
  | outside | slash | hidden => cases hs

theorem StaysOpen.cons {s : Scan} {c : Char} {rest : List Char}
    (h : (s.next c).StaysOpen rest) :
    s.StaysOpen (c :: rest) ∨ ∃ back, s.Opens (c :: rest) [] back := by
  have hwithin (hs : s.isInside = true) : s.StaysOpen (c :: rest) := by
    rw [staysOpen_iff hs]
    rcases pending_next hs c with ⟨hinside, hpending⟩ | ⟨houtside, -⟩
    · rw [hpending]
      exact (staysOpen_iff hinside).mp h
    · rw [houtside] at h
      exact h.elim
  cases s with
  | outside =>
    by_cases hslash : c = '/'
    · rw [next, if_pos hslash] at h
      obtain ⟨back, rfl, hunclosed⟩ := h
      exact .inr ⟨back, by rw [hslash, List.nil_append], rfl, hunclosed⟩
    · rw [next, if_neg hslash] at h
      exact h.elim
  | slash =>
    rw [next] at h
    split at h
    · exact h.elim
    · split at h
      · next hstar => exact .inl ⟨rest, by rw [hstar], h⟩
      · exact h.elim
  | hidden =>
    rw [next] at h
    split at h <;> exact h.elim
  | inside => exact .inl (hwithin rfl)
  | star => exact .inl (hwithin rfl)

/-- The last comment of a line that ends inside one was open before or opens there. -/
theorem staysOpen_or_opens {s : Scan} {line : List Char}
    (hinside : (s.after line).isInside = true) :
    s.StaysOpen line ∨ ∃ front back, s.Opens line front back := by
  induction line generalizing s with
  | nil =>
    refine .inl ((staysOpen_iff hinside).mpr fun hclose => ?_)
    have hlength : close.length ≤ (s.pending ++ []).length := hclose.length_le
    cases s <;> simp [pending, close] at hlength
  | cons c rest ih =>
    rcases ih hinside with hopen | ⟨front, back, h⟩
    · exact hopen.cons.imp_right fun ⟨back, h⟩ => ⟨[], back, h⟩
    · exact .inr ⟨_, back, h.cons⟩

theorem OpensLate.isInside {s : Scan} {line : List Char} (h : s.OpensLate line) :
    (s.after line).isInside = true := by
  obtain ⟨front, back, hopens, -⟩ := h
  exact hopens.isInside

/-- A comment that was open is closed in front of another one. -/
theorem Opens.late_of_inside {line front back : List Char}
    (h : Scan.inside.Opens line front back) : Scan.inside.OpensLate line :=
  ⟨front, back, h, '*', (close_of_outside h.outside).subset (List.mem_cons_self ..), by decide⟩

theorem not_late_of_unclosed {line : List Char} (hline : ¬ close <:+: line) :
    ¬ Scan.inside.OpensLate line := by
  rintro ⟨front, back, h, -⟩
  rw [h.text] at hline
  exact hline ((close_of_outside h.outside).trans (List.prefix_append ..).isInfix)

theorem not_isInside_of_close {line : List Char} (hline : close <:+: line)
    (hlate : ¬ Scan.inside.OpensLate line) : (Scan.inside.after line).isInside = false := by
  rw [← Bool.not_eq_true]
  intro hinside
  rcases staysOpen_or_opens hinside with hopen | ⟨front, back, h⟩
  · exact hopen hline
  · exact hlate h.late_of_inside

/-- Without a late opening, a line that ends inside a comment begins with it. -/
theorem first_of_isInside {line : List Char} (hlate : ¬ Scan.outside.OpensLate line)
    (hinside : (Scan.outside.after line).isInside = true) :
    ∃ back, Text.trimStart line = '/' :: '*' :: back ∧ ¬ close <:+: back := by
  obtain ⟨front, back, h⟩ := (staysOpen_or_opens hinside).resolve_left id
  exact ⟨back, h.late_or_first.resolve_left hlate, h.unclosed⟩

theorem not_late_of_first {line back : List Char}
    (hfirst : Text.trimStart line = '/' :: '*' :: back) (hback : ¬ close <:+: back) :
    (Scan.outside.after line).isInside = true ∧ ¬ Scan.outside.OpensLate line := by
  obtain ⟨blanks, hblanks, hline⟩ := Text.exists_blanks line
  have h : Scan.outside.Opens line blanks back :=
    ⟨hline.trans (by rw [hfirst]), after_blanks hblanks, hback⟩
  refine ⟨h.isInside, ?_⟩
  rintro ⟨front, back', h', c, hc, hvisible⟩
  rw [← h.unique h'] at hc
  exact nomatch hvisible.symm.trans (hblanks c hc)

/-- What stands awaited where the reading stands. -/
def awaited (s : Scan) : Option (List Char) :=
  if s.isInside then some close else none

/-- Where the reading stands at the start of a line. -/
def atLine (text : List Char) (i : Nat) : Scan :=
  Scan.outside.after (Text.inFront i text)

end Scan

/-! ### The kind of one line -/

namespace LineKind

open Scan (close)

/-- The first characters behind the blanks of a line are a mark. -/
def BeginsMarked (line : List Char) : Prop :=
  ['/', '/'] <+: Text.trimStart line ∨ ['/', '*'] <+: Text.trimStart line

instance (line : List Char) : Decidable (BeginsMarked line) :=
  inferInstanceAs (Decidable (_ ∨ _))

/-- The kind of a line that starts inside a block comment or outside. -/
def ofScan (inside : Bool) (line : List Char) : LineKind :=
  if inside = true ∨ BeginsMarked line then .comment
  else if Text.trim line = [] then .blank
  else .code

theorem visible_slashes : ∀ c ∈ ['/', '/'], Text.isBlank c = false :=
  Text.visible_of_all (by decide)

theorem visible_open : ∀ c ∈ ['/', '*'], Text.isBlank c = false :=
  Text.visible_of_all (by decide)

theorem visible_close : ∀ c ∈ close, Text.isBlank c = false :=
  Text.visible_of_all (by decide)

/-- Inside a comment a line is looked at for the closing mark only. -/
theorem step_inside (line : List Char) : step .slashes (some close) line =
    (.comment, if close <:+: line then none else some close) := by
  rw [step_some]
  simp only [Text.contains_iff, Text.infix_trim_iff visible_close]

theorem step_outside (line : List Char) : step .slashes none line =
    if Text.trim line = [] then (.blank, none)
    else if ['/', '/'] <+: Text.trimStart line then (.comment, none)
    else
      match Text.afterStart? ['/', '*'] (Text.trim line) with
      | some rest => (.comment, if close <:+: rest then none else some close)
      | none => (.code, none) := by
  have hopened : CommentMarks.slashes.opened? (Text.trim line) =
      (Text.afterStart? ['/', '*'] (Text.trim line)).map fun rest => (rest, close) := by
    cases hstart : Text.afterStart? ['/', '*'] (Text.trim line) <;>
      simp [CommentMarks.opened?, CommentMarks.slashes, hstart, close]
  have hhidden : CommentMarks.slashes.line.any (·.isPrefixOf (Text.trim line)) = true ↔
      ['/', '/'] <+: Text.trimStart line := by
    simp only [CommentMarks.slashes, List.any_cons, List.any_nil, Bool.or_false,
      List.isPrefixOf_iff_prefix]
    exact Text.prefix_trim_iff visible_slashes line
  rw [step_none]
  simp only [List.isEmpty_iff, hhidden, hopened, Text.contains_iff]
  cases Text.afterStart? ['/', '*'] (Text.trim line) <;> rfl

theorem ofScan_marked {inside : Bool} {line : List Char} (hmarked : BeginsMarked line) :
    ofScan inside line = .comment := if_pos (.inr hmarked)

/-- A comment at the start of a line is looked through for the closing mark. -/
theorem step_first {line back : List Char} (hfirst : Text.trimStart line = '/' :: '*' :: back) :
    step .slashes none line =
      (ofScan false line, if close <:+: back then none else some close) := by
  have htrim : Text.trim line = ['/', '*'] ++ Text.trimEnd back :=
    (Text.trim_eq_append_iff visible_open).mpr ⟨back, hfirst, rfl⟩
  have hnone : ¬ ['/', '/'] <+: Text.trimStart line := by
    rw [hfirst]
    rintro ⟨rest, hrest⟩
    simp at hrest
  have hne : Text.trim line ≠ [] := by
    rw [htrim]
    exact List.cons_ne_nil _ _
  rw [step_outside, if_neg hne, if_neg hnone, Text.afterStart?_eq_some_iff.mpr htrim,
    ofScan_marked (.inr ⟨back, hfirst.symm⟩)]
  simp only [Text.infix_trimEnd_iff visible_close]

/-- Another line is not looked through. -/
theorem step_other {line : List Char}
    (hother : ∀ back, Text.trimStart line ≠ '/' :: '*' :: back) :
    step .slashes none line = (ofScan false line, none) := by
  have hopening : ¬ ['/', '*'] <+: Text.trimStart line := fun ⟨back, h⟩ => hother back h.symm
  have hstart : Text.afterStart? ['/', '*'] (Text.trim line) = none := by
    rw [Option.eq_none_iff_forall_ne_some]
    intro rest hrest
    rw [Text.afterStart?_eq_some_iff] at hrest
    exact hopening ((Text.prefix_trim_iff visible_open line).mp ⟨rest, hrest.symm⟩)
  rw [step_outside, hstart]
  by_cases hhidden : ['/', '/'] <+: Text.trimStart line
  · have hne : Text.trim line ≠ [] := by
      intro hempty
      rw [← Text.prefix_trim_iff visible_slashes, hempty] at hhidden
      exact nomatch hhidden.length_le
    rw [if_neg hne, if_pos hhidden, ofScan_marked (.inl hhidden)]
  · have hunmarked : ¬ (false = true ∨ BeginsMarked line) := by
      rintro (h | h | h)
      · cases h
      · exact hhidden h
      · exact hopening h
    rw [ofScan, if_neg hunmarked, if_neg hhidden]
    split <;> rfl

/-- Outside of comments a line is read as the scan reads it, but a late opening is not seen. -/
theorem step_scan_outside (line : List Char) :
    (step .slashes none line).1 = ofScan false line ∧
      (Scan.outside.OpensLate line → (step .slashes none line).2 = none) ∧
      (¬ Scan.outside.OpensLate line →
        (step .slashes none line).2 = (Scan.outside.after line).awaited) := by
  by_cases hfirst : ∃ back, Text.trimStart line = '/' :: '*' :: back
  · obtain ⟨back, hfirst⟩ := hfirst
    rw [step_first hfirst]
    by_cases hclose : close <:+: back
    · rw [if_pos hclose]
      refine ⟨rfl, fun _ => rfl, ?_⟩
      intro hlate
      -- the comment in front is closed, and none behind it stays open
      rw [Scan.awaited, if_neg]
      intro hinside
      obtain ⟨back', hfirst', hback'⟩ := Scan.first_of_isInside hlate hinside
      rw [hfirst] at hfirst'
      obtain rfl : back = back' := by simpa using hfirst'
      exact hback' hclose
    · obtain ⟨hinside, hnotLate⟩ := Scan.not_late_of_first hfirst hclose
      rw [if_neg hclose]
      refine ⟨rfl, fun hlate => absurd hlate hnotLate, ?_⟩
      intro _
      rw [Scan.awaited, if_pos hinside]
  · rw [step_other fun back h => hfirst ⟨back, h⟩]
    refine ⟨rfl, fun _ => rfl, ?_⟩
    intro hlate
    rw [Scan.awaited, if_neg]
    intro hinside
    obtain ⟨back, hback, -⟩ := Scan.first_of_isInside hlate hinside
    exact hfirst ⟨back, hback⟩

/-- Inside of a comment a line is read as the scan reads it, but for one that opens behind the
    end of the comment. -/
theorem step_scan_inside (line : List Char) :
    (step .slashes (some close) line).1 = ofScan true line ∧
      (Scan.inside.OpensLate line → (step .slashes (some close) line).2 = none) ∧
      (¬ Scan.inside.OpensLate line →
        (step .slashes (some close) line).2 = (Scan.inside.after line).awaited) := by
  rw [step_inside]
  by_cases hclose : close <:+: line
  · rw [if_pos hclose]
    refine ⟨rfl, fun _ => rfl, ?_⟩
    intro hlate
    rw [Scan.awaited, Scan.not_isInside_of_close hclose hlate]
    rfl
  · have hinside := Scan.isInside_of_unclosed (s := .inside) rfl hclose
    rw [if_neg hclose]
    refine ⟨rfl, fun hlate => absurd hlate (Scan.not_late_of_unclosed hclose), ?_⟩
    intro _
    rw [Scan.awaited, if_pos hinside]

/-- The step of the counting beside that of the scan, from where a line can start. -/
theorem step_scan {s : Scan} (hs : s = .outside ∨ s = .inside) (line : List Char) :
    (step .slashes s.awaited line).1 = ofScan s.isInside line ∧
      (s.OpensLate line → (step .slashes s.awaited line).2 = none) ∧
      (¬ s.OpensLate line → (step .slashes s.awaited line).2 = (s.after line).awaited) := by
  rcases hs with rfl | rfl
  · exact step_scan_outside line
  · exact step_scan_inside line

end LineKind

/-! ### All lines of a text -/

namespace Scan

variable {text line : List Char} {i : Nat}

theorem atLine_succ (hline : (Text.lines text)[i]? = some line)
    (hnext : i + 1 < (Text.lines text).length) : atLine text (i + 1) =
      if ((atLine text i).after line).isInside then .inside else .outside := by
  obtain ⟨back, hback, hcut⟩ := Text.inFront_succ hline hnext
  rw [atLine, hcut, after_append, after_append, after_lineEnd _ hback, atLine]

/-- A line starts outside of comments or inside a block comment, and behind no half of a mark. -/
theorem atLine_cases (hi : i < (Text.lines text).length) :
    atLine text i = .outside ∨ atLine text i = .inside := by
  cases i with
  | zero => exact .inl (by rw [atLine, Text.inFront_zero]; rfl)
  | succ i =>
    have hline := List.getElem?_eq_getElem (Nat.lt_of_succ_lt hi)
    rw [atLine_succ hline hi]
    split
    · exact .inr rfl
    · exact .inl rfl

/-- The line opens a comment late, read from where the scan stands in front of it. -/
def LateAt (text : List Char) (i : Nat) : Prop :=
  ∃ line, (Text.lines text)[i]? = some line ∧ (atLine text i).OpensLate line

end Scan

namespace LineKind

open Scan (atLine LateAt)

/-- The kinds of the lines of a text, as the scan gives them. -/
def scanned (text : List Char) : List LineKind :=
  (Text.lines text).mapIdx fun i line => ofScan (atLine text i).isInside line

variable {text : List Char} {i : Nat}

/-- In front of the first late opening, what is awaited is what the scan is inside of. -/
theorem awaitedBehind_take (hi : i < (Text.lines text).length)
    (hnone : ∀ j < i, ¬ LateAt text j) :
    awaitedBehind .slashes none ((Text.lines text).take i) = (atLine text i).awaited := by
  induction i with
  | zero => rw [List.take_zero, atLine, Text.inFront_zero]; rfl
  | succ i ih =>
    have hi' := Nat.lt_of_succ_lt hi
    obtain ⟨line, hline⟩ : ∃ line, (Text.lines text)[i]? = some line :=
      ⟨_, List.getElem?_eq_getElem hi'⟩
    have hlate : ¬ (atLine text i).OpensLate line := fun h =>
      hnone i (Nat.lt_succ_self i) ⟨line, hline, h⟩
    obtain ⟨-, -, hstep⟩ := step_scan (Scan.atLine_cases hi') line
    rw [List.take_add_one, hline, Option.toList_some, awaitedBehind_concat,
      ih hi' fun j hj => hnone j (Nat.lt_succ_of_lt hj), hstep hlate, Scan.atLine_succ hline hi]
    cases (atLine text i).after line <;> rfl

/-- Up to the first late opening the lines have the kinds that the scan gives them. -/
theorem getElem?_scanned (hnone : ∀ j < i, ¬ LateAt text j) :
    (ofLines .slashes none (Text.lines text))[i]? = (scanned text)[i]? := by
  rw [getElem?_ofLines, scanned, List.getElem?_mapIdx]
  cases hline : (Text.lines text)[i]? with
  | none => rfl
  | some line =>
    obtain ⟨hi, -⟩ := List.getElem?_eq_some_iff.mp hline
    rw [Option.map_some, Option.map_some, awaitedBehind_take hi hnone,
      (step_scan (Scan.atLine_cases hi) line).1]

/-- The line behind the first late opening lies inside a comment and is taken for one outside. -/
theorem behind_late {next : List Char} (hnone : ∀ j < i, ¬ LateAt text j) (hlate : LateAt text i)
    (hnext : (Text.lines text)[i + 1]? = some next) :
    (scanned text)[i + 1]? = some .comment ∧
      (ofLines .slashes none (Text.lines text))[i + 1]? = some (ofScan false next) := by
  obtain ⟨line, hline, hopens⟩ := hlate
  obtain ⟨hi, -⟩ := List.getElem?_eq_some_iff.mp hline
  obtain ⟨hi', -⟩ := List.getElem?_eq_some_iff.mp hnext
  constructor
  · rw [scanned, List.getElem?_mapIdx, hnext, Scan.atLine_succ hline hi',
      if_pos hopens.isInside]
    rfl
  · have hnothing : awaitedBehind .slashes none ((Text.lines text).take (i + 1)) = none := by
      rw [List.take_add_one, hline, Option.toList_some, awaitedBehind_concat,
        awaitedBehind_take hi hnone]
      exact (step_scan (Scan.atLine_cases hi) line).2.1 hopens
    rw [getElem?_ofLines, hnext, Option.map_some, hnothing]
    exact congrArg some (step_scan (.inl rfl) next).1

theorem scanned_eq (hlast : ∀ j, LateAt text j → j + 1 = (Text.lines text).length) :
    ofLines .slashes none (Text.lines text) = scanned text := by
  refine List.ext_getElem? fun i => ?_
  rcases Nat.lt_or_ge i (Text.lines text).length with hi | hi
  · refine getElem?_scanned fun j hj hlate => ?_
    have := hlast j hlate
    omega
  · have hscanned : (scanned text).length ≤ i := by rwa [scanned, List.length_mapIdx]
    rw [List.getElem?_eq_none (by rwa [length_ofLines]), List.getElem?_eq_none hscanned]

end LineKind

/-! ### Counts of a file -/

theorem CommentMarks.ofExtension?_slashes {extension : Option String}
    (hstyle : extension ∉ [some "py", some "php", some "svelte"]) :
    ofExtension? extension = .slashes := by
  cases extension with
  | none => rfl
  | some extension =>
    simp only [List.mem_cons, Option.some.injEq, List.not_mem_nil, or_false, not_or] at hstyle
    rw [ofExtension?, Option.elim_some]
    unfold ofExtension
    split
    · exact absurd rfl hstyle.1
    · exact absurd rfl hstyle.2.1
    · exact absurd rfl hstyle.2.2
    · rfl

namespace LineCount

open LineKind (scanned ofScan)

/-- **Counting parts from the scan behind a late opening.**  In a file with C-style comments,
    every line up to the first one that opens a block comment behind something else, and leaves
    it open, has the kind that the scan of the whole text gives it.  The line behind that one
    lies inside the comment, but its kind is that of a line outside.  So where only the last
    line opens a comment in this way, if any, the counts are those of the scan. -/
theorem scan_parts_at_late_comment {extension : Option String}
    (hstyle : extension ∉ [some "py", some "php", some "svelte"]) (text : List Char) :
    let kinds := LineKind.ofLines (CommentMarks.ofExtension? extension) none (Text.lines text)
    let count := ofText extension text
    (∀ i, (∀ j < i, ¬ Scan.LateAt text j) → kinds[i]? = (scanned text)[i]?) ∧
      (∀ i next, (∀ j < i, ¬ Scan.LateAt text j) → Scan.LateAt text i →
        (Text.lines text)[i + 1]? = some next →
          (scanned text)[i + 1]? = some .comment ∧ kinds[i + 1]? = some (ofScan false next)) ∧
      ((∀ i, Scan.LateAt text i → i + 1 = (Text.lines text).length) →
        count.code = (scanned text).count .code ∧
          count.comment = (scanned text).count .comment ∧
          count.blank = (scanned text).count .blank) := by
  intro kinds count
  have hmarks := CommentMarks.ofExtension?_slashes hstyle
  have hkinds : kinds = LineKind.ofLines .slashes none (Text.lines text) := by
    rw [← hmarks]
  refine ⟨fun i hnone => ?_, fun i next hnone hlate hnext => ?_, fun hlast => ?_⟩
  · rw [hkinds]
    exact LineKind.getElem?_scanned hnone
  · rw [hkinds]
    exact LineKind.behind_late hnone hlate hnext
  · have hsame : kinds = scanned text := hkinds.trans (LineKind.scanned_eq hlast)
    have hcount : count = ⟨kinds.count .code, kinds.count .comment, kinds.count .blank, _⟩ :=
      ofText_eq extension text
    rw [hcount, ← hsame]
    exact ⟨rfl, rfl, rfl⟩

/-- A comment behind code on the first line; and one on the last, behind marks that are hidden
    or closed. -/
theorem scan_parts_at_second_line :
    let text := "int a; /* one\n two */\nint b;\n".toList
    let other := "/* a */ x\ny // /* b\nz /* c".toList
    some "dart" ∉ [some "py", some "php", some "svelte"] ∧
      Scan.LateAt text 0 ∧ (scanned text)[1]? = some .comment ∧
      (LineKind.ofLines (CommentMarks.ofExtension? (some "dart")) none (Text.lines text))[1]? =
        some .code ∧
      Scan.LateAt other 2 ∧
      (ofText (some "dart") other).comment = (scanned other).count .comment := by
  intro text other
  have hstyle : some "dart" ∉ [some "py", some "php", some "svelte"] := by decide
  obtain ⟨-, hbehind, -⟩ := scan_parts_at_late_comment hstyle text
  obtain ⟨-, -, hcounts⟩ := scan_parts_at_late_comment hstyle other
  have hlate : Scan.LateAt text 0 :=
    ⟨"int a; /* one".toList, by decide +kernel, "int a; ".toList, " one".toList,
      ⟨by decide +kernel, by decide +kernel, by decide +kernel⟩, 'i', by decide +kernel,
      by decide⟩
  obtain ⟨hscanned, hcounted⟩ := hbehind 0 " two */".toList (fun j hj => absurd hj (by omega))
    hlate (by decide +kernel)
  have hlateOther : Scan.LateAt other 2 :=
    ⟨"z /* c".toList, by decide +kernel, "z ".toList, " c".toList,
      ⟨by decide +kernel, by decide +kernel, by decide +kernel⟩, 'z', by decide +kernel,
      by decide⟩
  have hlast : ∀ i, Scan.LateAt other i → i + 1 = (Text.lines other).length := by
    have hlength : (Text.lines other).length = 3 := by decide +kernel
    have hclosed : ∀ i < 2, ((Scan.atLine other i).after
        ((Text.lines other).getD i [])).isInside = false := by decide +kernel
    rintro i ⟨line, hline, h⟩
    obtain ⟨hi, -⟩ := List.getElem?_eq_some_iff.mp hline
    have hline' : (Text.lines other).getD i [] = line := by
      rw [List.getD_eq_getElem?_getD, hline, Option.getD_some]
    by_contra hlast
    have houtside := hclosed i (by omega)
    rw [hline', h.isInside] at houtside
    cases houtside
  refine ⟨hstyle, hlate, hscanned, ?_, hlateOther, (hcounts hlast).2.1⟩
  rw [hcounted]
  decide +kernel

/-- A line inside a comment that opened behind code is not counted as comment. -/
theorem comment_behind_code_uncounted :
    let text := "int a; /* one\n two */\nint b;\n".toList
    some "dart" ∉ [some "py", some "php", some "svelte"] ∧
      text.all (fun c => c.toNat ∉ [34, 39, 96]) = true ∧   -- no quotes of any kind
      scanned text = [.code, .comment, .code] ∧
      ofText (some "dart") text = ⟨3, 0, 0, 13⟩ := by
  decide +kernel

end LineCount

end SourceAudit
