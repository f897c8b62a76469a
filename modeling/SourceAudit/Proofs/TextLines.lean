/-
  SourceAudit/Proofs/TextLines.lean
  =================================
  **Lines of a text, one after the other.**

  A text is empty, or one line without an end, or a line with its end and a text behind it;
  facts about lines are proved along these three cases (`linewise`).  In this way:

  * `length_lines`: there is a line for every line feed, and one more for what stands behind
    the last of them;
  * `lines_append`: behind a text that ends its last line, the lines of another follow;
  * `inFront_succ`: a line and its end lie between what stands in front of it and what
    stands in front of the next.
-/
import SourceAudit.Text.Lines

namespace SourceAudit.Text

/-! ### One line at a time -/

theorem pieces_ended {line : List Char} (hline : '\n' ∉ line) (rest : List Char) :
    pieces (line ++ '\n' :: rest) = (line, true) :: pieces rest := by
  induction line with
  | nil => rw [List.nil_append, pieces, if_pos rfl]
  | cons c line ih =>
    rw [List.mem_cons, not_or] at hline
    rw [List.cons_append, pieces, if_neg (Ne.symm hline.1), ih hline.2]

theorem pieces_unended {line : List Char} (hline : '\n' ∉ line) (hne : line ≠ []) :
    pieces line = [(line, false)] := by
  induction line with
  | nil => exact absurd rfl hne
  | cons c line ih =>
    rw [List.mem_cons, not_or] at hline
    rw [pieces, if_neg (Ne.symm hline.1)]
    by_cases hrest : line = []
    · rw [hrest, pieces]
    · rw [ih hline.2 hrest]

theorem lines_ended {line : List Char} (hline : '\n' ∉ line) (rest : List Char) :
    lines (line ++ '\n' :: rest) = dropReturn line :: lines rest := by
  rw [lines, pieces_ended hline, List.map_cons, pieceText, lines]

theorem lines_unended {line : List Char} (hline : '\n' ∉ line) (hne : line ≠ []) :
    lines line = [line] := by
  rw [lines, pieces_unended hline hne, List.map_singleton, pieceText]

/-- What is dropped from the end of a line is a carriage return, if anything. -/
theorem exists_return (line : List Char) :
    ∃ back, (back = [] ∨ back = ['\r']) ∧ line = dropReturn line ++ back := by
  by_cases hreturn : line.getLast? = some '\r'
  · obtain ⟨front, rfl⟩ := List.getLast?_eq_some_iff.mp hreturn
    exact ⟨['\r'], .inr rfl, by simp [dropReturn]⟩
  · exact ⟨[], .inl rfl, by simp [dropReturn, hreturn]⟩

/-- A text is empty, or a line without an end, or a line with its end and a text behind it. -/
@[elab_as_elim]
theorem linewise {motive : List Char → Prop} (empty : motive [])
    (unended : ∀ line, '\n' ∉ line → line ≠ [] → motive line)
    (ended : ∀ line rest, '\n' ∉ line → motive rest → motive (line ++ '\n' :: rest))
    (s : List Char) : motive s := by
  by_cases hfeed : '\n' ∈ s
  · obtain ⟨line, rest, hs, hline⟩ := List.eq_append_cons_of_mem hfeed
    have hshorter : rest.length < s.length := by
      rw [hs, List.length_append, List.length_cons]
      omega
    rw [hs]
    exact ended line rest hline (linewise empty unended ended rest)
  · by_cases hne : s = []
    · rw [hne]
      exact empty
    · exact unended s hfeed hne
termination_by s.length

/-! ### Texts that end their last line -/

/-- Nothing stands behind the last line feed. -/
def Ended (s : List Char) : Prop := s = [] ∨ s.getLast? = some '\n'

instance (s : List Char) : Decidable (Ended s) := inferInstanceAs (Decidable (_ ∨ _))

theorem ended_append_iff {s t : List Char} : Ended (s ++ '\n' :: t) ↔ Ended t := by
  cases t with
  | nil => simp [Ended]
  | cons c t => simp [Ended, List.getLast?_append, List.getLast?_cons]

theorem Ended.feed_mem {s : List Char} (hs : Ended s) (hne : s ≠ []) : '\n' ∈ s :=
  List.mem_of_getLast? (hs.resolve_left hne)

theorem lines_append {s : List Char} (hs : Ended s) (t : List Char) :
    lines (s ++ t) = lines s ++ lines t := by
  induction s using linewise with
  | empty => rfl
  | unended line hline hne => exact absurd (hs.feed_mem hne) hline
  | ended line rest hline ih =>
    rw [List.append_assoc, List.cons_append, lines_ended hline, lines_ended hline,
      ih (ended_append_iff.mp hs), List.cons_append]

theorem length_lines (s : List Char) :
    (lines s).length = lineFeeds s + if Ended s then 0 else 1 := by
  induction s using linewise with
  | empty => rfl
  | unended line hline hne =>
    have hopen : ¬ Ended line := fun h => hline (h.feed_mem hne)
    rw [lines_unended hline hne, lineFeeds, List.count_eq_zero.mpr hline, if_neg hopen]
    rfl
  | ended line rest hline ih =>
    have hfeeds : lineFeeds (line ++ '\n' :: rest) = lineFeeds rest + 1 := by
      rw [lineFeeds, List.count_append, List.count_eq_zero.mpr hline, List.count_cons_self,
        Nat.zero_add, lineFeeds]
    rw [lines_ended hline, List.length_cons, ih, hfeeds]
    simp only [ended_append_iff]
    omega

theorem length_lines_le (s : List Char) : (lines s).length ≤ s.length := by
  induction s using linewise with
  | empty => exact Nat.le_refl _
  | unended line hline hne =>
    rw [lines_unended hline hne]
    exact List.length_pos_iff.mpr hne
  | ended line rest hline ih =>
    rw [lines_ended hline, List.length_cons, List.length_append, List.length_cons]
    omega

theorem length_line_le {s line : List Char} (hline : line ∈ lines s) : line.length ≤ s.length := by
  induction s using linewise with
  | empty => exact absurd hline List.not_mem_nil
  | unended only honly hne =>
    rw [lines_unended honly hne, List.mem_singleton] at hline
    exact Nat.le_of_eq (congrArg _ hline)
  | ended first rest hfirst ih =>
    rw [lines_ended hfirst] at hline
    rw [List.length_append, List.length_cons]
    rcases List.mem_cons.mp hline with rfl | hrest
    · obtain ⟨back, -, hcut⟩ := exists_return first
      have hlength := congrArg List.length hcut
      rw [List.length_append] at hlength
      omega
    · have hshorter := ih hrest
      omega

/-! ### What stands in front of a line -/

/-- The text up to its `n`-th line feed, which stands in front of line `n`, counted from 0. -/
def inFront : Nat → List Char → List Char
  | 0, _ => []
  | _ + 1, [] => []
  | n + 1, c :: rest => c :: inFront (if c = '\n' then n else n + 1) rest

theorem inFront_zero (s : List Char) : inFront 0 s = [] := by
  cases s <;> rfl

theorem inFront_ended {line : List Char} (hline : '\n' ∉ line) (n : Nat) (rest : List Char) :
    inFront (n + 1) (line ++ '\n' :: rest) = line ++ '\n' :: inFront n rest := by
  induction line with
  | nil => rw [List.nil_append, inFront, if_pos rfl, List.nil_append]
  | cons c line ih =>
    rw [List.mem_cons, not_or] at hline
    rw [List.cons_append, inFront, if_neg (Ne.symm hline.1), ih hline.2, List.cons_append]

theorem inFront_succ {s : List Char} {n : Nat} {line : List Char}
    (hline : (lines s)[n]? = some line) (hnext : n + 1 < (lines s).length) :
    ∃ back, (back = [] ∨ back = ['\r']) ∧
      inFront (n + 1) s = inFront n s ++ (line ++ (back ++ ['\n'])) := by
  induction s using linewise generalizing n with
  | empty => exact absurd hnext (Nat.not_lt_zero _)
  | unended only honly hne =>
    rw [lines_unended honly hne, List.length_singleton] at hnext
    omega
  | ended first rest hfirst ih =>
    rw [lines_ended hfirst] at hline hnext
    rw [inFront_ended hfirst]
    cases n with
    | zero =>
      obtain ⟨back, hback, hcut⟩ := exists_return first
      obtain rfl : dropReturn first = line := by simpa using hline
      refine ⟨back, hback, ?_⟩
      rw [inFront_zero, inFront_zero, List.nil_append, ← List.append_assoc, ← hcut]
    | succ n =>
      rw [List.getElem?_cons_succ] at hline
      rw [List.length_cons, Nat.add_lt_add_iff_right] at hnext
      obtain ⟨back, hback, hcut⟩ := ih hline hnext
      refine ⟨back, hback, ?_⟩
      rw [inFront_ended hfirst, hcut, List.append_assoc, List.cons_append]

end SourceAudit.Text
