/-
  SourceAudit/Proofs/Trimming.lean
  ================================
  **Trimmed lines.**

  Trimming takes the blanks at both ends of a line away.  A word without blanks stands in the
  line where it stands in the trimmed one (`Text.infix_trim_iff`), and a trimmed line begins
  with it when it follows the blanks in front (`Text.prefix_trim_iff`).
-/
import Mathlib.Data.List.Infix
import Mathlib.Data.List.TakeWhile
import SourceAudit.Text.Blank
import SourceAudit.Text.Search

namespace SourceAudit.Text

theorem contains_iff {needle s : List Char} : contains needle s = true ↔ needle <:+: s := by
  induction s with
  | nil => rw [contains, List.isEmpty_iff, List.infix_nil]
  | cons c rest ih =>
    rw [contains, Bool.or_eq_true, List.isPrefixOf_iff_prefix, ih, List.infix_cons_iff]

theorem visible_of_all {word : List Char} (hword : word.all (fun c => !isBlank c) = true) :
    ∀ c ∈ word, isBlank c = false := by
  intro c hc
  rw [← Bool.not_eq_true']
  exact List.all_eq_true.mp hword c hc

theorem trimEnd_starts (s : List Char) : trimEnd s <+: s := by
  rw [trimEnd, ← List.reverse_suffix, List.reverse_reverse]
  exact List.dropWhile_suffix _

section

variable {word : List Char} (hword : ∀ c ∈ word, isBlank c = false)

include hword

theorem infix_dropWhile_iff (s : List Char) : word <:+: s.dropWhile isBlank ↔ word <:+: s := by
  induction s with
  | nil => rfl
  | cons c rest ih =>
    rw [List.dropWhile_cons]
    split
    · next hblank =>
      rw [ih, List.infix_cons_iff]
      refine ⟨.inr, fun h => h.elim (fun hstart => ?_) id⟩
      -- a word that begins with a blank is the empty one
      cases word with
      | nil => exact List.nil_infix
      | cons d more =>
        obtain rfl := (List.cons_prefix_cons.mp hstart).1
        exact nomatch (hword d (List.mem_cons_self ..)).symm.trans hblank
    · rfl

theorem infix_trimEnd_iff (s : List Char) : word <:+: trimEnd s ↔ word <:+: s := by
  rw [trimEnd, ← List.reverse_infix, List.reverse_reverse, infix_dropWhile_iff, List.reverse_infix]
  exact fun c hc => hword c (List.mem_reverse.mp hc)

theorem infix_trim_iff (s : List Char) : word <:+: trim s ↔ word <:+: s := by
  rw [trim, infix_trimEnd_iff hword, trimStart, infix_dropWhile_iff hword]

theorem trimEnd_append (s : List Char) : trimEnd (word ++ s) = word ++ trimEnd s := by
  have hkept : word.reverse.dropWhile isBlank = word.reverse := by
    refine List.dropWhile_eq_self_iff.mpr fun hpos => ?_
    rw [hword _ (List.mem_reverse.mp (List.getElem_mem hpos))]
    exact Bool.false_ne_true
  rw [trimEnd, List.reverse_append, List.dropWhile_append, hkept, trimEnd]
  split
  · next hempty => rw [List.isEmpty_iff.mp hempty, List.reverse_reverse, List.reverse_nil,
      List.append_nil]
  · rw [List.reverse_append, List.reverse_reverse]

/-- What a line begins with behind its blanks, it begins with when it is trimmed. -/
theorem trim_eq_append_iff {s rest : List Char} : trim s = word ++ rest ↔
    ∃ untrimmed, trimStart s = word ++ untrimmed ∧ rest = trimEnd untrimmed := by
  constructor
  · intro hs
    have hstart : word <+: trim s := ⟨rest, hs.symm⟩
    obtain ⟨untrimmed, hs'⟩ := hstart.trans (trimEnd_starts _)
    rw [trim, ← hs', trimEnd_append hword, List.append_cancel_left_eq] at hs
    exact ⟨untrimmed, hs'.symm, hs.symm⟩
  · rintro ⟨untrimmed, hs, rfl⟩
    rw [trim, hs, trimEnd_append hword]

theorem prefix_trim_iff (s : List Char) : word <+: trim s ↔ word <+: trimStart s := by
  constructor
  · rintro ⟨rest, hs⟩
    obtain ⟨untrimmed, hs, -⟩ := (trim_eq_append_iff hword).mp hs.symm
    exact ⟨untrimmed, hs.symm⟩
  · rintro ⟨untrimmed, hs⟩
    exact ⟨_, ((trim_eq_append_iff hword).mpr ⟨untrimmed, hs.symm, rfl⟩).symm⟩

end

theorem trimStart_append {front : List Char} (hfront : ∀ c ∈ front, isBlank c = true)
    (rest : List Char) : trimStart (front ++ rest) = trimStart rest :=
  List.dropWhile_append_of_pos hfront

/-- A line is what stands behind its blanks, and those in front. -/
theorem exists_blanks (s : List Char) :
    ∃ front, (∀ c ∈ front, isBlank c = true) ∧ s = front ++ trimStart s :=
  ⟨s.takeWhile isBlank, fun _ hc => List.mem_takeWhile_imp hc, List.takeWhile_append_dropWhile.symm⟩

end SourceAudit.Text
