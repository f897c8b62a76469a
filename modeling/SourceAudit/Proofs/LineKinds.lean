/-
  SourceAudit/Proofs/LineKinds.lean
  =================================
  **Every line counts once.**

  Whatever was counted and is awaited, one more line adds one to code, comment or blank lines
  (`LineTally.total_step`), so a run adds the number of its lines (`LineTally.total_run`).

  What a line adds to is its kind, and that depends on the awaited mark only
  (`LineTally.step_eq`): the counts of a run are those of the kinds of its lines
  (`LineTally.of_run`), and the kinds of a longer text begin with those of its first lines
  (`LineKind.ofLines_append`).

  * `LineCount.counts_every_line`: code, comment and blank lines together are the lines of the
    file, and the longest is the length of one of them that no other exceeds.
-/
import SourceAudit.LineCount
import SourceAudit.Rule
import SourceAudit.Proofs.TextLines

namespace SourceAudit

inductive LineKind where
  | code
  | comment
  | blank
deriving DecidableEq, Repr

/-! ### One line more -/

namespace LineCount

/-- Lines of all kinds. -/
def total (c : LineCount) : Nat := c.code + c.comment + c.blank

def add (c : LineCount) : LineKind → LineCount
  | .code => c.addCode
  | .comment => c.addComment
  | .blank => c.addBlank

/-- Lines of one kind. -/
def of (c : LineCount) : LineKind → Nat
  | .code => c.code
  | .comment => c.comment
  | .blank => c.blank

theorem of_add (c : LineCount) (k kind : LineKind) :
    (c.add k).of kind = c.of kind + if k = kind then 1 else 0 := by
  cases k <;> cases kind <;> rfl

theorem total_add (c : LineCount) (kind : LineKind) : (c.add kind).total = c.total + 1 := by
  cases kind <;> simp only [add, addCode, addComment, addBlank, total] <;> omega

theorem longest_add (c : LineCount) (kind : LineKind) : (c.add kind).longest = c.longest := by
  cases kind <;> rfl

theorem eq_of {c d : LineCount} (hof : ∀ kind, c.of kind = d.of kind)
    (hlongest : c.longest = d.longest) : c = d := by
  obtain ⟨code, comment, blank, longest⟩ := c
  rw [LineCount.mk.injEq]
  exact ⟨hof .code, hof .comment, hof .blank, hlongest⟩

/-- The kind of the only line that was counted. -/
def kind (c : LineCount) : LineKind :=
  if c.code = 1 then .code else if c.comment = 1 then .comment else .blank

end LineCount

namespace LineKind

/-- The kind of a line, which is what it adds to, and the mark that is still awaited
    behind it. -/
def step (marks : CommentMarks) (awaited : Option (List Char)) (line : List Char) :
    LineKind × Option (List Char) :=
  let counted := LineTally.step marks ⟨.zero, awaited⟩ line
  (counted.count.kind, counted.awaited)

theorem step_some (marks : CommentMarks) (close line : List Char) :
    step marks (some close) line =
      (.comment, if Text.contains close (Text.trim line) then none else some close) := rfl

theorem step_none (marks : CommentMarks) (line : List Char) : step marks none line =
    if (Text.trim line).isEmpty then (.blank, none)
    else if marks.line.any (·.isPrefixOf (Text.trim line)) then (.comment, none)
    else
      match marks.opened? (Text.trim line) with
      | some (rest, close) => (.comment, if Text.contains close rest then none else some close)
      | none => (.code, none) := by
  rw [step, LineTally.step]
  dsimp only
  split
  · rfl
  · split
    · rfl
    · cases marks.opened? (Text.trim line) <;> rfl

end LineKind

namespace LineTally

/-- A line adds one to the count of its kind, and its kind depends on the awaited mark only. -/
theorem step_eq (marks : CommentMarks) (s : LineTally) (line : List Char) : step marks s line =
    ⟨(s.count.lengthen line.length).add (LineKind.step marks s.awaited line).1,
      (LineKind.step marks s.awaited line).2⟩ := by
  obtain ⟨count, awaited⟩ := s
  cases awaited with
  | some close => rfl
  | none =>
    rw [step, LineKind.step_none]
    dsimp only
    split
    · rfl
    · split
      · rfl
      · cases marks.opened? (Text.trim line) <;> rfl

/-- **One line counts once**, whichever way it goes. -/
theorem total_step (marks : CommentMarks) (s : LineTally) (line : List Char) :
    (step marks s line).count.total = s.count.total + 1 := by
  rw [step_eq]
  exact LineCount.total_add _ _

theorem longest_step (marks : CommentMarks) (s : LineTally) (line : List Char) :
    (step marks s line).count.longest = max s.count.longest line.length := by
  rw [step_eq]
  exact LineCount.longest_add _ _

/-- Some lines add their number. -/
theorem total_run (marks : CommentMarks) (s : LineTally) (lines : List (List Char)) :
    (run marks s lines).count.total = s.count.total + lines.length := by
  induction lines generalizing s with
  | nil => rfl
  | cons line rest ih =>
    rw [run, List.foldl_cons, ← run, ih, total_step, List.length_cons]
    omega

theorem longest_run (marks : CommentMarks) (s : LineTally) (lines : List (List Char)) :
    (run marks s lines).count.longest =
      lines.foldl (fun longest line => max longest line.length) s.count.longest := by
  induction lines generalizing s with
  | nil => rfl
  | cons line rest ih =>
    rw [run, List.foldl_cons, ← run, ih, longest_step, List.foldl_cons]

end LineTally

/-! ### Kinds of lines -/

namespace LineKind

def ofLines (marks : CommentMarks) : Option (List Char) → List (List Char) → List LineKind
  | _, [] => []
  | awaited, line :: rest =>
    (step marks awaited line).1 :: ofLines marks (step marks awaited line).2 rest

/-- The mark that is awaited behind some lines. -/
def awaitedBehind (marks : CommentMarks) (awaited : Option (List Char))
    (lines : List (List Char)) : Option (List Char) :=
  lines.foldl (fun awaited line => (step marks awaited line).2) awaited

theorem awaitedBehind_cons (marks : CommentMarks) (awaited : Option (List Char))
    (line : List Char) (rest : List (List Char)) : awaitedBehind marks awaited (line :: rest) =
      awaitedBehind marks (step marks awaited line).2 rest := rfl

theorem awaitedBehind_concat (marks : CommentMarks) (awaited : Option (List Char))
    (front : List (List Char)) (line : List Char) :
    awaitedBehind marks awaited (front ++ [line]) =
      (step marks (awaitedBehind marks awaited front) line).2 := by
  rw [awaitedBehind, List.foldl_append]
  rfl

theorem length_ofLines (marks : CommentMarks) (awaited : Option (List Char))
    (lines : List (List Char)) : (ofLines marks awaited lines).length = lines.length := by
  induction lines generalizing awaited with
  | nil => rfl
  | cons line rest ih => rw [ofLines, List.length_cons, List.length_cons, ih]

theorem ofLines_append (marks : CommentMarks) (awaited : Option (List Char))
    (front back : List (List Char)) : ofLines marks awaited (front ++ back) =
      ofLines marks awaited front ++ ofLines marks (awaitedBehind marks awaited front) back := by
  induction front generalizing awaited with
  | nil => rfl
  | cons line front ih =>
    rw [List.cons_append, ofLines, ofLines, ih, awaitedBehind_cons, List.cons_append]

/-- The kind of a line depends on the lines in front of it through the awaited mark only. -/
theorem getElem?_ofLines (marks : CommentMarks) (awaited : Option (List Char))
    (lines : List (List Char)) (i : Nat) : (ofLines marks awaited lines)[i]? =
      lines[i]?.map fun line =>
        (step marks (awaitedBehind marks awaited (lines.take i)) line).1 := by
  induction lines generalizing awaited i with
  | nil => rfl
  | cons line rest ih =>
    cases i with
    | zero => rfl
    | succ i =>
      rw [ofLines, List.getElem?_cons_succ, List.getElem?_cons_succ, ih, List.take_succ_cons,
        awaitedBehind_cons]

end LineKind

/-- A run adds the lines of each kind to its count. -/
theorem LineTally.of_run (marks : CommentMarks) (s : LineTally) (lines : List (List Char))
    (kind : LineKind) : (run marks s lines).count.of kind =
      s.count.of kind + (LineKind.ofLines marks s.awaited lines).count kind := by
  induction lines generalizing s with
  | nil => rfl
  | cons line rest ih =>
    rw [run, List.foldl_cons, ← run, ih, step_eq, LineCount.of_add, LineKind.ofLines,
      List.count_cons]
    have hlengthen : (s.count.lengthen line.length).of kind = s.count.of kind := by
      cases kind <;> rfl
    rw [hlengthen]
    simp only [beq_iff_eq]
    omega

/-! ### The longest line -/

namespace LineCount

def longestOf (lines : List (List Char)) : Nat :=
  lines.foldl (fun longest line => max longest line.length) 0

/-- The length of a longest line, or 0 if there is no line. -/
structure IsLongest (lines : List (List Char)) (longest : Nat) : Prop where
  length_le : ∀ line ∈ lines, line.length ≤ longest
  attained : lines = [] ∧ longest = 0 ∨ ∃ line ∈ lines, line.length = longest

/-- Reading on from a length gives that length or one of a line, whichever is greatest. -/
theorem longest_from (lines : List (List Char)) (start : Nat) :
    start ≤ lines.foldl (fun longest line => max longest line.length) start ∧
      (∀ line ∈ lines,
        line.length ≤ lines.foldl (fun longest line => max longest line.length) start) ∧
      (lines.foldl (fun longest line => max longest line.length) start = start ∨
        ∃ line ∈ lines,
          line.length = lines.foldl (fun longest line => max longest line.length) start) := by
  induction lines generalizing start with
  | nil => exact ⟨Nat.le_refl _, List.forall_mem_nil _, .inl rfl⟩
  | cons line rest ih =>
    obtain ⟨hstart, hrest, hattained⟩ := ih (max start line.length)
    rw [List.foldl_cons]
    refine ⟨Nat.le_trans (Nat.le_max_left ..) hstart,
      List.forall_mem_cons.mpr ⟨Nat.le_trans (Nat.le_max_right ..) hstart, hrest⟩, ?_⟩
    rcases hattained with hsame | ⟨other, hother, hlength⟩
    · rw [hsame]
      rcases Nat.le_total line.length start with hle | hle
      · exact .inl (Nat.max_eq_left hle)
      · exact .inr ⟨line, List.mem_cons_self .., (Nat.max_eq_right hle).symm⟩
    · exact .inr ⟨other, List.mem_cons_of_mem _ hother, hlength⟩

theorem isLongest_longestOf (lines : List (List Char)) : IsLongest lines (longestOf lines) := by
  obtain ⟨-, hle, hattained⟩ := longest_from lines 0
  refine ⟨hle, ?_⟩
  cases lines with
  | nil => exact .inl ⟨rfl, rfl⟩
  | cons line rest =>
    rcases hattained with hzero | hline
    · have hempty := hle line (List.mem_cons_self ..)
      rw [hzero] at hempty
      exact .inr ⟨line, List.mem_cons_self .., (Nat.le_zero.mp hempty).trans hzero.symm⟩
    · exact .inr hline

theorem longestOf_le_append (front back : List (List Char)) :
    longestOf front ≤ longestOf (front ++ back) := by
  rw [longestOf, longestOf, List.foldl_append]
  exact (longest_from back _).1

/-! ### Counts of a file -/

/-- The counts are those of the kinds of the lines. -/
theorem ofText_eq (extension : Option String) (text : List Char) :
    let lines := Text.lines text
    let kinds := LineKind.ofLines (CommentMarks.ofExtension? extension) none lines
    ofText extension text =
      ⟨kinds.count .code, kinds.count .comment, kinds.count .blank, longestOf lines⟩ := by
  refine eq_of (fun kind => ?_) (LineTally.longest_run ..)
  rw [ofText, LineTally.of_run]
  cases kind <;> exact Nat.zero_add _

theorem total_ofText (extension : Option String) (text : List Char) :
    (ofText extension text).total = (Text.lines text).length :=
  (LineTally.total_run ..).trans (Nat.zero_add _)

theorem isLongest_ofText (extension : Option String) (text : List Char) :
    IsLongest (Text.lines text) (ofText extension text).longest := by
  rw [ofText, LineTally.longest_run]
  exact isLongest_longestOf _

/-- **Every line counts once.**  Code, comment and blank lines are together the lines of the
    file, which are one for every line feed and one for what stands behind the last; and the
    longest has as many characters as one of them, and none has more. -/
theorem counts_every_line (extension : Option String) (f : FileContext) :
    let text := f.content.toList
    let count := ofText extension text
    count.code + count.comment + count.blank = f.lineCount ∧
      f.lineCount = Text.lineFeeds text + (if Text.Ended text then 0 else 1) ∧
      IsLongest (Text.lines text) count.longest :=
  ⟨total_ofText .., Text.length_lines _, isLongest_ofText ..⟩

end LineCount

end SourceAudit
