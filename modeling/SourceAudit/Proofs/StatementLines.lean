/-
  SourceAudit/Proofs/StatementLines.lean
  ======================================
  **Statements and their lines.**

  A statement starts a line, and the closing quote of the one before it stands on an earlier
  line (`Directive.scan_apart`).  So the statements of a text are found in the order of their
  lines, and no two of them name the same line (`Directive.importsOf_increasing`): an import is
  known by its line in a file.
-/
import SourceAudit.Proofs.Statements

namespace SourceAudit.Directive

variable {dialect : Dialect} {skip line : Nat} {fresh : Bool}

/-! ### What one statement takes up -/

theorem ne_newline_of_isQuote {c : Char} (h : isQuote c = true) : c ≠ '\n' := by
  rintro rfl
  cases h

/-- A statement is what stands before its URI, the URI and a quote. -/
theorem readStatement?_eq_some {s : List Char} {r : Reading}
    (h : readStatement? dialect s = some r) : r.before ≠ [] ∧
      ∃ close tail, isQuote close = true ∧ s = r.before ++ r.uri ++ close :: tail := by
  obtain ⟨u, hwritten, tail, rfl⟩ := readStatement?_eq_some_iff.mp h
  obtain ⟨close, hclose, hu, -⟩ := hwritten.exists_close
  refine ⟨hwritten.before_ne_nil, close, tail, hclose, ?_⟩
  rw [hu, List.append_assoc, List.singleton_append]

/-! ### Lines while scanning -/

/-- The line behind a character. -/
theorem le_next (line : Nat) (c : Char) : line ≤ if c = '\n' then line + 1 else line := by
  split
  · exact Nat.le_succ line
  · exact Nat.le_refl line

theorem next_add_count (line : Nat) (c : Char) (s : List Char) :
    (if c = '\n' then line + 1 else line) + s.count '\n' = line + (c :: s).count '\n' := by
  rw [List.count_cons]
  by_cases hc : c = '\n'
  · rw [if_pos hc, if_pos (beq_iff_eq.mpr hc), Nat.add_assoc, Nat.add_comm 1]
  · rw [if_neg hc, if_neg (by simpa using hc), Nat.add_zero]

theorem line_le_of_mem_scan {s : List Char} {d : Directive}
    (hd : d ∈ scan dialect skip line fresh s) : line ≤ d.line := by
  induction s generalizing skip line fresh with
  | nil =>
    rw [scan] at hd
    cases hd
  | cons c rest ih =>
    have hbehind {skip : Nat} {fresh : Bool}
        (hd : d ∈ scan dialect skip (if c = '\n' then line + 1 else line) fresh rest) :
        line ≤ d.line := Nat.le_trans (le_next line c) (ih hd)
    cases skip with
    | succ skip =>
      rw [scan] at hd
      exact hbehind hd
    | zero =>
      rw [scan] at hd
      split at hd
      · rcases List.mem_cons.mp hd with rfl | hd
        · exact Nat.le_add_right ..
        · exact hbehind hd
      · exact hbehind hd

/-- Inside a line no statement starts before the next one. -/
theorem line_lt_of_mem_scan {s : List Char} {d : Directive}
    (hd : d ∈ scan dialect 0 line false s) : line < d.line := by
  induction s with
  | nil =>
    rw [scan] at hd
    cases hd
  | cons c rest ih =>
    simp only [scan, Bool.false_eq_true, if_false] at hd
    by_cases hc : c = '\n'
    · rw [if_pos hc] at hd
      exact line_le_of_mem_scan hd
    · rw [if_neg hc, decide_eq_false hc] at hd
      exact ih hd

/-- Behind what is passed over the scan goes on, inside the line it ends in. -/
theorem scan_passed (front tail : List Char) {close : Char} (hclose : close ≠ '\n') :
    scan dialect (front.length + 1) line fresh (front ++ close :: tail) =
      scan dialect 0 (line + front.count '\n') false tail := by
  induction front generalizing line fresh with
  | nil => simp [scan, hclose]
  | cons c front ih =>
    rw [List.length_cons, List.cons_append, scan, ih, next_add_count]

/-- Behind a statement the scan goes on in the line of its closing quote. -/
theorem scan_behind (line : Nat) (fresh : Bool) {c : Char} {rest : List Char} {r : Reading}
    (hread : readStatement? dialect (c :: rest) = some r) :
    ∃ close tail, isQuote close = true ∧ c :: rest = r.before ++ r.uri ++ close :: tail ∧
      scan dialect (r.length - 1) (if c = '\n' then line + 1 else line) fresh rest =
        scan dialect 0 (line + (r.before ++ r.uri).count '\n') false tail := by
  obtain ⟨hbefore, close, tail, hclose, htext⟩ := readStatement?_eq_some hread
  refine ⟨close, tail, hclose, htext, ?_⟩
  obtain ⟨first, more, hmore⟩ := List.exists_cons_of_ne_nil hbefore
  rw [hmore, List.cons_append, List.cons_append, List.cons.injEq] at htext
  obtain ⟨rfl, hrest⟩ := htext
  have hlength : r.length - 1 = (more ++ r.uri).length + 1 := by
    simp [Reading.length, hmore]
    omega
  -- the closing quote ends the part that is passed over, so the scan is inside a line there
  rw [hlength, hrest, scan_passed _ _ (ne_newline_of_isQuote hclose), hmore, List.cons_append,
    next_add_count]

/-- Line of the closing quote of a statement. -/
def lastLine (d : Directive) : Nat := d.line + d.uri.toList.count '\n'

/-- What follows a statement stands below its closing quote. -/
theorem lastLine_lt_of_mem_behind {c : Char} {rest : List Char} {r : Reading} {d : Directive}
    (hread : readStatement? dialect (c :: rest) = some r)
    (hd : d ∈ scan dialect (r.length - 1) (if c = '\n' then line + 1 else line) fresh rest) :
    lastLine ⟨r.kind, String.ofList r.uri, line + r.before.count '\n'⟩ < d.line := by
  obtain ⟨close, tail, -, -, hscan⟩ := scan_behind line fresh hread
  rw [hscan] at hd
  have hline := line_lt_of_mem_scan hd
  rw [List.count_append, ← Nat.add_assoc] at hline
  rw [lastLine, String.toList_ofList]
  exact hline

/-- The closing quote of a statement stands above the statements behind it. -/
theorem scan_apart (s : List Char) :
    (scan dialect skip line fresh s).Pairwise fun d e => d.lastLine < e.line := by
  induction s generalizing skip line fresh with
  | nil =>
    rw [scan]
    exact .nil
  | cons c rest ih =>
    cases skip with
    | succ skip =>
      rw [scan]
      exact ih
    | zero =>
      rw [scan]
      split
      next r hread =>
        have hstatement : readStatement? dialect (c :: rest) = some r := by
          cases fresh with
          | false => cases hread
          | true => exact hread
        exact List.pairwise_cons.mpr ⟨fun d hd => lastLine_lt_of_mem_behind hstatement hd, ih⟩
      · exact ih

/-- Every statement is told with a line of its own, the first one first. -/
theorem scan_increasing (s : List Char) :
    (scan dialect skip line fresh s).Pairwise fun d e => d.line < e.line :=
  (scan_apart s).imp (Nat.lt_of_le_of_lt (Nat.le_add_right ..))

/-- **Imports are known by their lines.** -/
theorem importsOf_increasing (p : Path) (s : List Char) :
    (importsOf p s).Pairwise fun d e => d.line < e.line :=
  (scan_increasing s).filter _

end SourceAudit.Directive
