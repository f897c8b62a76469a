/-
  SourceAudit/Text/Search.lean
  ============================
  **Searching and cutting texts.**

  The few operations on character lists that several parts of the library share:
  where one text occurs in another, what is left after a known beginning, and the
  segments between separators.
-/

namespace SourceAudit.Text

def contains (needle : List Char) : List Char → Bool
  | [] => needle.isEmpty
  | c :: rest => needle.isPrefixOf (c :: rest) || contains needle rest

/-- What follows `start`, when the text begins with it. -/
def afterStart? : (start text : List Char) → Option (List Char)
  | [], text => some text
  | _ :: _, [] => none
  | s :: start, c :: text => if s = c then afterStart? start text else none

theorem afterStart?_eq_some_iff {start text rest : List Char} :
    afterStart? start text = some rest ↔ text = start ++ rest := by
  induction start generalizing text with
  | nil => simp [afterStart?]
  | cons s start ih =>
    cases text with
    | nil => simp [afterStart?]
    | cons c text =>
      by_cases hsame : s = c
      · simp [afterStart?, hsame, ih]
      · simp [afterStart?, hsame, Ne.symm hsame]

/-- The segments between the occurrences of `separator`; there is always one. -/
def segments (separator : Char) : List Char → List (List Char)
  | [] => [[]]
  | c :: rest =>
    match segments separator rest with
    | [] => [[c]]
    | segment :: more =>
      if c = separator then [] :: segment :: more else (c :: segment) :: more

theorem segments_ne_nil (separator : Char) (s : List Char) : segments separator s ≠ [] := by
  cases s with
  | nil => simp [segments]
  | cons c rest =>
    rw [segments]
    split
    · simp
    · split <;> simp

theorem segments_of_not_mem {separator : Char} {s : List Char} (h : separator ∉ s) :
    segments separator s = [s] := by
  induction s with
  | nil => rfl
  | cons c rest ih =>
    rw [List.mem_cons, not_or] at h
    simp [segments, ih h.2, Ne.symm h.1]

/-- A separator cuts the segments in two. -/
theorem segments_append (separator : Char) (s t : List Char) :
    segments separator (s ++ separator :: t) = segments separator s ++ segments separator t := by
  induction s with
  | nil =>
    obtain ⟨segment, more, ht⟩ := List.exists_cons_of_ne_nil (segments_ne_nil separator t)
    simp [segments, ht]
  | cons c rest ih =>
    obtain ⟨segment, more, hrest⟩ := List.exists_cons_of_ne_nil (segments_ne_nil separator rest)
    rw [List.cons_append, segments, ih, segments, hrest]
    simp only [List.cons_append]
    split <;> rfl

theorem not_mem_of_mem_segments {separator : Char} {s segment : List Char}
    (h : segment ∈ segments separator s) : separator ∉ segment := by
  induction s generalizing segment with
  | nil =>
    obtain rfl : segment = [] := by simpa [segments] using h
    simp
  | cons c rest ih =>
    obtain ⟨first, more, hrest⟩ := List.exists_cons_of_ne_nil (segments_ne_nil separator rest)
    simp only [segments, hrest] at h ih
    split at h
    · rcases List.mem_cons.mp h with rfl | hmore
      · simp
      · exact ih hmore
    · next hc =>
      rcases List.mem_cons.mp h with rfl | hmore
      · have hfirst := ih (List.mem_cons_self ..)
        simp [hfirst, Ne.symm hc]
      · exact ih (List.mem_cons_of_mem _ hmore)

/-- The text after the last `separator`, or the whole text without one. -/
def lastSegment (separator : Char) (s : List Char) : List Char :=
  (segments separator s).getLastD []

def forwardSlashes (s : List Char) : List Char :=
  s.map fun c => if c = '\\' then '/' else c

def joined (separator : String) (texts : List String) : String :=
  String.intercalate separator texts

/-- ASCII letters in lower case, everything else as it is. -/
def lowerAscii (s : List Char) : List Char :=
  s.map Char.toLower

end SourceAudit.Text
