/-
  SourceAudit/Proofs/CommaSeparated.lean
  ======================================
  **Comma-separated values can be read back.**

  The format (RFC 4180) is given twice: as a grammar that says which text stands for
  which records, and as a reader that goes over a text once.  The two agree:

    * what the reader finds is derived by the grammar      — `reads_of_readFrom?`;
    * what the grammar derives is found by the reader      — `readFrom?_of_tail`;
    * so a text stands for at most one list of records     — `readChars?_eq_some_iff`.

  The export of violations stands for the header and one record of five fields for each
  violation (`read?_ofViolations`), whatever quotes, commas and line ends their texts hold.
-/
import SourceAudit.Report.Csv

namespace SourceAudit.Csv

/-! ### The grammar -/

abbrev Fields := List (List Char)

/-- A character that may stand in a field without quotes. -/
def IsPlain (c : Char) : Prop := c ≠ ',' ∧ c ≠ '"' ∧ c ≠ '\r' ∧ c ≠ '\n'

instance (c : Char) : Decidable (IsPlain c) := inferInstanceAs (Decidable (_ ∧ _))

/-- The text between quotes and what it stands for. -/
inductive Quoted : (text value : List Char) → Prop where
  | nil : Quoted [] []
  | quote {t v : List Char} (rest : Quoted t v) : Quoted ('"' :: '"' :: t) ('"' :: v)
  | other {c : Char} {t v : List Char} (hc : c ≠ '"') (rest : Quoted t v) :
      Quoted (c :: t) (c :: v)

inductive Field : (text value : List Char) → Prop where
  | bare {v : List Char} (hplain : ∀ c ∈ v, IsPlain c) : Field v v
  | quoted {t v : List Char} (body : Quoted t v) : Field ('"' :: t ++ ['"']) v

/-- One or more fields with commas between them. -/
inductive Record : (text : List Char) → (fields : Fields) → Prop where
  | last {t v : List Char} (field : Field t v) : Record t [v]
  | comma {t v rest : List Char} {fields : Fields} (field : Field t v)
      (more : Record rest fields) : Record (t ++ ',' :: rest) (v :: fields)

/-- Records that end in a carriage return and a line feed, which the last one may lack. -/
inductive Document : (text : List Char) → (records : List Fields) → Prop where
  | nothing : Document [] []
  | unended {t : List Char} {fields : Fields} (record : Record t fields) (hne : t ≠ []) :
      Document t [fields]
  | ended {t rest : List Char} {fields : Fields} {records : List Fields}
      (record : Record t fields) (more : Document rest records) :
      Document (t ++ '\r' :: '\n' :: rest) (fields :: records)

/-! ### The reader -/

/-- Where the reader stands in a field. -/
inductive Place where
  | start       -- nothing of it is read
  | bare        -- inside, without quotes
  | quoted      -- inside, between quotes
  | closed      -- behind the closing quote
deriving DecidableEq, Repr

/-- What is still to come: the rest of a field, the further fields of its record, and the
    further records. -/
structure Remainder where
  value : List Char
  fields : Fields
  records : List Fields
deriving DecidableEq, Repr

namespace Remainder

def ofEnd : Remainder := ⟨[], [], []⟩

def push (text : List Char) (r : Remainder) : Remainder := { r with value := text ++ r.value }

def asField (r : Remainder) : Remainder := ⟨[], r.value :: r.fields, r.records⟩

/-- All that is to come, from the start of a record on. -/
def all (r : Remainder) : List Fields := (r.value :: r.fields) :: r.records

def asRecord (r : Remainder) : Remainder := ⟨[], [], r.all⟩

end Remainder

def readFrom? : Place → List Char → Option Remainder
  | .quoted, [] => none
  | _, [] => some .ofEnd
  | .quoted, '"' :: '"' :: t => (readFrom? .quoted t).map (·.push ['"'])
  | .quoted, '"' :: t => readFrom? .closed t
  | .quoted, c :: t => (readFrom? .quoted t).map (·.push [c])
  | .start, '"' :: t => readFrom? .quoted t
  | _, ',' :: t => (readFrom? .start t).map (·.asField)
  | _, ['\r', '\n'] => some .ofEnd
  | _, '\r' :: '\n' :: t => (readFrom? .start t).map (·.asRecord)
  | .closed, _ :: _ => none
  | _, c :: t => if IsPlain c then (readFrom? .bare t).map (·.push [c]) else none

def readChars? : List Char → Option (List Fields)
  | [] => some []
  | c :: t => (readFrom? .start (c :: t)).map (·.all)

/-- The records of a text, if it is one of comma-separated values. -/
def read? (s : String) : Option (List (List String)) :=
  (readChars? s.toList).map fun records => records.map fun fields => fields.map String.ofList

/-! ### What the reader makes of a field -/

/-- What may follow a complete field, and what it stands for. -/
inductive Tail : (text : List Char) → (fields : Fields) → (records : List Fields) → Prop where
  | done : Tail [] [] []
  | ended : Tail ['\r', '\n'] [] []
  | comma {t v u : List Char} {fields : Fields} {records : List Fields} (field : Field t v)
      (tail : Tail u fields records) : Tail (',' :: (t ++ u)) (v :: fields) records
  | next {t v u : List Char} {fields : Fields} {records : List Fields} (field : Field t v)
      (tail : Tail u fields records) (hne : t ++ u ≠ []) :
      Tail ('\r' :: '\n' :: (t ++ u)) [] ((v :: fields) :: records)

/-- The text that a reader at a place should take for `r`. -/
def Reads (s : List Char) (r : Remainder) : Place → Prop
  | .start => ∃ t u, s = t ++ u ∧ Field t r.value ∧ Tail u r.fields r.records
  | .bare => ∃ u, s = r.value ++ u ∧ (∀ c ∈ r.value, IsPlain c) ∧ Tail u r.fields r.records
  | .quoted => ∃ t u, s = t ++ '"' :: u ∧ Quoted t r.value ∧ Tail u r.fields r.records
  | .closed => r.value = [] ∧ Tail s r.fields r.records

/-- Outside quotes a field may end at any place. -/
theorem reads_of_tail {p : Place} (hp : p ≠ .quoted) {u : List Char} {fields : Fields}
    {records : List Fields} (tail : Tail u fields records) : Reads u ⟨[], fields, records⟩ p := by
  cases p with
  | start => exact ⟨[], u, rfl, .bare (by simp), tail⟩
  | bare => exact ⟨u, rfl, by simp, tail⟩
  | quoted => exact absurd rfl hp
  | closed => exact ⟨rfl, tail⟩

theorem reads_of_readFrom? {p : Place} {s : List Char} {r : Remainder}
    (h : readFrom? p s = some r) : Reads s r p := by
  fun_induction readFrom? p s generalizing r with
  | case1 => cases h
  | case2 p hp =>
    obtain rfl := Option.some.inj h
    exact reads_of_tail hp .done
  | case3 t ih =>
    obtain ⟨r, hr, rfl⟩ := Option.map_eq_some_iff.mp h
    obtain ⟨t, u, rfl, body, tail⟩ := ih hr
    exact ⟨'"' :: '"' :: t, u, rfl, .quote body, tail⟩
  | case4 t hlast ih =>
    obtain ⟨hempty, tail⟩ := ih h
    refine ⟨[], t, rfl, ?_, tail⟩
    rw [hempty]
    exact .nil
  | case5 c t _ hc ih =>
    obtain ⟨r, hr, rfl⟩ := Option.map_eq_some_iff.mp h
    obtain ⟨t, u, rfl, body, tail⟩ := ih hr
    exact ⟨c :: t, u, rfl, .other hc body, tail⟩
  | case6 t ih =>
    obtain ⟨t, u, rfl, body, tail⟩ := ih h
    exact ⟨'"' :: t ++ ['"'], u, by simp, .quoted body, tail⟩
  | case7 p t hp ih =>
    obtain ⟨r, hr, rfl⟩ := Option.map_eq_some_iff.mp h
    obtain ⟨t, u, rfl, field, tail⟩ := ih hr
    exact reads_of_tail hp (.comma field tail)
  | case8 p hp =>
    obtain rfl := Option.some.inj h
    exact reads_of_tail hp .ended
  | case9 p t hp hne ih =>
    obtain ⟨r, hr, rfl⟩ := Option.map_eq_some_iff.mp h
    obtain ⟨t, u, rfl, field, tail⟩ := ih hr
    exact reads_of_tail hp (.next field tail hne)
  | case10 => cases h
  | case11 p c t _ _ hquoted _ _ _ _ hclosed hplain ih =>
    obtain ⟨r, hr, rfl⟩ := Option.map_eq_some_iff.mp h
    obtain ⟨u, rfl, hall, tail⟩ := ih hr
    have hvalue : ∀ d ∈ c :: r.value, IsPlain d := List.forall_mem_cons.mpr ⟨hplain, hall⟩
    cases p with
    | start => exact ⟨c :: r.value, u, rfl, .bare hvalue, tail⟩
    | bare => exact ⟨u, rfl, hvalue, tail⟩
    | quoted => exact absurd rfl hquoted
    | closed => exact absurd rfl hclosed
  | case12 => cases h

theorem Tail.head?_ne_quote {u : List Char} {fields : Fields} {records : List Fields}
    (tail : Tail u fields records) : u.head? ≠ some '"' := by
  cases tail <;> simp

/-! ### One step of the reader -/

theorem readFrom?_close {u : List Char} (hu : u.head? ≠ some '"') :
    readFrom? .quoted ('"' :: u) = readFrom? .closed u := by
  rw [readFrom?]
  rintro t rfl
  exact hu rfl

theorem readFrom?_inside {c : Char} (hc : c ≠ '"') (t : List Char) :
    readFrom? .quoted (c :: t) = (readFrom? .quoted t).map (·.push [c]) := by
  rw [readFrom?]
  · rintro t rfl
    exact absurd rfl hc
  · exact hc

theorem readFrom?_plain {p : Place} (hp : p = .start ∨ p = .bare) {c : Char} (hc : IsPlain c)
    (t : List Char) : readFrom? p (c :: t) = (readFrom? .bare t).map (·.push [c]) := by
  have hspecial := hc
  obtain ⟨hcomma, hquote, hreturn, -⟩ := hspecial
  rcases hp with rfl | rfl <;> simp [readFrom?, hquote, hreturn, hc]

theorem readFrom?_comma {p : Place} (hp : p ≠ .quoted) (t : List Char) :
    readFrom? p (',' :: t) = (readFrom? .start t).map (·.asField) := by
  cases p <;> simp_all [readFrom?]

theorem readFrom?_lineEnd {p : Place} (hp : p ≠ .quoted) {t : List Char} (ht : t ≠ []) :
    readFrom? p ('\r' :: '\n' :: t) = (readFrom? .start t).map (·.asRecord) := by
  obtain ⟨c, t, rfl⟩ := List.exists_cons_of_ne_nil ht
  cases p <;> simp_all [readFrom?]

theorem readFrom?_quoted {t v u : List Char} (body : Quoted t v) (hu : u.head? ≠ some '"') :
    readFrom? .quoted (t ++ '"' :: u) = (readFrom? .closed u).map (·.push v) := by
  induction body with
  | nil => simp [readFrom?_close hu, Remainder.push]
  | quote rest ih =>
    simp only [List.cons_append, readFrom?, ih, Option.map_map]
    rfl
  | other hc rest ih =>
    rw [List.cons_append, readFrom?_inside hc, ih, Option.map_map]
    rfl

theorem readFrom?_bare {p : Place} (hp : p = .start ∨ p = .bare) {v : List Char} (hv : v ≠ [])
    (hplain : ∀ c ∈ v, IsPlain c) (u : List Char) :
    readFrom? p (v ++ u) = (readFrom? .bare u).map (·.push v) := by
  induction v generalizing p with
  | nil => exact absurd rfl hv
  | cons c v ih =>
    obtain ⟨hc, hv⟩ := List.forall_mem_cons.mp hplain
    rw [List.cons_append, readFrom?_plain hp hc]
    cases v with
    | nil => rfl
    | cons d v =>
      rw [ih (.inr rfl) (by simp) hv, Option.map_map]
      rfl

/-- A field in front of text that is read alike at every place outside quotes. -/
theorem readFrom?_field {t v u : List Char} {fields : Fields} {records : List Fields}
    (field : Field t v) (hu : u.head? ≠ some '"')
    (hread : ∀ p, p ≠ .quoted → readFrom? p u = some ⟨[], fields, records⟩) :
    readFrom? .start (t ++ u) = some ⟨v, fields, records⟩ := by
  cases field with
  | bare hplain =>
    by_cases hne : t = []
    · rw [hne]
      exact hread .start (by simp)
    · rw [readFrom?_bare (.inl rfl) hne hplain, hread .bare (by simp)]
      simp [Remainder.push]
  | @quoted t _ body =>
    have htext : '"' :: t ++ ['"'] ++ u = '"' :: (t ++ '"' :: u) := by simp
    rw [htext, readFrom?, readFrom?_quoted body hu, hread .closed (by simp)]
    simp [Remainder.push]

theorem readFrom?_of_tail {u : List Char} {fields : Fields} {records : List Fields}
    (tail : Tail u fields records) {p : Place} (hp : p ≠ .quoted) :
    readFrom? p u = some ⟨[], fields, records⟩ := by
  induction tail generalizing p with
  | done =>
    cases p with
    | quoted => exact absurd rfl hp
    | start | bare | closed => rfl
  | ended =>
    cases p with
    | quoted => exact absurd rfl hp
    | start | bare | closed => rfl
  | comma field tail ih =>
    rw [readFrom?_comma hp, readFrom?_field field tail.head?_ne_quote fun p hp => ih hp]
    rfl
  | next field tail hne ih =>
    rw [readFrom?_lineEnd hp hne, readFrom?_field field tail.head?_ne_quote fun p hp => ih hp]
    rfl

/-! ### The reader and the grammar -/

/-- A record begins with a field, and the rest of it follows that field. -/
theorem Record.tail {s u : List Char} {all : Fields} {records : List Fields}
    (record : Record s all) (tail : Tail u [] records) :
    ∃ t w v fields, s = t ++ w ∧ all = v :: fields ∧ Field t v ∧ Tail (w ++ u) fields records := by
  induction record with
  | @last t v field => exact ⟨t, [], v, [], by simp, rfl, field, tail⟩
  | @comma t v _ _ field _ ih =>
    obtain ⟨t', w, v', fields, rfl, rfl, field', tail'⟩ := ih
    refine ⟨t, ',' :: (t' ++ w), v, v' :: fields, by simp, rfl, field, ?_⟩
    simpa using Tail.comma field' tail'

theorem Document.eq_nil {s : List Char} {records : List Fields} (document : Document s records)
    (hempty : s = []) : records = [] := by
  cases document with
  | nothing => rfl
  | unended _ hne => exact absurd hempty hne
  | ended => simp at hempty

theorem Document.tail {s : List Char} {all : List Fields} (document : Document s all)
    (hne : s ≠ []) :
    ∃ t u v fields records, s = t ++ u ∧ all = (v :: fields) :: records ∧ Field t v ∧
      Tail u fields records := by
  induction document with
  | nothing => exact absurd rfl hne
  | unended record =>
    obtain ⟨t, w, v, fields, rfl, rfl, field, tail⟩ := record.tail .done
    exact ⟨t, w ++ [], v, fields, [], by simp, rfl, field, tail⟩
  | @ended _ rest _ records record more ih =>
    have htail : Tail ('\r' :: '\n' :: rest) [] records := by
      cases rest with
      | nil =>
        obtain rfl := more.eq_nil rfl
        exact .ended
      | cons c rest =>
        obtain ⟨t, u, v, fields, records, htext, rfl, field, tail⟩ := ih (by simp)
        rw [htext]
        exact .next field tail (by simp [← htext])
    obtain ⟨t, w, v, fields, rfl, rfl, field, tail⟩ := record.tail htail
    exact ⟨t, w ++ '\r' :: '\n' :: rest, v, fields, records, by simp, rfl, field, tail⟩

/-- A tail is the rest of a record, and then the end or a line end with further records. -/
def Tail.Split (u : List Char) (fields : Fields) (records : List Fields) : Prop :=
  ∃ w rest, u = w ++ rest ∧ (∀ {t v}, Field t v → Record (t ++ w) (v :: fields)) ∧
    ((rest = [] ∧ records = []) ∨
      ∃ more, rest = '\r' :: '\n' :: more ∧ Document more records)

theorem Tail.Split.document {t v u : List Char} {fields : Fields} {records : List Fields}
    (split : Tail.Split u fields records) (field : Field t v) (hne : t ++ u ≠ []) :
    Document (t ++ u) ((v :: fields) :: records) := by
  obtain ⟨w, rest, rfl, record, ⟨rfl, rfl⟩ | ⟨more, rfl, document⟩⟩ := split
  · rw [List.append_nil] at hne ⊢
    exact .unended (record field) hne
  · rw [← List.append_assoc]
    exact .ended (record field) document

theorem Tail.split {u : List Char} {fields : Fields} {records : List Fields}
    (tail : Tail u fields records) : Tail.Split u fields records := by
  induction tail with
  | done => exact ⟨[], [], rfl, fun field => by simpa using .last field, .inl ⟨rfl, rfl⟩⟩
  | ended =>
    exact ⟨[], _, rfl, fun field => by simpa using .last field, .inr ⟨[], rfl, .nothing⟩⟩
  | next field _ hne ih =>
    exact ⟨[], _, rfl, fun field => by simpa using .last field,
      .inr ⟨_, rfl, ih.document field hne⟩⟩
  | @comma t' v' _ _ _ field _ ih =>
    obtain ⟨w, rest, rfl, record, hrest⟩ := ih
    refine ⟨',' :: (t' ++ w), rest, by simp, fun first => ?_, hrest⟩
    exact .comma first (record field)

/-- The reader accepts exactly what the grammar derives. -/
theorem readChars?_eq_some_iff {s : List Char} {records : List Fields} :
    readChars? s = some records ↔ Document s records := by
  constructor
  · intro h
    cases s with
    | nil =>
      obtain rfl := Option.some.inj h
      exact .nothing
    | cons c s =>
      obtain ⟨r, hr, rfl⟩ := Option.map_eq_some_iff.mp h
      obtain ⟨t, u, htext, field, tail⟩ := reads_of_readFrom? hr
      rw [htext]
      exact tail.split.document field (by simp [← htext])
  · intro document
    cases s with
    | nil =>
      obtain rfl := document.eq_nil rfl
      rfl
    | cons c s =>
      obtain ⟨t, u, v, fields, records, htext, rfl, field, tail⟩ := document.tail (by simp)
      rw [readChars?, htext,
        readFrom?_field field tail.head?_ne_quote fun p hp => readFrom?_of_tail tail hp]
      rfl

/-- A quote inside quotes is written twice, and none stands in a bare field. -/
example : read? "a,\"b\"\"c\"\r\n,\r\n" = some [["a", "b\"c"], ["", ""]] ∧ read? "a\"b" = none := by
  decide +kernel

/-! ### The export -/

theorem quoted_doubled (s : List Char) : Quoted (doubled s) s := by
  induction s with
  | nil => exact .nil
  | cons c rest ih =>
    rw [doubled]
    split
    · next hc =>
      rw [hc]
      exact .quote ih
    · next hc => exact .other hc ih

/-- A written field stands for its value. -/
theorem field_written (s : List Char) : Field (field s) s := by
  rw [field]
  split
  · exact .quoted (quoted_doubled s)
  · next hnone =>
    refine .bare fun c hc => ?_
    have hc : needsQuotes c = false := by
      rw [Bool.not_eq_true, List.any_eq_false] at hnone
      simpa using hnone c hc
    simp only [needsQuotes, Bool.or_eq_false_iff, decide_eq_false_iff_not] at hc
    exact ⟨hc.1.1.1, hc.1.1.2, hc.2, hc.1.2⟩

theorem record_written {fields : Fields} (hne : fields ≠ []) :
    Record (commaSeparated fields) fields := by
  induction fields with
  | nil => exact absurd rfl hne
  | cons first more ih =>
    cases more with
    | nil => exact .last (field_written first)
    | cons second more => exact .comma (field_written first) (ih (by simp))

theorem document_written {records : List Fields} (hne : ∀ fields ∈ records, fields ≠ []) :
    Document (records.flatMap row) records := by
  induction records with
  | nil => exact .nothing
  | cons fields records ih =>
    obtain ⟨hfields, hrecords⟩ := List.forall_mem_cons.mp hne
    have htext : (fields :: records).flatMap row =
        commaSeparated fields ++ '\r' :: '\n' :: records.flatMap row := by
      simp [row]
    rw [htext]
    exact .ended (record_written hfields) (ih hrecords)

end SourceAudit.Csv

namespace SourceAudit.Binary64

theorem Decimal.positional_ne_nil (mark : String) (d : Decimal) : d.positional mark ≠ [] := by
  have hdigits : digitsOf d.digits ≠ [] := Nat.toDigits_ne_nil
  rw [Decimal.positional]
  dsimp only
  split
  · simp [hdigits]
  · split <;> simp

/-- A number always shows something. -/
theorem plainText_ne_empty (x : Binary64) : x.plainText ≠ "" := by
  have hfinite : finiteText plainStyle x ≠ [] := by
    have hbody := Decimal.positional_ne_nil "" (shortest .upward x)
    simp only [finiteText, plainStyle, Option.all_none, Bool.and_self, if_true]
    split
    · simp
    · exact hbody
  rw [plainText]
  split
  · decide
  split
  · split <;> decide
  · simpa using hfinite

end SourceAudit.Binary64

namespace SourceAudit.Csv

theorem records_written (violations : List Violation) :
    Document (ofViolations violations).toList (header :: violations.map fields) := by
  have hne : ∀ record ∈ header :: violations.map fields, record ≠ [] := by
    rw [List.forall_mem_cons]
    refine ⟨by simp [header], ?_⟩
    intro record hrecord
    obtain ⟨v, -, rfl⟩ := List.mem_map.mp hrecord
    simp [fields]
  rw [ofViolations, String.toList_ofList]
  exact document_written hne

/-- What stands in the column of magnitudes. -/
theorem magnitude_text_eq_empty_iff (magnitude : Option Binary64) :
    (magnitude.map Binary64.plainText).getD "" = "" ↔ magnitude = none := by
  cases magnitude with
  | none => simp
  | some x => simp [Binary64.plainText_ne_empty x]

theorem fields_eq (v : Violation) : fields v =
    [v.file, v.rule,
      match v.severity with
        | .error => "ERROR"
        | .warning => "WARNING"
        | .info => "INFO",
      v.message, (v.magnitude.map Binary64.plainText).getD ""].map String.toList := by
  obtain ⟨file, rule, severity, message, magnitude⟩ := v
  cases severity <;> cases magnitude <;> rfl

/-- An export has the texts of the header and of the columns, and no other meaning. -/
theorem document_iff (violations : List Violation) (records : List (List (List Char))) :
    Document (ofViolations violations).toList records ↔
      records = (["file_path", "rule_name", "severity", "message", "magnitude"] ::
        violations.map fun v =>
          [v.file, v.rule,
            match v.severity with
              | .error => "ERROR"
              | .warning => "WARNING"
              | .info => "INFO",
            v.message, (v.magnitude.map Binary64.plainText).getD ""]).map
          (·.map String.toList) := by
  have hwritten := readChars?_eq_some_iff.mpr (records_written violations)
  rw [← readChars?_eq_some_iff, hwritten, Option.some.injEq, eq_comm, List.map_cons, List.map_map,
    List.map_congr_left fun v (_ : v ∈ violations) => fields_eq v]
  rfl

/-- **The export reads back.**  The grammar gives it one meaning and the reader finds that
    meaning: the header, then one record for each violation in order.  Only an absent magnitude
    leaves its field empty. -/
theorem read?_ofViolations (violations : List Violation) :
    let rows := ["file_path", "rule_name", "severity", "message", "magnitude"] ::
      violations.map fun v =>
        [v.file, v.rule,
          match v.severity with
            | .error => "ERROR"
            | .warning => "WARNING"
            | .info => "INFO",
          v.message, (v.magnitude.map Binary64.plainText).getD ""]
    (∀ records, Document (ofViolations violations).toList records ↔
      records = rows.map (·.map String.toList)) ∧
    read? (ofViolations violations) = some rows ∧
    ∀ magnitude : Option Binary64,
      (magnitude.map Binary64.plainText).getD "" = "" ↔ magnitude = none := by
  intro rows
  have hread := readChars?_eq_some_iff.mpr ((document_iff violations _).mpr rfl)
  refine ⟨document_iff violations, ?_, magnitude_text_eq_empty_iff⟩
  rw [read?, hread, Option.map_some, List.map_map]
  simp [Function.comp_def, rows]

end SourceAudit.Csv
