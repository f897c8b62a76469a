/-
  SourceAudit/Proofs/Json/Printing.lean
  =====================================
  **A printed document is read back.**

  A text between quotes is read back whatever its characters are (`body_escaped`).  The
  printed text of a document then has the tokens of the document, numbers aside
  (`isPrinted`): a number that is not finite is printed as `null`, and whether any
  other is read back is asked of its own text (`ReadsBack`).
-/
import SourceAudit.Json.Printer
import SourceAudit.Proofs.Json.Parsing

namespace SourceAudit.Json

open Datum (depthItems depthEntries)

/-! ### Quoted texts -/

theorem hex4?_low : ∀ n : Fin 32,
    Text.hex4? '0' '0' (Text.hexDigit (n / 16)) (Text.hexDigit (n % 16)) = some n.val := by
  decide

/-- A character is read back from how it stands between quotes. -/
theorem Body.escape (c : Char) {t v : List Char} (rest : Body t v) :
    Body (escapeChar c ++ t) (c :: v) := by
  unfold escapeChar
  split
  case isTrue h =>
    subst h
    exact .short rfl rest
  case isFalse hquote =>
  split
  case isTrue h =>
    subst h
    exact .short rfl rest
  case isFalse hslash =>
  split
  case isTrue h =>
    subst h
    exact .short rfl rest
  split
  case isTrue h =>
    subst h
    exact .short rfl rest
  split
  case isTrue h =>
    subst h
    exact .short rfl rest
  split
  case isTrue h =>
    subst h
    exact .short rfl rest
  split
  case isTrue h =>
    subst h
    exact .short rfl rest
  split
  case isTrue h =>
    have unit := Body.unit (hex4?_low ⟨c.toNat, h⟩) (.inl (by omega)) rest
    rwa [Char.ofNat_toNat] at unit
  case isFalse h => exact .plain (Nat.le_of_not_lt h) hquote hslash rest

theorem body_escaped (s : List Char) : Body (s.flatMap escapeChar) s := by
  induction s with
  | nil => exact .nil
  | cons c s ih => exact .escape c ih

theorem lexes_quote (s : String) {rest : List Char} {ts : List Token} (more : Lexes rest ts) :
    Lexes (quote s ++ rest) (.text s :: ts) := by
  have htext := Lexes.quoted (body_escaped s.toList) more
  rw [String.ofList_toList] at htext
  simpa [quote] using htext

/-! ### Numbers -/

/-- The text of the number is a number, and that one. -/
def ReadsBack (n : Number) : Prop :=
  splitNumber? (numberText n).toList = some (n, [])

mutual

/-- The document with `null` for the numbers that are not finite. -/
def asPrinted : Datum → Datum
  | .null => .null
  | .bool b => .bool b
  | .number (.integer i) => .number (.integer i)
  | .number (.real x) => if x.isFinite then .number (.real x) else .null
  | .text s => .text s
  | .list items => .list (printedItems items)
  | .table entries => .table (printedEntries entries)

def printedItems : List Datum → List Datum
  | [] => []
  | d :: rest => asPrinted d :: printedItems rest

def printedEntries : List (String × Datum) → List (String × Datum)
  | [] => []
  | (key, d) :: rest => (key, asPrinted d) :: printedEntries rest

end

theorem lexes_numberText {n : Number} {rest : List Char} {ts : List Token}
    (hreal : ∀ x, n = .real x → x.isFinite = true → ReadsBack n)
    (hinteger : ∀ i, n = .integer i → ReadsBack n) (hrest : Stops rest) (more : Lexes rest ts) :
    Lexes ((numberText n).toList ++ rest) (tokensOf (asPrinted (.number n)) ++ ts) := by
  cases n with
  | integer i => exact .number (hinteger i rfl) hrest more
  | real x =>
    rw [asPrinted]
    cases hfinite : x.isFinite with
    | true => exact .number (hreal x rfl hfinite) hrest more
    | false =>
      have hnull : (numberText (.real x)).toList = ['n', 'u', 'l', 'l'] := by
        simp [numberText, Binary64.jsonText, hfinite]
      rw [hnull]
      exact .fixed (by simp [fixedTokens]) more

/-! ### Lists and tables -/

theorem lexes_newline (level : Nat) {rest : List Char} {ts : List Token} (more : Lexes rest ts) :
    Lexes (newline level ++ rest) ts := by
  refine .gaps (fun c hc => ?_) more
  rcases List.mem_cons.mp hc with rfl | hc
  · rfl
  · rw [List.eq_of_mem_replicate hc]
    rfl

theorem lexes_comma {rest : List Char} {ts : List Token} (more : Lexes rest ts) :
    Lexes (',' :: rest) (.comma :: ts) :=
  .of_start rfl rfl more

theorem stops_newline (level : Nat) (rest : List Char) : Stops (newline level ++ rest) :=
  .cons (by decide)

/-- Printed on any level, the document has its tokens. -/
def IsPrinted (d : Datum) : Prop :=
  ∀ (level : Nat) {rest : List Char} {ts : List Token}, Stops rest → Lexes rest ts →
    Lexes (prettyChars level d ++ rest) (tokensOf (asPrinted d) ++ ts)

theorem lexes_prettyItems {items : List Datum} (hprinted : ∀ d ∈ items, IsPrinted d) (level : Nat)
    {rest : List Char} {ts : List Token} (hrest : Stops rest) (more : Lexes rest ts) :
    Lexes (prettyItems level items ++ rest) (itemTokens (printedItems items) ++ ts) := by
  induction items with
  | nil => exact more
  | cons d items ih =>
    obtain ⟨hd, hitems⟩ := List.forall_mem_cons.mp hprinted
    cases items with
    | nil => exact hd level hrest more
    | cons e items =>
      have next := lexes_comma (lexes_newline level (ih hitems))
      have first := hd level (.cons (by decide)) next
      simpa [prettyItems, printedItems, itemTokens] using first

theorem lexes_prettyEntries {entries : List (String × Datum)}
    (hprinted : ∀ e ∈ entries, IsPrinted e.2) (level : Nat) {rest : List Char} {ts : List Token}
    (hrest : Stops rest) (more : Lexes rest ts) :
    Lexes (prettyEntries level entries ++ rest) (entryTokens (printedEntries entries) ++ ts) := by
  have hentry : ∀ (key : String) {s : List Char} {more : List Token}, Lexes s more →
      Lexes (quote key ++ ':' :: ' ' :: s) (.text key :: .colon :: more) := by
    intro key s more hs
    have hgap : Lexes ([' '] ++ s) more := .gaps (by simp [isGap]) hs
    exact lexes_quote key (.of_start rfl rfl hgap)
  induction entries with
  | nil => exact more
  | cons e entries ih =>
    obtain ⟨key, d⟩ := e
    obtain ⟨hd, hentries⟩ := List.forall_mem_cons.mp hprinted
    cases entries with
    | nil =>
      have only := hentry key (hd level hrest more)
      simpa [prettyEntries, printedEntries, entryTokens] using only
    | cons e entries =>
      have next := lexes_comma (lexes_newline level (ih hentries))
      have first := hentry key (hd level (.cons (by decide)) next)
      simpa [prettyEntries, printedEntries, entryTokens] using first

theorem isPrinted {d : Datum}
    (hintegers : ∀ i, Datum.Inside (.number (.integer i)) d → ReadsBack (.integer i))
    (hreals : ∀ x, Datum.Inside (.number (.real x)) d → x.isFinite = true →
      ReadsBack (.real x)) : IsPrinted d := by
  induction d with
  | null =>
    intro level rest ts _ more
    exact .of_start rfl rfl more
  | bool b =>
    intro level rest ts _ more
    cases b <;> exact .of_start rfl rfl more
  | number n =>
    intro level rest ts hrest more
    refine lexes_numberText (fun x hn hfinite => ?_) (fun i hn => ?_) hrest more
    · rw [hn]
      exact hreals x (hn ▸ .self) hfinite
    · rw [hn]
      exact hintegers i (hn ▸ .self)
  | text s => exact fun level _ _ _ more => lexes_quote s more
  | list items ih =>
    intro level rest ts hrest more
    have hitems : ∀ d ∈ items, IsPrinted d := fun d hd =>
      ih d hd (fun i hi => hintegers i (.item hd hi)) (fun x hx => hreals x (.item hd hx))
    cases items with
    | nil => exact .of_start rfl rfl (.of_start rfl rfl more)
    | cons d items =>
      have close : Lexes (']' :: rest) (.closeList :: ts) := .of_start rfl rfl more
      have inside := lexes_prettyItems hitems (level + 1) (stops_newline level _)
        (lexes_newline level close)
      have whole : Lexes ('[' :: _) (.openList :: _) :=
        .of_start rfl rfl (lexes_newline (level + 1) inside)
      simpa [prettyChars, asPrinted, tokensOf] using whole
  | table entries ih =>
    intro level rest ts hrest more
    have hentries : ∀ e ∈ entries, IsPrinted e.2 := fun e he =>
      ih e he (fun i hi => hintegers i (.entry he hi)) (fun x hx => hreals x (.entry he hx))
    cases entries with
    | nil => exact .of_start rfl rfl (.of_start rfl rfl more)
    | cons e entries =>
      have close : Lexes ('\x7d' :: rest) (.closeTable :: ts) := .of_start rfl rfl more
      have inside := lexes_prettyEntries hentries (level + 1) (stops_newline level _)
        (lexes_newline level close)
      have whole : Lexes ('\x7b' :: _) (.openTable :: _) :=
        .of_start rfl rfl (lexes_newline (level + 1) inside)
      simpa [prettyChars, asPrinted, tokensOf] using whole

theorem depth_asPrinted (d : Datum) : (asPrinted d).depth = d.depth := by
  induction d with
  | null => rfl
  | bool b => rfl
  | number n =>
    cases n with
    | integer i => rfl
    | real x =>
      rw [asPrinted]
      split <;> rfl
  | text s => rfl
  | list items ih =>
    have hitems : depthItems (printedItems items) = depthItems items := by
      induction items with
      | nil => rfl
      | cons d items rest =>
        rw [printedItems, depthItems, depthItems, ih d List.mem_cons_self,
          rest fun e he => ih e (List.mem_cons_of_mem d he)]
    rw [asPrinted, Datum.depth, Datum.depth, hitems]
  | table entries ih =>
    have hentries : depthEntries (printedEntries entries) = depthEntries entries := by
      induction entries with
      | nil => rfl
      | cons e entries rest =>
        rw [printedEntries, depthEntries, depthEntries, ih e List.mem_cons_self,
          rest fun d hd => ih d (List.mem_cons_of_mem e hd)]
    rw [asPrinted, Datum.depth, Datum.depth, hentries]

theorem stops_gaps {gaps : List Char} (hgaps : ∀ c ∈ gaps, isGap c = true) : Stops gaps := by
  intro c hc
  have hgap := hgaps c (List.mem_of_mem_head? hc)
  simp only [isGap, Bool.or_eq_true, decide_eq_true_eq] at hgap
  rcases hgap with ((rfl | rfl) | rfl) | rfl <;> decide

/-- A printed document with blanks behind it is read as itself, with `null` for the numbers
    that are not finite. -/
theorem read?_pretty_gaps {d : Datum} (hdepth : d.depth ≤ maxOpen)
    (hintegers : ∀ i, Datum.Inside (.number (.integer i)) d → ReadsBack (.integer i))
    (hreals : ∀ x, Datum.Inside (.number (.real x)) d → x.isFinite = true → ReadsBack (.real x))
    {gaps : String} (hgaps : ∀ c ∈ gaps.toList, isGap c = true) :
    read? (pretty d ++ gaps) = some (asPrinted d) := by
  refine read?_eq_some_iff.mpr ⟨?_, (depth_asPrinted d).trans_le hdepth⟩
  have hend : Lexes gaps.toList [] := .done (List.dropWhile_eq_nil_iff.mpr hgaps)
  have hprinted := isPrinted hintegers hreals 0 (stops_gaps hgaps) hend
  rwa [List.append_nil, ← String.toList_ofList (l := prettyChars 0 d), ← String.toList_append]
    at hprinted

theorem read?_pretty {d : Datum} (hdepth : d.depth ≤ maxOpen)
    (hintegers : ∀ i, Datum.Inside (.number (.integer i)) d → ReadsBack (.integer i))
    (hreals : ∀ x, Datum.Inside (.number (.real x)) d → x.isFinite = true →
      ReadsBack (.real x)) : read? (pretty d) = some (asPrinted d) := by
  have hread : read? (pretty d ++ "") = some (asPrinted d) :=
    read?_pretty_gaps hdepth hintegers hreals (by simp)
  rwa [String.append_empty] at hread

end SourceAudit.Json
