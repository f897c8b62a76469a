/-
  SourceAudit/Proofs/Json/Parsing.lean
  ====================================
  **A document is read from its tokens, and from no others.**

  `tokensOf` writes a value as tokens, in the one way there is.  The reader takes these to
  the value wherever one may stand (`isRead`), and what it has taken at any time is
  held by its state, token by token (`Reads`).  So a text is read as a value exactly when it
  has the tokens of the value and the value is not too deep (`read?_eq_some_iff`).
-/
import SourceAudit.Proofs.Documents
import SourceAudit.Proofs.Json.Lexing

namespace SourceAudit.Json

open Datum (depthItems depthEntries)

/-! ### The tokens of a value -/

mutual

def tokensOf : Datum → List Token
  | .null => [.null]
  | .bool b => [.bool b]
  | .number n => [.number n]
  | .text s => [.text s]
  | .list items => .openList :: itemTokens items ++ [.closeList]
  | .table entries => .openTable :: entryTokens entries ++ [.closeTable]

def itemTokens : List Datum → List Token
  | [] => []
  | [d] => tokensOf d
  | d :: rest => tokensOf d ++ .comma :: itemTokens rest

def entryTokens : List (String × Datum) → List Token
  | [] => []
  | [(key, d)] => .text key :: .colon :: tokensOf d
  | (key, d) :: rest => .text key :: .colon :: tokensOf d ++ .comma :: entryTokens rest

end

theorem itemTokens_cons (d : Datum) {rest : List Datum} (hrest : rest ≠ []) :
    itemTokens (d :: rest) = tokensOf d ++ .comma :: itemTokens rest := by
  obtain ⟨e, more, rfl⟩ := List.exists_cons_of_ne_nil hrest
  rw [itemTokens]
  exact List.cons_ne_nil e more

theorem entryTokens_cons (key : String) (d : Datum) {rest : List (String × Datum)}
    (hrest : rest ≠ []) :
    entryTokens ((key, d) :: rest) =
      .text key :: .colon :: tokensOf d ++ .comma :: entryTokens rest := by
  obtain ⟨e, more, rfl⟩ := List.exists_cons_of_ne_nil hrest
  rw [entryTokens]
  exact List.cons_ne_nil e more

/-! ### From tokens to the value -/

/-- A value does not begin with the end of a list. -/
theorem tokensOf_head (d : Datum) : ∃ t ts, tokensOf d = t :: ts ∧ t ≠ .closeList := by
  cases d <;> exact ⟨_, _, rfl, nofun⟩

theorem itemTokens_head (d : Datum) (rest : List Datum) :
    ∃ t ts, itemTokens (d :: rest) = t :: ts ∧ t ≠ .closeList := by
  obtain ⟨t, ts, htokens, ht⟩ := tokensOf_head d
  cases rest with
  | nil => exact ⟨t, ts, htokens, ht⟩
  | cons e rest =>
    rw [itemTokens_cons d (List.cons_ne_nil e rest), htokens]
    exact ⟨t, _, rfl, ht⟩

/-- Where a first item may stand, a value is read as anywhere else. -/
theorem foldlM_firstItem (stack : List Open) (d : Datum) (rest : List Datum) (ts : List Token) :
    (itemTokens (d :: rest) ++ ts).foldlM step? ⟨stack, .firstItem⟩ =
      (itemTokens (d :: rest) ++ ts).foldlM step? ⟨stack, .value⟩ := by
  obtain ⟨t, more, htokens, ht⟩ := itemTokens_head d rest
  have hstep : step? ⟨stack, .firstItem⟩ t = step? ⟨stack, .value⟩ t := by
    cases t with
    | closeList => exact absurd rfl ht
    | _ => rfl
  rw [htokens, List.cons_append, List.foldlM_cons, List.foldlM_cons, hstep]

/-- Where a first key may stand, it is read as any other. -/
theorem foldlM_firstKey (stack : List Open) (done : List (String × Datum))
    (e : String × Datum) (rest : List (String × Datum)) (ts : List Token) :
    (entryTokens (e :: rest) ++ ts).foldlM step? ⟨stack, .firstKey done⟩ =
      (entryTokens (e :: rest) ++ ts).foldlM step? ⟨stack, .key done⟩ := by
  cases rest <;> rfl

/-- A key and its colon. -/
theorem foldlM_key (stack : List Open) (done shown : List (String × Datum)) (last key : String)
    (ts : List Token) :
    (.text key :: .colon :: ts : List Token).foldlM step?
        ⟨.table shown last :: stack, .key done⟩ =
      ts.foldlM step? ⟨.table done key :: stack, .value⟩ :=
  rfl

theorem step?_openList {stack : List Open} (h : stack.length < maxOpen) :
    step? ⟨stack, .value⟩ .openList = some ⟨.list [] :: stack, .firstItem⟩ :=
  if_pos (decide_eq_true h)

theorem step?_openTable {stack : List Open} (h : stack.length < maxOpen) :
    step? ⟨stack, .value⟩ .openTable = some ⟨.table [] "" :: stack, .firstKey []⟩ :=
  if_pos (decide_eq_true h)

/-- Read where a value may stand, the tokens of a value leave the value. -/
def IsRead (d : Datum) : Prop :=
  ∀ stack : List Open, stack.length + d.depth ≤ maxOpen →
    (tokensOf d).foldlM step? ⟨stack, .value⟩ = some ⟨stack, .separator d⟩

/-- The items of an open list and its end. -/
theorem foldlM_itemTokens {d : Datum} {rest : List Datum} (hread : ∀ x ∈ d :: rest, IsRead x)
    {stack : List Open} (hroom : stack.length + depthItems (d :: rest) + 1 ≤ maxOpen)
    (done : List Datum) :
    (itemTokens (d :: rest) ++ [Token.closeList]).foldlM step? ⟨.list done :: stack, .value⟩ =
      some ⟨stack, .separator (.list (done.reverse ++ d :: rest))⟩ := by
  induction rest generalizing d done with
  | nil =>
    rw [depthItems] at hroom
    have hd := hread d (by simp) (.list done :: stack) (by rw [List.length_cons]; omega)
    rw [itemTokens, List.foldlM_append, hd]
    simp [step?]
  | cons e rest ih =>
    rw [depthItems] at hroom
    have hd := hread d (by simp) (.list done :: stack) (by rw [List.length_cons]; omega)
    have hrest := ih (fun x hx => hread x (List.mem_cons_of_mem d hx)) (by omega) (d :: done)
    rw [itemTokens_cons d (List.cons_ne_nil e rest), List.append_assoc, List.foldlM_append, hd]
    rw [List.reverse_cons, List.append_assoc] at hrest
    exact hrest

/-- The entries of an open table and its end. -/
theorem foldlM_entryTokens {key : String} {d : Datum} {rest : List (String × Datum)}
    (hread : ∀ e ∈ (key, d) :: rest, IsRead e.2) {stack : List Open}
    (hroom : stack.length + depthEntries ((key, d) :: rest) + 1 ≤ maxOpen)
    (done shown : List (String × Datum)) (last : String) :
    (entryTokens ((key, d) :: rest) ++ [Token.closeTable]).foldlM step?
        ⟨.table shown last :: stack, .key done⟩ =
      some ⟨stack, .separator (.table (done.reverse ++ (key, d) :: rest))⟩ := by
  induction rest generalizing key d done shown last with
  | nil =>
    rw [depthEntries] at hroom
    have hd := hread (key, d) (by simp) (.table done key :: stack)
      (by rw [List.length_cons]; dsimp only; omega)
    rw [entryTokens, List.cons_append, List.cons_append, foldlM_key, List.foldlM_append, hd]
    simp [step?]
  | cons e rest ih =>
    obtain ⟨nextKey, next⟩ := e
    rw [depthEntries] at hroom
    have hd := hread (key, d) (by simp) (.table done key :: stack)
      (by rw [List.length_cons]; dsimp only; omega)
    have hrest := ih (fun x hx => hread x (List.mem_cons_of_mem _ hx)) (by omega)
      ((key, d) :: done) done key
    rw [entryTokens_cons key d (List.cons_ne_nil _ rest), List.append_assoc, List.cons_append,
      List.cons_append, foldlM_key, List.foldlM_append, hd]
    rw [List.reverse_cons, List.append_assoc] at hrest
    exact hrest

theorem isRead (d : Datum) : IsRead d := by
  induction d with
  | null => exact fun _ _ => rfl
  | bool b => exact fun _ _ => rfl
  | number n => exact fun _ _ => rfl
  | text s => exact fun _ _ => rfl
  | list items ih =>
    intro stack hroom
    rw [Datum.depth] at hroom
    rw [tokensOf, List.cons_append, List.foldlM_cons, step?_openList (by omega)]
    cases items with
    | nil => rfl
    | cons d rest =>
      refine (foldlM_firstItem _ d rest [Token.closeList]).trans ?_
      exact foldlM_itemTokens ih (by omega) []
  | table entries ih =>
    intro stack hroom
    rw [Datum.depth] at hroom
    rw [tokensOf, List.cons_append, List.foldlM_cons, step?_openTable (by omega)]
    cases entries with
    | nil => rfl
    | cons e rest =>
      refine (foldlM_firstKey _ [] e rest [Token.closeTable]).trans ?_
      exact foldlM_entryTokens ih (by omega) [] [] ""

/-! ### From the value back to its tokens -/

/-- Items that wait for the next one, last item first. -/
def heldItems (items : List Datum) : List Token :=
  items.reverse.flatMap fun d => tokensOf d ++ [.comma]

/-- Entries that wait for the next one, last entry first. -/
def heldEntries (entries : List (String × Datum)) : List Token :=
  entries.reverse.flatMap fun e => .text e.1 :: .colon :: tokensOf e.2 ++ [.comma]

theorem heldItems_cons (d : Datum) (items : List Datum) :
    heldItems (d :: items) = heldItems items ++ (tokensOf d ++ [.comma]) := by
  simp [heldItems]

theorem heldEntries_cons (key : String) (d : Datum) (entries : List (String × Datum)) :
    heldEntries ((key, d) :: entries) =
      heldEntries entries ++ (.text key :: .colon :: tokensOf d ++ [.comma]) := by
  simp [heldEntries]

theorem itemTokens_concat (items : List Datum) (d : Datum) :
    itemTokens (items ++ [d]) = (items.flatMap fun d => tokensOf d ++ [.comma]) ++ tokensOf d := by
  induction items with
  | nil => rfl
  | cons e items ih => simp [itemTokens_cons e, ih]

theorem entryTokens_concat (entries : List (String × Datum)) (key : String) (d : Datum) :
    entryTokens (entries ++ [(key, d)]) =
      (entries.flatMap fun e => .text e.1 :: .colon :: tokensOf e.2 ++ [.comma]) ++
        .text key :: .colon :: tokensOf d := by
  induction entries with
  | nil => rfl
  | cons e entries ih => simp [entryTokens_cons e.1 e.2, ih]

theorem tokensOf_reversed_items (d : Datum) (items : List Datum) :
    tokensOf (.list (d :: items).reverse) =
      .openList :: heldItems items ++ tokensOf d ++ [.closeList] := by
  rw [tokensOf, List.reverse_cons, itemTokens_concat]
  rfl

theorem tokensOf_reversed_entries (key : String) (d : Datum) (entries : List (String × Datum)) :
    tokensOf (.table ((key, d) :: entries).reverse) =
      .openTable :: heldEntries entries ++ .text key :: .colon :: tokensOf d ++ [.closeTable] := by
  rw [tokensOf, List.reverse_cons, entryTokens_concat]
  rfl

/-- The tokens taken for the containers still open. -/
inductive Holds : List Open → List Token → Prop where
  | nil : Holds [] []
  | list {stack : List Open} {ts : List Token} {items : List Datum} (below : Holds stack ts)
      (hroom : stack.length + depthItems items + 1 ≤ maxOpen) :
      Holds (.list items :: stack) (ts ++ .openList :: heldItems items)
  | table {stack : List Open} {ts : List Token} {entries : List (String × Datum)} {key : String}
      (below : Holds stack ts) (hroom : stack.length + depthEntries entries + 1 ≤ maxOpen) :
      Holds (.table entries key :: stack)
        (ts ++ .openTable :: heldEntries entries ++ [.text key, .colon])

theorem Holds.length_le {stack : List Open} {ts : List Token} (held : Holds stack ts) :
    stack.length ≤ maxOpen := by
  cases held with
  | nil => exact Nat.zero_le _
  | list _ hroom =>
    rw [List.length_cons]
    omega
  | table _ hroom =>
    rw [List.length_cons]
    omega

/-- The tokens taken to come to a state. -/
inductive Reads : State → List Token → Prop where
  | value {stack : List Open} {ts : List Token} (held : Holds stack ts) :
      Reads ⟨stack, .value⟩ ts
  | firstItem {stack : List Open} {ts : List Token} (held : Holds stack ts)
      (hroom : stack.length < maxOpen) :
      Reads ⟨.list [] :: stack, .firstItem⟩ (ts ++ [.openList])
  | firstKey {stack : List Open} {ts : List Token} (held : Holds stack ts)
      (hroom : stack.length < maxOpen) :
      Reads ⟨.table [] "" :: stack, .firstKey []⟩ (ts ++ [.openTable])
  | key {stack : List Open} {ts : List Token} {entries shown : List (String × Datum)}
      {last : String} (held : Holds stack ts)
      (hroom : stack.length + depthEntries entries + 1 ≤ maxOpen) :
      Reads ⟨.table shown last :: stack, .key entries⟩
        (ts ++ .openTable :: heldEntries entries)
  | colon {stack : List Open} {ts : List Token} {entries shown : List (String × Datum)}
      {last key : String} (held : Holds stack ts)
      (hroom : stack.length + depthEntries entries + 1 ≤ maxOpen) :
      Reads ⟨.table shown last :: stack, .colon entries key⟩
        (ts ++ .openTable :: heldEntries entries ++ [.text key])
  | separator {stack : List Open} {ts : List Token} {d : Datum} (held : Holds stack ts)
      (hroom : stack.length + d.depth ≤ maxOpen) :
      Reads ⟨stack, .separator d⟩ (ts ++ tokensOf d)

theorem Reads.of_stepValue? {stack : List Open} {ts : List Token} {t : Token} {state : State}
    (held : Holds stack ts) (hstep : stepValue? stack t = some state) :
    Reads state (ts ++ [t]) := by
  have hfits := held.length_le
  have hscalar : ∀ d : Datum, d.depth = 0 → tokensOf d = [t] →
      Reads ⟨stack, .separator d⟩ (ts ++ [t]) := by
    intro d hdepth htokens
    rw [← htokens]
    exact .separator held (by omega)
  have hroom : ∀ opened : State, (if State.hasRoom stack then some opened else none) = some state →
      stack.length < maxOpen ∧ opened = state := by
    intro opened h
    rw [Option.ite_none_right_eq_some] at h
    exact ⟨of_decide_eq_true h.1, Option.some.inj h.2⟩
  cases t with
  | openList =>
    obtain ⟨hlt, rfl⟩ := hroom _ hstep
    exact .firstItem held hlt
  | openTable =>
    obtain ⟨hlt, rfl⟩ := hroom _ hstep
    exact .firstKey held hlt
  | null =>
    cases hstep
    exact hscalar .null rfl rfl
  | bool b =>
    cases hstep
    exact hscalar (.bool b) rfl rfl
  | number n =>
    cases hstep
    exact hscalar (.number n) rfl rfl
  | text s =>
    cases hstep
    exact hscalar (.text s) rfl rfl
  | _ => cases hstep

/-- One token more. -/
theorem Reads.step {state next : State} {ts : List Token} {t : Token} (reads : Reads state ts)
    (hstep : step? state t = some next) : Reads next (ts ++ [t]) := by
  cases reads with
  | value held => exact .of_stepValue? held hstep
  | @firstItem stack ts held hroom =>
    cases t with
    | closeList =>
      cases hstep
      rw [List.append_assoc]
      exact .separator (d := .list []) held hroom
    | _ =>
      have inside : Holds (.list [] :: stack) (ts ++ [.openList]) := .list held hroom
      exact .of_stepValue? inside hstep
  | firstKey held hroom =>
    cases t with
    | closeTable =>
      cases hstep
      rw [List.append_assoc]
      exact .separator (d := .table []) held hroom
    | text key =>
      cases hstep
      exact .colon held hroom
    | _ => cases hstep
  | key held hroom =>
    cases t with
    | text key =>
      cases hstep
      exact .colon held hroom
    | _ => cases hstep
  | colon held hroom =>
    cases t with
    | colon =>
      cases hstep
      rw [List.append_assoc]
      exact .value (.table held hroom)
    | _ => cases hstep
  | @separator stack ts d held hroom =>
    cases held with
    | nil => cases t <;> cases hstep
    | @list stack ts items below hitems =>
      rw [List.length_cons] at hroom
      have hall : stack.length + depthItems (d :: items) + 1 ≤ maxOpen := by
        rw [depthItems]
        omega
      cases t with
      | comma =>
        cases hstep
        have next := Reads.value (.list below hall)
        rw [heldItems_cons] at next
        simpa using next
      | closeList =>
        cases hstep
        have next := Reads.separator (d := .list (d :: items).reverse) below
          (by rwa [Datum.depth, Datum.depthItems_reverse])
        rw [tokensOf_reversed_items] at next
        simpa using next
      | _ => cases hstep
    | @table stack ts entries key below hentries =>
      rw [List.length_cons] at hroom
      have hall : stack.length + depthEntries ((key, d) :: entries) + 1 ≤ maxOpen := by
        rw [depthEntries]
        omega
      cases t with
      | comma =>
        cases hstep
        have next : Reads ⟨.table entries key :: stack, .key ((key, d) :: entries)⟩ _ :=
          .key below hall
        rw [heldEntries_cons] at next
        simpa using next
      | closeTable =>
        cases hstep
        have next := Reads.separator (d := .table ((key, d) :: entries).reverse) below
          (by rwa [Datum.depth, Datum.depthEntries_reverse])
        rw [tokensOf_reversed_entries] at next
        simpa using next
      | _ => cases hstep

theorem Reads.run {state final : State} {taken ts : List Token} (reads : Reads state taken)
    (hrun : ts.foldlM step? state = some final) : Reads final (taken ++ ts) := by
  induction ts generalizing state taken with
  | nil =>
    cases hrun
    rwa [List.append_nil]
  | cons t ts ih =>
    obtain ⟨next, hstep, hrun⟩ := Option.bind_eq_some_iff.mp hrun
    rw [List.append_cons]
    exact ih (reads.step hstep) hrun

/-- One of the JSON texts of a value: its tokens, with any gaps around them. -/
def IsTextOf (s : String) (d : Datum) : Prop := Lexes s.toList (tokensOf d)

/-- A text is read as a value when it is a text of the value, which is not too deep. -/
theorem read?_eq_some_iff {s : String} {d : Datum} :
    read? s = some d ↔ IsTextOf s d ∧ d.depth ≤ maxOpen := by
  constructor
  · intro h
    obtain ⟨ts, htokens, h⟩ := Option.bind_eq_some_iff.mp h
    obtain ⟨final, hrun, h⟩ := Option.bind_eq_some_iff.mp h
    have reads := (Reads.value .nil).run hrun
    split at h
    · cases h
      cases reads with
      | separator held hroom =>
        cases held
        exact ⟨tokens?_eq_some_iff.mp htokens, by simpa using hroom⟩
    · cases h
  · rintro ⟨htokens, hdepth⟩
    have hrun := isRead d [] (by simpa using hdepth)
    rw [read?, tokens?_eq_some_iff.mpr htokens]
    simp only [Option.bind_eq_bind, Option.bind_some, hrun]

end SourceAudit.Json
