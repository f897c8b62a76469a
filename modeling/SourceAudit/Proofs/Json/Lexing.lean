/-
  SourceAudit/Proofs/Json/Lexing.lean
  ===================================
  **The tokens of a text, piece by piece.**

  `Lexes` says which tokens a text has without counting steps, and `tokens?` finds exactly
  these (`tokens?_eq_some_iff`).  A number ends where a character stands that cannot go on
  with it, and every other token ends by itself; so the text of a token can be put in front
  of a text (`Lexes.fixed`, `Lexes.quoted`, `Lexes.number`).
-/
import Mathlib.Data.List.TakeWhile
import SourceAudit.Json.Reader

namespace SourceAudit.Json

/-! ### Where a number ends -/

/-- No character of a number. -/
def IsStop (c : Char) : Prop :=
  c.isDigit = false ∧ c ≠ '.' ∧ c ≠ 'e' ∧ c ≠ 'E' ∧ c ≠ '+' ∧ c ≠ '-'

instance (c : Char) : Decidable (IsStop c) := inferInstanceAs (Decidable (_ ∧ _))

/-- The text does not go on with a number in front of it. -/
def Stops (s : List Char) : Prop := ∀ c ∈ s.head?, IsStop c

theorem Stops.nil : Stops [] := by
  intro c hc
  cases hc

theorem Stops.cons {c : Char} {s : List Char} (hc : IsStop c) : Stops (c :: s) := by
  intro d hd
  obtain rfl := Option.some.inj hd
  exact hc

theorem takeWhile_stop {rest : List Char} (hrest : Stops rest) (s : List Char) :
    (s ++ rest).takeWhile Char.isDigit = s.takeWhile Char.isDigit := by
  induction s with
  | nil =>
    cases rest with
    | nil => rfl
    | cons c rest => simp [(hrest c rfl).1]
  | cons c s ih =>
    rw [List.cons_append, List.takeWhile_cons, List.takeWhile_cons, ih]

theorem dropWhile_stop {rest : List Char} (hrest : Stops rest) (s : List Char) :
    (s ++ rest).dropWhile Char.isDigit = s.dropWhile Char.isDigit ++ rest := by
  induction s with
  | nil =>
    cases rest with
    | nil => rfl
    | cons c rest => simp [(hrest c rfl).1]
  | cons c s ih =>
    rw [List.cons_append, List.dropWhile_cons, List.dropWhile_cons, ih]
    split <;> rfl

/-- What is left gets the further text. -/
def withRest {α : Type} (rest : List Char) (p : α × List Char) : α × List Char :=
  (p.1, p.2 ++ rest)

theorem splitMinus_append {rest : List Char} (hrest : Stops rest) (s : List Char) :
    splitMinus (s ++ rest) = withRest rest (splitMinus s) := by
  cases s with
  | nil =>
    cases rest with
    | nil => rfl
    | cons c rest =>
      have hminus := (hrest c rfl).2.2.2.2.2
      simp [splitMinus, withRest, hminus]
  | cons c s =>
    by_cases hc : c = '-'
    · simp [splitMinus, withRest, hc]
    · simp [splitMinus, withRest, hc]

theorem splitSign_append {rest : List Char} (hrest : Stops rest) (s : List Char) :
    Binary64.splitSign (s ++ rest) = withRest rest (Binary64.splitSign s) := by
  cases s with
  | nil =>
    cases rest with
    | nil => rfl
    | cons c rest =>
      obtain ⟨-, -, -, -, hplus, hminus⟩ := hrest c rfl
      simp [Binary64.splitSign, withRest, hminus, hplus]
  | cons c s =>
    by_cases hminus : c = '-'
    · simp [Binary64.splitSign, withRest, hminus]
    · by_cases hplus : c = '+'
      · simp [Binary64.splitSign, withRest, hplus]
      · simp [Binary64.splitSign, withRest, hminus, hplus]

theorem splitFraction?_append {rest : List Char} (hrest : Stops rest) (s : List Char) :
    splitFraction? (s ++ rest) = (splitFraction? s).map (withRest rest) := by
  cases s with
  | nil =>
    cases rest with
    | nil => rfl
    | cons c rest =>
      have hpoint := (hrest c rfl).2.1
      simp [splitFraction?, withRest, hpoint]
  | cons c s =>
    by_cases hpoint : c = '.'
    · simp only [hpoint, List.cons_append, splitFraction?, takeWhile_stop hrest,
        dropWhile_stop hrest]
      split <;> rfl
    · simp [splitFraction?, withRest, hpoint]

theorem splitExponent?_append {rest : List Char} (hrest : Stops rest) (s : List Char) :
    splitExponent? (s ++ rest) = (splitExponent? s).map (withRest rest) := by
  cases s with
  | nil =>
    cases rest with
    | nil => rfl
    | cons c rest =>
      obtain ⟨-, -, hsmall, hcapital, -, -⟩ := hrest c rfl
      simp [splitExponent?, withRest, hsmall, hcapital]
  | cons c s =>
    rw [List.cons_append, splitExponent?, splitExponent?]
    split
    · simp only [splitSign_append hrest, withRest, takeWhile_stop hrest, dropWhile_stop hrest]
      split <;> rfl
    · rfl

theorem splitNumber?_append {rest : List Char} (hrest : Stops rest) (s : List Char) :
    splitNumber? (s ++ rest) = (splitNumber? s).map (withRest rest) := by
  simp only [splitNumber?, splitMinus_append hrest, withRest, takeWhile_stop hrest,
    dropWhile_stop hrest, splitFraction?_append hrest]
  split
  · cases splitFraction? ((splitMinus s).2.dropWhile Char.isDigit) with
    | none => rfl
    | some f =>
      obtain ⟨fraction, more⟩ := f
      simp only [Option.map_some, Option.bind_eq_bind, Option.bind_some, withRest,
        splitExponent?_append hrest]
      cases splitExponent? more with
      | none => rfl
      | some e =>
        obtain ⟨exponent, more⟩ := e
        simp only [Option.map_some, Option.bind_some, withRest]
        cases literalNumber? _ _ fraction exponent <;> rfl
  · rfl

theorem splitNumber?_head {s tail : List Char} {n : Number}
    (h : splitNumber? s = some (n, tail)) :
    ∃ c rest, s = c :: rest ∧ (c.isDigit = true ∨ c = '-') := by
  cases s with
  | nil => simp [splitNumber?, splitMinus, isWhole] at h
  | cons c rest =>
    refine ⟨c, rest, rfl, ?_⟩
    by_cases hminus : c = '-'
    · exact .inr hminus
    · refine .inl (Decidable.byContradiction fun hdigit => ?_)
      simp [splitNumber?, splitMinus, hminus, hdigit, isWhole] at h

/-! ### Quoted texts -/

/-- The text between the quotes and what it stands for. -/
inductive Body : (text value : List Char) → Prop where
  | nil : Body [] []
  | plain {c : Char} {t v : List Char} (hshown : 32 ≤ c.toNat) (hquote : c ≠ '"')
      (hslash : c ≠ '\\') (rest : Body t v) : Body (c :: t) (c :: v)
  | short {c d : Char} {t v : List Char} (hescape : shortEscape? c = some d) (rest : Body t v) :
      Body ('\\' :: c :: t) (d :: v)
  | unit {a b c d : Char} {n : Nat} {t v : List Char} (hunit : Text.hex4? a b c d = some n)
      (hsingle : n < 0xD800 ∨ 0xE000 ≤ n) (rest : Body t v) :
      Body ('\\' :: 'u' :: a :: b :: c :: d :: t) (Char.ofNat n :: v)
  | pair {a b c d a' b' c' d' : Char} {high low : Nat} {t v : List Char}
      (hunit : Text.hex4? a b c d = some high) (hunit' : Text.hex4? a' b' c' d' = some low)
      (hhigh : 0xD800 ≤ high ∧ high < 0xDC00) (hlow : 0xDC00 ≤ low ∧ low < 0xE000)
      (rest : Body t v) :
      Body ('\\' :: 'u' :: a :: b :: c :: d :: '\\' :: 'u' :: a' :: b' :: c' :: d' :: t)
        (Char.ofNat (0x10000 + (high - 0xD800) * 0x400 + (low - 0xDC00)) :: v)

/-- One character of the value and then the rest of it. -/
theorem bind_body {x : Option (List Char × List Char)} {c : Char} {v tail : List Char}
    (h : (x.bind fun p => some (c :: p.1, p.2)) = some (v, tail)) :
    ∃ w, x = some (w, tail) ∧ v = c :: w := by
  cases x with
  | none => cases h
  | some p =>
    cases h
    exact ⟨p.1, rfl, rfl⟩

theorem body_of_quotedBody? {s v tail : List Char} (h : quotedBody? s = some (v, tail)) :
    ∃ t, s = t ++ '"' :: tail ∧ Body t v := by
  fun_induction quotedBody? s generalizing v tail with
  | case1 => cases h
  | case2 rest =>
    cases h
    exact ⟨[], rfl, .nil⟩
  | case3 a b c d rest ihpair ih =>
    obtain ⟨unit, hunit, h⟩ := Option.bind_eq_some_iff.mp h
    split at h
    · next hhigh =>
      split at h
      · next a' b' c' d' rest =>
        obtain ⟨low, hlow, h⟩ := Option.bind_eq_some_iff.mp h
        split at h
        · next hrange =>
          obtain ⟨w, hw, rfl⟩ := bind_body h
          obtain ⟨t, rfl, body⟩ := ihpair hw
          simp only [Bool.and_eq_true, decide_eq_true_eq] at hhigh hrange
          exact ⟨_, rfl, .pair hunit hlow hhigh hrange body⟩
        · cases h
      · cases h
    · next hhigh =>
      split at h
      · cases h
      · next hlow =>
        obtain ⟨w, hw, rfl⟩ := bind_body h
        obtain ⟨t, rfl, body⟩ := ih hw
        simp only [Bool.and_eq_true, decide_eq_true_eq] at hhigh hlow
        exact ⟨_, rfl, .unit hunit (by omega) body⟩
  | case4 c rest hunit ih =>
    obtain ⟨d, hd, h⟩ := Option.bind_eq_some_iff.mp h
    obtain ⟨w, hw, rfl⟩ := bind_body h
    obtain ⟨t, rfl, body⟩ := ih hw
    exact ⟨_, rfl, .short hd body⟩
  | case5 => cases h
  | case6 c rest hquote _ _ hshown ih =>
    obtain ⟨w, hw, rfl⟩ := bind_body h
    obtain ⟨t, rfl, body⟩ := ih hw
    simp only [Bool.or_eq_true, decide_eq_true_eq, not_or, Nat.not_lt] at hshown
    exact ⟨_, rfl, .plain hshown.1 hquote hshown.2 body⟩

theorem quotedBody?_of_body {t v : List Char} (body : Body t v) (rest : List Char) :
    quotedBody? (t ++ '"' :: rest) = some (v, rest) := by
  induction body with
  | nil => rfl
  | @plain c t v hshown hquote hslash _ ih =>
    rw [List.cons_append, quotedBody?, ih]
    · simp [hslash, Nat.not_lt.mpr hshown]
    · exact hquote
    · exact fun _ _ _ _ _ h => absurd h hslash
    · exact fun _ _ h => absurd h hslash
  | @short c d t v hescape _ ih =>
    rw [List.cons_append, List.cons_append, quotedBody?, ih, hescape]
    · rfl
    · rintro _ _ _ _ _ rfl
      cases hescape
  | @unit _ _ _ _ n _ _ hunit hsingle _ ih =>
    have hhigh : ¬ (0xD800 ≤ n ∧ n < 0xDC00) := by omega
    have hlow : ¬ (0xDC00 ≤ n ∧ n < 0xE000) := by omega
    simp only [List.cons_append, quotedBody?, hunit, ih, Option.bind_eq_bind, Option.bind_some,
      ← Bool.decide_and, hhigh, hlow, decide_false, Bool.false_eq_true, if_false]
    rfl
  | pair hunit hunit' hhigh hlow _ ih =>
    simp only [List.cons_append, quotedBody?, hunit, hunit', ih, Option.bind_eq_bind,
      Option.bind_some, ← Bool.decide_and, hhigh, hlow, and_self, decide_true, if_true]
    rfl

/-! ### One token -/

/-- The tokens that are written in one way only. -/
def fixedTokens : List (List Char × Token) :=
  [(['['], .openList), ([']'], .closeList), (['{'], .openTable), (['}'], .closeTable),
    ([','], .comma), ([':'], .colon), (['n', 'u', 'l', 'l'], .null),
    (['t', 'r', 'u', 'e'], .bool true), (['f', 'a', 'l', 's', 'e'], .bool false)]

theorem nextToken?_fixed {word : List Char} {token : Token} (h : (word, token) ∈ fixedTokens)
    (rest : List Char) : nextToken? (word ++ rest) = some (token, rest) := by
  simp only [fixedTokens, List.mem_cons, Prod.mk.injEq, List.not_mem_nil, or_false] at h
  rcases h with ⟨rfl, rfl⟩ | ⟨rfl, rfl⟩ | ⟨rfl, rfl⟩ | ⟨rfl, rfl⟩ | ⟨rfl, rfl⟩ | ⟨rfl, rfl⟩ |
    ⟨rfl, rfl⟩ | ⟨rfl, rfl⟩ | ⟨rfl, rfl⟩ <;> rfl

theorem nextToken?_quoted {t v : List Char} (body : Body t v) (rest : List Char) :
    nextToken? ('"' :: (t ++ '"' :: rest)) = some (.text (String.ofList v), rest) := by
  rw [nextToken?, quotedBody?_of_body body]
  rfl

theorem nextToken?_number {c : Char} (hc : c.isDigit = true ∨ c = '-') (s : List Char) :
    nextToken? (c :: s) = (splitNumber? (c :: s)).map fun p => (.number p.1, p.2) := by
  have hne : ∀ d, d.isDigit = false → d ≠ '-' → c ≠ d := by
    rintro d hdigit hminus rfl
    rcases hc with hc | hc
    · rw [hc] at hdigit
      cases hdigit
    · exact hminus hc
  rw [nextToken?.eq_11]
  · cases splitNumber? (c :: s) <;> rfl
  all_goals
    rintro _ h
    exact hne _ (by decide) (by decide) (List.cons.inj h).1

/-- A token is one of the fixed ones, a quoted text or a number. -/
theorem nextToken?_cases {s tail : List Char} {token : Token}
    (h : nextToken? s = some (token, tail)) :
    (∃ word, (word, token) ∈ fixedTokens ∧ s = word ++ tail) ∨
    (∃ t v, Body t v ∧ token = .text (String.ofList v) ∧ s = '"' :: (t ++ '"' :: tail)) ∨
    ∃ n, splitNumber? s = some (n, tail) ∧ token = .number n := by
  unfold nextToken? at h
  split at h
  case h_10 =>
    obtain ⟨⟨v, more⟩, hbody, h⟩ := Option.bind_eq_some_iff.mp h
    cases h
    obtain ⟨t, rfl, body⟩ := body_of_quotedBody? hbody
    exact .inr (.inl ⟨t, v, body, rfl, rfl⟩)
  case h_11 =>
    obtain ⟨⟨n, more⟩, hnumber, h⟩ := Option.bind_eq_some_iff.mp h
    cases h
    exact .inr (.inr ⟨n, hnumber, rfl⟩)
  all_goals
    cases h
    left
  · exact ⟨['['], by simp [fixedTokens], rfl⟩
  · exact ⟨[']'], by simp [fixedTokens], rfl⟩
  · exact ⟨['{'], by simp [fixedTokens], rfl⟩
  · exact ⟨['}'], by simp [fixedTokens], rfl⟩
  · exact ⟨[','], by simp [fixedTokens], rfl⟩
  · exact ⟨[':'], by simp [fixedTokens], rfl⟩
  · exact ⟨['n', 'u', 'l', 'l'], by simp [fixedTokens], rfl⟩
  · exact ⟨['t', 'r', 'u', 'e'], by simp [fixedTokens], rfl⟩
  · exact ⟨['f', 'a', 'l', 's', 'e'], by simp [fixedTokens], rfl⟩

theorem length_splitFraction? {s rest : List Char} {fraction : Option (List Char)}
    (h : splitFraction? s = some (fraction, rest)) : rest.length ≤ s.length := by
  unfold splitFraction? at h
  split at h
  · next more =>
    have hmore := (List.dropWhile_suffix (l := more) Char.isDigit).length_le
    dsimp only at h
    split at h
    · cases h
    · cases h
      rw [List.length_cons]
      omega
  · cases h
    exact Nat.le_refl _

theorem length_splitExponent? {s rest : List Char} {exponent : Option (Bool × List Char)}
    (h : splitExponent? s = some (exponent, rest)) : rest.length ≤ s.length := by
  unfold splitExponent? at h
  split at h
  · next e more =>
    split at h
    · have hsign : (Binary64.splitSign more).2.length ≤ more.length := by
        unfold Binary64.splitSign
        split <;> simp
      have hmore := (List.dropWhile_suffix Char.isDigit
        (l := (Binary64.splitSign more).2)).length_le
      dsimp only at h
      split at h
      · cases h
      · cases h
        rw [List.length_cons]
        omega
    · cases h
      exact Nat.le_refl _
  · cases h
    exact Nat.le_refl _

/-- A number takes at least one digit. -/
theorem length_splitNumber? {s rest : List Char} {n : Number}
    (h : splitNumber? s = some (n, rest)) : rest.length < s.length := by
  have hminus : (splitMinus s).2.length ≤ s.length := by
    unfold splitMinus
    split <;> simp
  unfold splitNumber? at h
  dsimp only at h
  split at h
  · next hwhole =>
    obtain ⟨⟨fraction, afterFraction⟩, hfraction, h⟩ := Option.bind_eq_some_iff.mp h
    obtain ⟨⟨exponent, afterExponent⟩, hexponent, h⟩ := Option.bind_eq_some_iff.mp h
    obtain ⟨value, -, h⟩ := Option.bind_eq_some_iff.mp h
    cases h
    have hdigits : 0 < ((splitMinus s).2.takeWhile Char.isDigit).length := by
      rw [List.length_pos_iff]
      rintro hnone
      simp [hnone, isWhole] at hwhole
    have hsplit := congrArg List.length
      (List.takeWhile_append_dropWhile (p := Char.isDigit) (l := (splitMinus s).2))
    rw [List.length_append] at hsplit
    have hf := length_splitFraction? hfraction
    have he := length_splitExponent? hexponent
    dsimp only at hf he ⊢
    omega
  · cases h

theorem nextToken?_length {s tail : List Char} {token : Token}
    (h : nextToken? s = some (token, tail)) : tail.length < s.length := by
  rcases nextToken?_cases h with ⟨word, hword, rfl⟩ | ⟨t, v, -, -, rfl⟩ | ⟨n, hn, -⟩
  · have hne : word ≠ [] := by
      rintro rfl
      simp [fixedTokens] at hword
    have := List.length_pos_iff.mpr hne
    rw [List.length_append]
    omega
  · simp only [List.length_cons, List.length_append]
    omega
  · exact length_splitNumber? hn

/-! ### All tokens -/

/-- The tokens of a text. -/
inductive Lexes : List Char → List Token → Prop where
  | done {s : List Char} (hgaps : s.dropWhile isGap = []) : Lexes s []
  | token {s tail : List Char} {token : Token} {tokens : List Token}
      (hnext : nextToken? (s.dropWhile isGap) = some (token, tail)) (more : Lexes tail tokens) :
      Lexes s (token :: tokens)

theorem go_gaps {s : List Char} (hgaps : s.dropWhile isGap = []) (n : Nat) :
    tokens?.go n s = some [] := by
  unfold tokens?.go
  simp only [hgaps]

theorem go_token {s : List Char} (hstart : s.dropWhile isGap ≠ []) (n : Nat) :
    tokens?.go (n + 1) s =
      (nextToken? (s.dropWhile isGap)).bind fun p => (tokens?.go n p.2).map (p.1 :: ·) := by
  rw [tokens?.go.eq_def]
  dsimp only
  split
  · next hs => exact absurd hs hstart
  · next hzero => cases hzero
  · next hs hsteps =>
    cases hsteps
    rw [hs]
    cases nextToken? _ with
    | none => rfl
    | some p => cases h : tokens?.go n p.2 <;> simp [h]

theorem lexes_of_go {n : Nat} {s : List Char} {tokens : List Token}
    (h : tokens?.go n s = some tokens) : Lexes s tokens := by
  induction n generalizing s tokens with
  | zero =>
    by_cases hgaps : s.dropWhile isGap = []
    · rw [go_gaps hgaps] at h
      cases h
      exact .done hgaps
    · unfold tokens?.go at h
      split at h
      · next hs => exact absurd hs hgaps
      · cases h
      · next hsteps => cases hsteps
  | succ n ih =>
    by_cases hgaps : s.dropWhile isGap = []
    · rw [go_gaps hgaps] at h
      cases h
      exact .done hgaps
    · rw [go_token hgaps] at h
      obtain ⟨⟨token, tail⟩, hnext, h⟩ := Option.bind_eq_some_iff.mp h
      obtain ⟨more, hmore, rfl⟩ := Option.map_eq_some_iff.mp h
      exact .token hnext (ih hmore)

/-- As many steps as there are characters suffice. -/
theorem go_of_lexes {s : List Char} {tokens : List Token} (lexes : Lexes s tokens) {n : Nat}
    (hn : s.length ≤ n) : tokens?.go n s = some tokens := by
  induction lexes generalizing n with
  | done hgaps => exact go_gaps hgaps n
  | @token s tail token tokens hnext _ ih =>
    have hlength := nextToken?_length hnext
    have hgaps := (List.dropWhile_suffix (l := s) isGap).length_le
    have hstart : s.dropWhile isGap ≠ [] := List.ne_nil_of_length_pos (by omega)
    obtain ⟨m, rfl⟩ : ∃ m, n = m + 1 := Nat.exists_eq_add_one.mpr (by omega)
    rw [go_token hstart, hnext, Option.bind_some, ih (by omega)]
    rfl

theorem tokens?_eq_some_iff {s : List Char} {tokens : List Token} :
    tokens? s = some tokens ↔ Lexes s tokens :=
  ⟨lexes_of_go, fun lexes => go_of_lexes lexes (Nat.le_refl _)⟩

/-! ### One token in front -/

theorem Lexes.gaps {gaps rest : List Char} (hgaps : ∀ c ∈ gaps, isGap c = true)
    {tokens : List Token} (lexes : Lexes rest tokens) : Lexes (gaps ++ rest) tokens := by
  have hsame : (gaps ++ rest).dropWhile isGap = rest.dropWhile isGap :=
    List.dropWhile_append_of_pos hgaps
  cases lexes with
  | done h => exact .done (hsame.trans h)
  | token hnext more => exact .token (hsame ▸ hnext) more

theorem Lexes.of_start {c : Char} {s tail : List Char} {token : Token} {tokens : List Token}
    (hc : isGap c = false) (hnext : nextToken? (c :: s) = some (token, tail))
    (more : Lexes tail tokens) : Lexes (c :: s) (token :: tokens) := by
  refine .token ?_ more
  rwa [List.dropWhile_cons_of_neg (by simp [hc])]

theorem Lexes.fixed {word rest : List Char} {token : Token} {tokens : List Token}
    (h : (word, token) ∈ fixedTokens) (more : Lexes rest tokens) :
    Lexes (word ++ rest) (token :: tokens) := by
  have hnext := nextToken?_fixed h rest
  have hstart : ∀ w ∈ fixedTokens, ∃ c more, w.1 = c :: more ∧ isGap c = false := by
    simp [fixedTokens, isGap]
  obtain ⟨c, letters, hword, hc⟩ := hstart _ h
  rw [show word = c :: letters from hword, List.cons_append] at hnext ⊢
  exact .of_start hc hnext more

theorem Lexes.quoted {t v rest : List Char} {tokens : List Token} (body : Body t v)
    (more : Lexes rest tokens) :
    Lexes ('"' :: (t ++ '"' :: rest)) (.text (String.ofList v) :: tokens) :=
  .of_start rfl (nextToken?_quoted body rest) more

theorem Lexes.number {s rest : List Char} {n : Number} {tokens : List Token}
    (h : splitNumber? s = some (n, [])) (hrest : Stops rest) (more : Lexes rest tokens) :
    Lexes (s ++ rest) (.number n :: tokens) := by
  obtain ⟨c, tail, rfl, hc⟩ := splitNumber?_head h
  have hgap : isGap c = false := by
    rcases hc with hc | rfl
    · refine Bool.eq_false_iff.mpr fun hgap => ?_
      simp only [isGap, Bool.or_eq_true, decide_eq_true_eq] at hgap
      rcases hgap with ((rfl | rfl) | rfl) | rfl <;> cases hc
    · rfl
  have hsplit := splitNumber?_append hrest (c :: tail)
  rw [h, List.cons_append] at hsplit
  rw [List.cons_append]
  refine .of_start hgap ?_ more
  rw [nextToken?_number hc, hsplit]
  rfl

end SourceAudit.Json
