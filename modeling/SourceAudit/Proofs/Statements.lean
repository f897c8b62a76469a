/-
  SourceAudit/Proofs/Statements.lean
  ==================================
  **Statements, as they are written and read.**

  A statement is blanks, a keyword, a gap and a URI between quotes (`Directive.Written`), and
  one is read where a text begins with one (`Directive.readStatement?_eq_some_iff`).  It ends
  with the second of its two quotes.  So more text behind a text makes no statement other than
  behind the statements it has: what it reads beyond the end began where only one quote was
  left (`Directive.readStatement?_append`), and where only one is left there is nothing else
  to read (`Directive.scan_eq_nil`).  Therefore the statements of a text are the first ones of
  every text that goes on from it (`Directive.ofText_prefix`).
-/
import SourceAudit.Directive
import Mathlib.Data.List.TakeWhile

namespace SourceAudit.Directive

variable {dialect : Dialect} {skip line : Nat} {fresh : Bool}

/-! ### How a statement is written -/

/-- How a statement is written: blanks, a keyword, a gap without a quote or semicolon, and a
    URI between two quotes. -/
inductive Written (dialect : Dialect) : List Char → Reading → Prop
  | intro {indent word gap uri : List Char} {kind : DirectiveKind} {quote close : Char}
      (hindent : ∀ c ∈ indent, Text.isBlank c = true)
      (hkeyword : (word, kind) ∈ dialect.keywords)
      (hplain : ∀ c ∈ gap, isQuote c = false)
      (hgap : dialect.isGap gap = true) (hopen : ';' ∉ gap)
      (hquote : isQuote quote = true)
      (huri : ∀ c ∈ uri, dialect.endsUri c = false) (hne : uri ≠ [])
      (hclose : isQuote close = true) :
      Written dialect (indent ++ (word ++ (gap ++ quote :: (uri ++ [close]))))
        ⟨kind, indent ++ word ++ gap ++ [quote], uri⟩

theorem mem_keywords_dart {k : List Char × DirectiveKind} (hk : k ∈ dialect.keywords) :
    k = ("import".toList, .imports) ∨ k = ("export".toList, .exports) ∨
      k = ("part".toList, .part) := by
  cases dialect with
  | dart => simpa [Dialect.keywords] using hk
  | script =>
    have hfirst : k = ("import".toList, .imports) ∨ k = ("export".toList, .exports) := by
      simpa [Dialect.keywords] using hk
    exact hfirst.imp_right .inl

theorem keyword?_eq_some_iff {s rest : List Char} {k : List Char × DirectiveKind} :
    keyword? dialect s = some (k, rest) ↔ k ∈ dialect.keywords ∧ s = k.1 ++ rest := by
  constructor
  · intro h
    obtain ⟨word, hmem, hword⟩ := List.exists_of_findSome?_eq_some h
    obtain ⟨tail, htail, hpair⟩ := Option.map_eq_some_iff.mp hword
    obtain ⟨rfl, rfl⟩ := Prod.mk.inj hpair
    exact ⟨hmem, Text.afterStart?_eq_some_iff.mp htail⟩
  · -- no keyword begins like another one
    rintro ⟨hk, rfl⟩
    have himport : "import".toList = ['i', 'm', 'p', 'o', 'r', 't'] := by decide
    have hexport : "export".toList = ['e', 'x', 'p', 'o', 'r', 't'] := by decide
    have hpart : "part".toList = ['p', 'a', 'r', 't'] := by decide
    cases dialect <;>
      simp only [Dialect.keywords, List.mem_cons, List.not_mem_nil, or_false] at hk
    · rcases hk with rfl | rfl | rfl <;>
        simp [keyword?, Dialect.keywords, himport, hexport, hpart, Text.afterStart?]
    · rcases hk with rfl | rfl <;>
        simp [keyword?, Dialect.keywords, himport, hexport, Text.afterStart?]

/-- A keyword begins with a letter and has letters only. -/
theorem plain_of_mem_keywords {k : List Char × DirectiveKind} (hk : k ∈ dialect.keywords) :
    (∃ c rest, k.1 = c :: rest ∧ Text.isBlank c = false) ∧ ∀ c ∈ k.1, isQuote c = false := by
  rcases mem_keywords_dart hk with rfl | rfl | rfl
  · exact ⟨⟨'i', _, rfl, by decide⟩, by simp [isQuote]⟩
  · exact ⟨⟨'e', _, rfl, by decide⟩, by simp [isQuote]⟩
  · exact ⟨⟨'p', _, rfl, by decide⟩, by simp [isQuote]⟩

theorem not_isQuote_of_isBlank {c : Char} (hc : Text.isBlank c = true) : isQuote c = false := by
  rw [← Bool.not_eq_true, isQuote, Bool.or_eq_true, decide_eq_true_eq, decide_eq_true_eq]
  rintro (rfl | rfl)
  · exact absurd hc (by decide)
  · exact absurd hc (by decide)

/-! ### Cutting at the first character that fails a test -/

theorem dropWhile_eq_cons {p : Char → Bool} {s tail : List Char} {c : Char}
    (h : s.dropWhile p = c :: tail) :
    (∀ d ∈ s.takeWhile p, p d = true) ∧ p c = false ∧ s = s.takeWhile p ++ c :: tail := by
  have hstop := List.head?_dropWhile_not p s
  rw [h] at hstop
  refine ⟨fun d hd => List.mem_takeWhile_imp hd, hstop, ?_⟩
  rw [← h, List.takeWhile_append_dropWhile]

theorem takeWhile_of_stop {p : Char → Bool} {front : List Char} {c : Char}
    (hfront : ∀ d ∈ front, p d = true) (hstop : p c = false) (tail : List Char) :
    (front ++ c :: tail).takeWhile p = front ∧ (front ++ c :: tail).dropWhile p = c :: tail := by
  rw [List.takeWhile_append_of_pos hfront, List.dropWhile_append_of_pos hfront]
  simp [hstop]

/-- **Statements.**  What is read is what a text begins with as a statement. -/
theorem readStatement?_eq_some_iff {s : List Char} {r : Reading} :
    readStatement? dialect s = some r ↔ ∃ u, Written dialect u r ∧ u <+: s := by
  constructor
  · intro h
    rw [readStatement?] at h
    obtain ⟨⟨⟨word, kind⟩, rest⟩, hkeyword, h⟩ := Option.bind_eq_some_iff.mp h
    obtain ⟨hmem, hrest⟩ := keyword?_eq_some_iff.mp hkeyword
    have hindent := List.takeWhile_append_dropWhile (p := Text.isBlank) (l := s)
    simp only at h hrest
    split at h
    · cases h
    · next quote body hquote =>
      obtain ⟨hplain, hopens, hbody⟩ := dropWhile_eq_cons hquote
      split at h
      · cases h
      · next close tail hclose =>
        obtain ⟨huri, -, htail⟩ := dropWhile_eq_cons hclose
        split at h
        · next hformed =>
          obtain rfl := Option.some.inj h
          simp only [Bool.and_eq_true, Bool.not_eq_true', List.isEmpty_eq_false_iff,
            List.contains_eq_mem, decide_eq_false_iff_not] at hformed
          obtain ⟨⟨⟨hgap, hopen⟩, hne⟩, hends⟩ := hformed
          refine ⟨_, .intro (fun c hc => List.mem_takeWhile_imp hc) hmem ?_ hgap hopen ?_ ?_ hne
            hends, tail, ?_⟩
          · simpa using hplain
          · simpa using hopens
          · simpa using huri
          · rw [hrest, hbody, htail] at hindent
            simpa using hindent
        · cases h
  · rintro ⟨u, hwritten, tail, rfl⟩
    obtain @⟨indent, word, gap, uri, kind, quote, close, hindent, hkeyword, hplain, hgap, hopen,
      hquote, huri, hne, hclose⟩ := hwritten
    obtain ⟨⟨first, letters, hword, hfirst⟩, -⟩ := plain_of_mem_keywords hkeyword
    obtain rfl : word = first :: letters := hword
    have hends : dialect.endsUri close = true := by simp [Dialect.endsUri, hclose]
    obtain ⟨htake, hdrop⟩ := takeWhile_of_stop hindent hfirst
      (letters ++ (gap ++ quote :: (uri ++ close :: tail)))
    obtain ⟨htake', hdrop'⟩ := takeWhile_of_stop (p := fun c => !isQuote c) (c := quote)
      (by simpa using hplain) (by simp [hquote]) (uri ++ close :: tail)
    obtain ⟨htake'', hdrop''⟩ := takeWhile_of_stop (p := fun c => !dialect.endsUri c) (c := close)
      (by simpa using huri) (by simp [hends]) tail
    have hread := keyword?_eq_some_iff.mpr
      ⟨hkeyword, Eq.refl ((first :: letters) ++ (gap ++ quote :: (uri ++ close :: tail)))⟩
    have hs : indent ++ (first :: letters ++ (gap ++ quote :: (uri ++ [close]))) ++ tail =
        indent ++ first :: (letters ++ (gap ++ quote :: (uri ++ close :: tail))) := by simp
    rw [List.cons_append] at hread
    rw [hs, readStatement?, htake, hdrop, hread]
    simp only [Option.bind_eq_bind, Option.bind_some, htake', hdrop', htake'', hdrop'']
    rw [if_pos (by simp [hgap, hopen, hne, hclose])]

namespace Written

variable {u : List Char} {r : Reading} (h : Written dialect u r)

include h

theorem before_ne_nil : r.before ≠ [] := by
  cases h with
  | intro => simp

/-- A statement has one quote in front of its URI and one behind it, and no other. -/
theorem exists_quotes : ∃ lead quote close, r.before = lead ++ [quote] ∧
    u = lead ++ quote :: (r.uri ++ [close]) ∧ (∀ c ∈ lead, isQuote c = false) ∧
    isQuote quote = true ∧ (∀ c ∈ r.uri, isQuote c = false) ∧ isQuote close = true := by
  obtain @⟨indent, word, gap, uri, kind, quote, close, hindent, hkeyword, hplain, -, -, hquote,
    huri, -, hclose⟩ := h
  refine ⟨indent ++ word ++ gap, quote, close, rfl, by simp, ?_, hquote, ?_, hclose⟩
  · simp only [List.mem_append]
    rintro c ((hc | hc) | hc)
    · exact not_isQuote_of_isBlank (hindent c hc)
    · exact (plain_of_mem_keywords hkeyword).2 c hc
    · exact hplain c hc
  · intro c hc
    exact (Bool.or_eq_false_iff.mp (huri c hc)).1

/-- The last quote ends a statement, and before it stands one other quote. -/
theorem exists_close : ∃ close, isQuote close = true ∧ u = r.before ++ r.uri ++ [close] ∧
    (r.before ++ r.uri).countP isQuote = 1 := by
  obtain ⟨lead, quote, close, hbefore, hu, hplain, hquote, huri, hclose⟩ := h.exists_quotes
  have hnone {l : List Char} (hl : ∀ c ∈ l, isQuote c = false) : l.countP isQuote = 0 := by
    rw [List.countP_eq_zero]
    intro c hc
    simp [hl c hc]
  refine ⟨close, hclose, by simp [hu, hbefore], ?_⟩
  simp [hbefore, hnone hplain, hnone huri, hquote]

end Written

/-! ### Text that goes on -/

/-- A statement that more text makes out of the end of a text leaves one quote there. -/
theorem readStatement?_append (s t : List Char) :
    readStatement? dialect (s ++ t) = readStatement? dialect s ∨
      readStatement? dialect s = none ∧ s.countP isQuote ≤ 1 := by
  cases hread : readStatement? dialect s with
  | some r =>
    obtain ⟨u, hwritten, hfront⟩ := readStatement?_eq_some_iff.mp hread
    refine .inl (readStatement?_eq_some_iff.mpr ⟨u, hwritten, ?_⟩)
    exact hfront.trans (List.prefix_append s t)
  | none =>
    cases hmore : readStatement? dialect (s ++ t) with
    | none => exact .inl rfl
    | some r =>
      obtain ⟨u, hwritten, hfront⟩ := readStatement?_eq_some_iff.mp hmore
      have hbehind : ¬ u <+: s := by
        intro hinside
        rw [readStatement?_eq_some_iff.mpr ⟨u, hwritten, hinside⟩] at hread
        cases hread
      obtain ⟨close, -, hu, hcount⟩ := hwritten.exists_close
      rcases List.prefix_or_prefix_of_prefix hfront (List.prefix_append s t) with hinside | hcut
      · exact absurd hinside hbehind
      · rw [hu, List.prefix_concat_iff] at hcut
        rcases hcut with hwhole | hcut
        · exact absurd (hwhole ▸ hu ▸ List.prefix_rfl) hbehind
        · exact .inr ⟨rfl, hcount ▸ hcut.sublist.countP_le⟩

/-- A text with one quote has no statement. -/
theorem scan_eq_nil {s : List Char} (hquotes : s.countP isQuote ≤ 1) :
    scan dialect skip line fresh s = [] := by
  induction s generalizing skip line fresh with
  | nil => rw [scan]
  | cons c rest ih =>
    have hrest : rest.countP isQuote ≤ 1 :=
      Nat.le_trans (List.sublist_cons_self c rest).countP_le hquotes
    have hnone : readStatement? dialect (c :: rest) = none := by
      rw [Option.eq_none_iff_forall_ne_some]
      intro r hread
      obtain ⟨u, hwritten, hfront⟩ := readStatement?_eq_some_iff.mp hread
      obtain ⟨close, hclose, hu, hcount⟩ := hwritten.exists_close
      have htwo : u.countP isQuote = 2 := by
        rw [hu, List.countP_append, hcount]
        simp [hclose]
      have hle := hfront.sublist.countP_le (p := isQuote)
      omega
    cases skip with
    | succ skip =>
      rw [scan]
      exact ih hrest
    | zero =>
      simp only [scan, hnone, ite_self]
      exact ih hrest

theorem scan_prefix (s t : List Char) :
    scan dialect skip line fresh s <+: scan dialect skip line fresh (s ++ t) := by
  induction s generalizing skip line fresh with
  | nil =>
    rw [scan]
    exact List.nil_prefix
  | cons c rest ih =>
    cases skip with
    | succ skip =>
      rw [List.cons_append, scan, scan]
      exact ih
    | zero =>
      cases fresh with
      | false =>
        simp only [List.cons_append, scan, Bool.false_eq_true, if_false]
        exact ih
      | true =>
        rcases readStatement?_append (c :: rest) t with hsame | ⟨-, hquotes⟩
        · rw [List.cons_append] at hsame ⊢
          rw [scan, scan, if_pos rfl, if_pos rfl, hsame]
          cases readStatement? dialect (c :: rest) with
          | none => exact ih
          | some r => exact List.cons_prefix_cons.mpr ⟨rfl, ih⟩
        · rw [scan_eq_nil hquotes]
          exact List.nil_prefix

/-- **More text.**  The statements of a text are the first statements of every text that goes
    on from it. -/
theorem ofText_prefix (dialect : Dialect) (s t : List Char) :
    ofText dialect s <+: ofText dialect (s ++ t) :=
  scan_prefix s t

end SourceAudit.Directive
