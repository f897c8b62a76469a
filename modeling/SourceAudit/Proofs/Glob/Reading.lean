/-
  SourceAudit/Proofs/Glob/Reading.lean
  ====================================
  **Reading a pattern keeps its language.**

  The reader goes through a pattern once, with the tokens so far in reverse, and drops
  a `**` right behind another one.  `Reads` relates a pattern to its tokens without
  that: one rule for each piece of a pattern, every `**` kept.

    * what the reader accepts is related to tokens       — `exists_reads`;
    * dropping repeated `**` changes nothing             — `matches_pushAll`;
    * related tokens stand for the same texts            — `matches_iff_denotes`;
    * and have every `**` at the beginning of a segment  — `placed_of_reads`;
    * the reader accepts every pattern that has tokens   — `readable_iff`.
-/
import SourceAudit.Proofs.Glob.Search

namespace SourceAudit.Glob

/-! ### A pattern and its tokens -/

/-- The tokens of a pattern, piece by piece; the flag says whether a segment begins. -/
inductive Reads : Bool → List Char → List Token → Prop
  | nil {start : Bool} : Reads start [] []
  | literal {start : Bool} {c : Char} {p : List Char} {ts : List Token} :
      c ≠ '*' → c ≠ '?' → c ≠ '[' → Reads (c = '/') p ts →
      Reads start (c :: p) (.literal c :: ts)
  | anyChar {start : Bool} {p : List Char} {ts : List Token} : Reads false p ts →
      Reads start ('?' :: p) (.anyChar :: ts)
  | anyRun {start : Bool} {p : List Char} {ts : List Token} : p.head? ≠ some '*' →
      Reads false p ts → Reads start ('*' :: p) (.anyRun :: ts)
  | segments {p : List Char} {ts : List Token} : Reads true p ts →
      Reads true ('*' :: '*' :: '/' :: p) (.anySegments :: ts)
  | last : Reads true ['*', '*'] [.anySegments]
  | inside {start : Bool} {body p : List Char} {ts : List Token} : IsClassBody body →
      body.head? ≠ some '!' → Reads false p ts →
      Reads start ('[' :: (body ++ ']' :: p)) (.oneOf (classItems body) :: ts)
  | outside {start : Bool} {body p : List Char} {ts : List Token} : IsClassBody body →
      Reads false p ts →
      Reads start ('[' :: '!' :: (body ++ ']' :: p)) (.noneOf (classItems body) :: ts)

def pushToken (acc : List Token) : Token → List Token
  | .anySegments => pushSegments acc
  | token => token :: acc

def pushAll (acc ts : List Token) : List Token := ts.foldl pushToken acc

/-! ### The reader -/

def classToken (negated : Bool) (body : List Char) : Token :=
  if negated then .noneOf (classItems body) else .oneOf (classItems body)

/-- A class that has begun ends at the next `]`. -/
theorem readFrom_inClass {opened position : Nat} {negated : Bool} {previous : Option Char}
    {d : Char} {content p : List Char} {acc ts : List Token}
    (h : readFrom (.inClass opened negated (d :: content)) position previous acc p = .ok ts) :
    ∃ body rest position, p = body ++ ']' :: rest ∧ ']' ∉ body ∧
      readFrom .outside position (some ']')
        (classToken negated ((d :: content).reverse ++ body) :: acc) rest = .ok ts := by
  induction p generalizing d content position previous with
  | nil => cases h
  | cons c p ih =>
    simp only [readFrom] at h
    split at h
    · next hc =>
      subst hc
      refine ⟨[], p, position + 1, rfl, by simp, ?_⟩
      simpa [classToken] using h
    · next hc =>
      obtain ⟨body, rest, position, rfl, hbody, hrest⟩ := ih h
      refine ⟨c :: body, rest, position, rfl, by simp [hbody, Ne.symm hc], ?_⟩
      simpa using hrest

/-- The first character of a class belongs to it, unless it is a `!`. -/
theorem readFrom_openedClass {opened position : Nat} {previous : Option Char}
    {p : List Char} {acc ts : List Token}
    (h : readFrom (.inClass opened false []) position previous acc p = .ok ts) :
    ∃ negated body rest position,
      p = (if negated then ['!'] else []) ++ body ++ ']' :: rest ∧ IsClassBody body ∧
        (negated = false → body.head? ≠ some '!') ∧
        readFrom .outside position (some ']') (classToken negated body :: acc) rest = .ok ts := by
  have hfirst {negated : Bool} {position : Nat} {previous : Option Char} {c : Char}
      {p : List Char}
      (h : readFrom (.inClass opened negated [c]) position previous acc p = .ok ts) :
      ∃ body rest position, p = body ++ ']' :: rest ∧ IsClassBody (c :: body) ∧
        readFrom .outside position (some ']') (classToken negated (c :: body) :: acc) rest =
          .ok ts := by
    obtain ⟨body, rest, position, rfl, hbody, hrest⟩ := readFrom_inClass h
    exact ⟨body, rest, position, rfl, ⟨by simp, hbody⟩, hrest⟩
  cases p with
  | nil => cases h
  | cons c p =>
    rw [readFrom] at h
    split at h
    · next hc =>
      obtain rfl : c = '!' := by simpa using hc
      cases p with
      | nil => cases h
      | cons d p =>
        rw [readFrom] at h
        obtain ⟨body, rest, position, rfl, hbody, hrest⟩ := hfirst (by simpa using h)
        exact ⟨true, d :: body, rest, position, rfl, hbody, by simp, hrest⟩
    · next hc =>
      obtain ⟨body, rest, position, rfl, hbody, hrest⟩ := hfirst h
      exact ⟨false, c :: body, rest, position, rfl, hbody, by simpa using hc, hrest⟩

/-- The token of a character that opens no class and is no part of `**`. -/
def plainToken (c : Char) : Token :=
  if c = '?' then .anyChar else if c = '*' then .anyRun else .literal c

/-- The reader at a character that is no part of `**`. -/
theorem readFrom_plain {position : Nat} {previous : Option Char} {acc : List Token} {c : Char}
    {p : List Char} (hstars : c = '*' → p.head? ≠ some '*') :
    readFrom .outside position previous acc (c :: p) =
      if c = '[' then readFrom (.inClass position false []) (position + 1) (some c) acc p
      else readFrom .outside (position + 1) (some c) (plainToken c :: acc) p := by
  by_cases hq : c = '?'
  · subst hq
    simp [readFrom, plainToken]
  by_cases hs : c = '*'
  · subst hs
    cases p with
    | nil => simp [readFrom, plainToken]
    | cons d p =>
      have hd : d ≠ '*' := fun hd => hstars rfl (by simp [hd])
      simp [readFrom, plainToken, hd]
  · simp [readFrom, plainToken, hq, hs]

/-- A `**` that is accepted begins a segment and ends the pattern or comes before a slash. -/
theorem readFrom_stars {position : Nat} {previous : Option Char} {acc ts : List Token}
    {p : List Char}
    (h : readFrom .outside position previous acc ('*' :: '*' :: p) = .ok ts) :
    startsSegment previous = true ∧
      (p = [] ∧ ts = (pushSegments acc).reverse ∨
        ∃ rest, p = '/' :: rest ∧
          readFrom .outside (position + 3) (some '/') (pushSegments acc) rest = .ok ts) := by
  cases p with
  | nil =>
    simp only [readFrom] at h
    split at h
    · next hstart => exact ⟨hstart, .inl ⟨rfl, (Except.ok.inj h).symm⟩⟩
    · cases h
  | cons c p =>
    by_cases hslash : c = '/'
    · subst hslash
      simp only [readFrom] at h
      split at h
      · next hstart => exact ⟨hstart, .inr ⟨p, rfl, h⟩⟩
      · cases h
    · by_cases hstar : c = '*'
      · subst hstar
        cases h
      · simp [readFrom] at h

/-- A plain character adds its token. -/
theorem reads_plain {start : Bool} {c : Char} {p : List Char} {ts : List Token} (hopen : c ≠ '[')
    (hstars : c = '*' → p.head? ≠ some '*') (hread : Reads (c = '/') p ts) :
    Reads start (c :: p) (plainToken c :: ts) := by
  by_cases hq : c = '?'
  · subst hq
    exact .anyChar hread
  by_cases hs : c = '*'
  · subst hs
    exact .anyRun (hstars rfl) hread
  · simpa [plainToken, hq, hs] using Reads.literal hs hq hopen hread

theorem pushAll_plain (acc ts : List Token) (c : Char) :
    pushAll acc (plainToken c :: ts) = pushAll (plainToken c :: acc) ts := by
  simp only [plainToken]
  split
  · rfl
  · split <;> rfl

/-- What the reader accepts has tokens, and these are pushed one by one. -/
theorem exists_reads {p : List Char} {position : Nat} {previous : Option Char}
    {acc ts : List Token} (h : readFrom .outside position previous acc p = .ok ts) :
    ∃ read, Reads (startsSegment previous) p read ∧ ts = (pushAll acc read).reverse := by
  induction hlength : p.length using Nat.strong_induction_on generalizing p position previous acc
  next n ih =>
  subst hlength
  cases p with
  | nil => exact ⟨[], .nil, by simpa [readFrom, pushAll] using h.symm⟩
  | cons c p =>
    by_cases hstars : c = '*' ∧ p.head? = some '*'
    · obtain ⟨rfl, hnext⟩ := hstars
      obtain ⟨p, rfl⟩ := List.head?_eq_some_iff.mp hnext
      obtain ⟨hstart, ⟨rfl, rfl⟩ | ⟨rest, rfl, hrest⟩⟩ := readFrom_stars h
      · exact ⟨[.anySegments], hstart ▸ .last, rfl⟩
      · obtain ⟨read, hread, rfl⟩ := ih _ (by simp; omega) hrest rfl
        exact ⟨.anySegments :: read, hstart ▸ .segments hread, rfl⟩
    rw [readFrom_plain fun hc hnext => hstars ⟨hc, hnext⟩] at h
    split at h
    · next hopen =>
      subst hopen
      obtain ⟨negated, body, rest, position, rfl, hbody, hmark, hrest⟩ := readFrom_openedClass h
      obtain ⟨read, hread, rfl⟩ := ih rest.length (by simp; omega) hrest rfl
      refine ⟨classToken negated body :: read, ?_, by cases negated <;> rfl⟩
      cases negated with
      | false => exact .inside hbody (hmark rfl) hread
      | true => exact .outside hbody hread
    · next hopen =>
      obtain ⟨read, hread, rfl⟩ := ih p.length (by simp) h rfl
      refine ⟨plainToken c :: read, ?_, by rw [pushAll_plain]⟩
      have hread : Reads (c = '/') p read := by simpa [startsSegment] using hread
      exact reads_plain hopen (fun hc hnext => hstars ⟨hc, hnext⟩) hread

/-! ### Repeated `**` -/

/-- What holds of tokens and survives when one of two `**` in a row is dropped holds of
    what the reader makes of them. -/
theorem pushAll_induction {P : List Token → Prop}
    (hdrop : ∀ r ts, P (r ++ .anySegments :: .anySegments :: ts) → P (r ++ .anySegments :: ts))
    {acc ts : List Token} (h : P (acc.reverse ++ ts)) : P (pushAll acc ts).reverse := by
  induction ts generalizing acc with
  | nil => simpa [pushAll] using h
  | cons token ts ih =>
    have hpush (hkeep : pushToken acc token = token :: acc) :
        P (pushAll acc (token :: ts)).reverse := by
      rw [pushAll, List.foldl_cons, hkeep]
      exact ih (by simpa using h)
    cases token with
    | anySegments =>
      by_cases hrepeated : ∃ before rest, acc = .anySegments :: before :: rest
      · obtain ⟨before, rest, rfl⟩ := hrepeated
        have hshort := hdrop (before :: rest).reverse ts (by simpa using h)
        have hacc : P ((.anySegments :: before :: rest : List Token).reverse ++ ts) := by
          simpa using hshort
        exact ih hacc
      · refine hpush ?_
        rw [pushToken, pushSegments]
        rintro before rest rfl
        exact hrepeated ⟨before, rest, rfl⟩
    | _ => exact hpush rfl

/-- Tokens in front do not tell apart two lists of tokens that stand for the same texts. -/
theorem matches_append_congr {a b : List Token} (ha : a ≠ []) (hb : b ≠ [])
    (h : ∀ t, Matches a t ↔ Matches b t) (r : List Token) (t : List Char) :
    Matches (r ++ a) t ↔ Matches (r ++ b) t := by
  induction r generalizing t with
  | nil => exact h t
  | cons token r ih =>
    have hra : r ++ a ≠ [] := by simp [ha]
    have hrb : r ++ b ≠ [] := by simp [hb]
    cases token with
    | anySegments => simp only [List.cons_append, Matches, ih, hra, hrb, false_or]
    | _ => simp only [List.cons_append, Matches, ih]

theorem matches_repeated (ts : List Token) (t : List Char) :
    Matches (.anySegments :: .anySegments :: ts) t ↔ Matches (.anySegments :: ts) t := by
  constructor
  · rintro (hnil | ⟨s, u, rfl, hs, hlast | ⟨s', u, rfl, hs', hu⟩⟩)
    · cases hnil
    · exact .inl hlast
    · exact .inr ⟨s ++ s', u, by simp, hs.append hs', hu⟩
  · intro h
    exact .inr ⟨[], t, rfl, .none, h⟩

/-- What the reader makes of tokens stands for the same texts. -/
theorem matches_pushAll (ts : List Token) (t : List Char) :
    Matches (pushAll [] ts).reverse t ↔ Matches ts t := by
  refine pushAll_induction (P := fun l => Matches l t ↔ Matches ts t) ?_ (by simp)
  intro r rest h
  rw [← h]
  exact (matches_append_congr (by simp) (by simp) (matches_repeated rest) r t).symm

/-! ### Where `**` stands -/

theorem placed_cons {token : Token} {ts : List Token} (hts : Placed ts)
    (hslash : StartsWide ts → token = .literal '/' ∨ token = .anySegments) :
    Placed (token :: ts) := by
  refine List.isChain_cons.mpr ⟨?_, hts⟩
  rintro next hnext rfl
  exact hslash hnext

theorem placed_cons_of_narrow {token : Token} {ts : List Token} (hts : Placed ts)
    (hnarrow : StartsWide ts → false = true) : Placed (token :: ts) :=
  placed_cons hts fun hwide => absurd (hnarrow hwide) (by simp)

/-- The tokens of a pattern have every `**` at the beginning of a segment. -/
theorem placed_of_reads {start : Bool} {p : List Char} {ts : List Token}
    (h : Reads start p ts) : Placed ts ∧ (StartsWide ts → start = true) := by
  induction h with
  | nil => exact ⟨List.IsChain.nil, by simp [StartsWide]⟩
  | literal _ _ _ _ ih =>
    refine ⟨placed_cons ih.1 fun hwide => .inl ?_, by simp [StartsWide]⟩
    simpa using ih.2 hwide
  | anyChar _ ih => exact ⟨placed_cons_of_narrow ih.1 ih.2, by simp [StartsWide]⟩
  | anyRun _ _ ih => exact ⟨placed_cons_of_narrow ih.1 ih.2, by simp [StartsWide]⟩
  | segments _ ih => exact ⟨placed_cons ih.1 fun _ => .inr rfl, fun _ => rfl⟩
  | last => exact ⟨List.IsChain.singleton _, fun _ => rfl⟩
  | inside _ _ _ ih => exact ⟨placed_cons_of_narrow ih.1 ih.2, by simp [StartsWide]⟩
  | outside _ _ ih => exact ⟨placed_cons_of_narrow ih.1 ih.2, by simp [StartsWide]⟩

theorem placed_pushAll {ts : List Token} (hts : Placed ts) : Placed (pushAll [] ts).reverse := by
  refine pushAll_induction ?_ (by simpa using hts)
  intro r rest h
  rw [Placed, List.isChain_split] at *
  exact ⟨h.1, h.2.tail⟩

/-! ### The language of a pattern and of its tokens -/

/-- A text without `]` is found in front of the first `]`. -/
theorem append_close_inj {l l' p p' : List Char} (hl : ']' ∉ l) (hl' : ']' ∉ l')
    (h : l ++ ']' :: p = l' ++ ']' :: p') : l = l' ∧ p = p' := by
  induction l generalizing l' with
  | nil =>
    cases l' with
    | nil => simpa using h
    | cons d l' =>
      simp only [List.nil_append, List.cons_append, List.cons.injEq] at h
      exact absurd (h.1 ▸ List.mem_cons_self) hl'
  | cons d l ih =>
    cases l' with
    | nil =>
      simp only [List.nil_append, List.cons_append, List.cons.injEq] at h
      exact absurd (h.1 ▸ List.mem_cons_self) hl
    | cons d' l' =>
      simp only [List.cons_append, List.cons.injEq] at h
      obtain ⟨rfl, h⟩ := h
      obtain ⟨rfl, rfl⟩ := ih (fun hmem => hl (.tail _ hmem)) (fun hmem => hl' (.tail _ hmem)) h
      exact ⟨rfl, rfl⟩

/-- A class ends at the first `]` behind its first character. -/
theorem IsClassBody.unique {body body' p p' : List Char} (hbody : IsClassBody body)
    (hbody' : IsClassBody body') (h : body ++ ']' :: p = body' ++ ']' :: p') :
    body = body' ∧ p = p' := by
  obtain ⟨c, tail, rfl⟩ := List.exists_cons_of_ne_nil hbody.ne_nil
  obtain ⟨c', tail', rfl⟩ := List.exists_cons_of_ne_nil hbody'.ne_nil
  simp only [List.cons_append, List.cons.injEq] at h
  obtain ⟨rfl, h⟩ := h
  obtain ⟨rfl, rfl⟩ := append_close_inj hbody.no_close hbody'.no_close h
  exact ⟨rfl, rfl⟩

section Inversion

variable {o : Bool} {p t : List Char}

theorem denotes_literal {c : Char} (hstar : c ≠ '*') (hquestion : c ≠ '?') (hopen : c ≠ '[') :
    Denotes o (c :: p) t ↔ ∃ u, t = c :: u ∧ Denotes o p u := by
  constructor
  · intro h
    cases h with
    | literal _ _ _ hu => exact ⟨_, rfl, hu⟩
    | anyChar => exact absurd rfl hquestion
    | anyRun => exact absurd rfl hstar
    | segments => exact absurd rfl hstar
    | everything => exact absurd rfl hstar
    | everythingBelow => exact absurd rfl hstar
    | inside => exact absurd rfl hopen
    | outside => exact absurd rfl hopen
  · rintro ⟨u, rfl, hu⟩
    exact .literal hstar hquestion hopen hu

theorem denotes_anyChar :
    Denotes o ('?' :: p) t ↔ ∃ c u, t = c :: u ∧ c ≠ '/' ∧ Denotes o p u := by
  constructor
  · intro h
    cases h with
    | literal _ hquestion _ _ => exact absurd rfl hquestion
    | anyChar hc hu => exact ⟨_, _, rfl, hc, hu⟩
  · rintro ⟨c, u, rfl, hc, hu⟩
    exact .anyChar hc hu

theorem denotes_anyRun (hstars : p.head? ≠ some '*') :
    Denotes o ('*' :: p) t ↔ ∃ run u, t = run ++ u ∧ '/' ∉ run ∧ Denotes o p u := by
  constructor
  · intro h
    cases h with
    | literal hstar => exact absurd rfl hstar
    | anyRun hrun _ hu => exact ⟨_, _, rfl, hrun, hu⟩
    | segments => exact absurd rfl hstars
    | everything => exact absurd rfl hstars
    | everythingBelow => exact absurd rfl hstars
  · rintro ⟨run, u, rfl, hrun, hu⟩
    exact .anyRun hrun hstars hu

theorem denotes_segments :
    Denotes o ('*' :: '*' :: '/' :: p) t ↔
      (o = true ∧ p = []) ∨ ∃ s u, t = s ++ u ∧ WholeSegments s ∧ Denotes o p u := by
  constructor
  · intro h
    cases h with
    | literal hstar => exact absurd rfl hstar
    | anyRun _ hstars => exact absurd rfl hstars
    | segments hs hu => exact .inr ⟨_, _, rfl, hs, hu⟩
    | everythingBelow ho => exact .inl ⟨ho, rfl⟩
  · rintro (⟨ho, rfl⟩ | ⟨s, u, rfl, hs, hu⟩)
    · exact .everythingBelow ho
    · exact .segments hs hu

theorem denotes_class {q : List Char} :
    Denotes o ('[' :: q) t ↔
      ∃ body p c u, IsClassBody body ∧ t = c :: u ∧ c ≠ '/' ∧ Denotes o p u ∧
        (q = body ++ ']' :: p ∧ body.head? ≠ some '!' ∧ InClass body c ∨
          q = '!' :: (body ++ ']' :: p) ∧ ¬ InClass body c) := by
  constructor
  · intro h
    cases h with
    | literal _ _ hopen => exact absurd rfl hopen
    | inside hbody hmark hc hclass hu =>
      exact ⟨_, _, _, _, hbody, rfl, hc, hu, .inl ⟨rfl, hmark, hclass⟩⟩
    | outside hbody hc hclass hu =>
      exact ⟨_, _, _, _, hbody, rfl, hc, hu, .inr ⟨rfl, hclass⟩⟩
  · rintro ⟨body, p, c, u, hbody, rfl, hc, hu, ⟨rfl, hmark, hclass⟩ | ⟨rfl, hclass⟩⟩
    · exact .inside hbody hmark hc hclass hu
    · exact .outside hbody hc hclass hu

end Inversion

theorem denotes_inside {o : Bool} {body p t : List Char} (hbody : IsClassBody body)
    (hmark : body.head? ≠ some '!') :
    Denotes o ('[' :: (body ++ ']' :: p)) t ↔
      ∃ c u, t = c :: u ∧ c ≠ '/' ∧ InClass body c ∧ Denotes o p u := by
  rw [denotes_class]
  constructor
  · rintro ⟨body', p', c, u, hbody', rfl, hc, hu, ⟨heq, -, hclass⟩ | ⟨heq, -⟩⟩
    · obtain ⟨rfl, rfl⟩ := hbody.unique hbody' heq
      exact ⟨c, u, rfl, hc, hclass, hu⟩
    · obtain ⟨d, tail, rfl⟩ := List.exists_cons_of_ne_nil hbody.ne_nil
      exact absurd (congrArg List.head? heq) hmark
  · rintro ⟨c, u, rfl, hc, hclass, hu⟩
    exact ⟨body, p, c, u, hbody, rfl, hc, hu, .inl ⟨rfl, hmark, hclass⟩⟩

theorem denotes_outside {o : Bool} {body p t : List Char} (hbody : IsClassBody body) :
    Denotes o ('[' :: '!' :: (body ++ ']' :: p)) t ↔
      ∃ c u, t = c :: u ∧ c ≠ '/' ∧ ¬ InClass body c ∧ Denotes o p u := by
  rw [denotes_class]
  constructor
  · rintro ⟨body', p', c, u, hbody', rfl, hc, hu, ⟨heq, hmark, -⟩ | ⟨heq, hclass⟩⟩
    · obtain ⟨d, tail, rfl⟩ := List.exists_cons_of_ne_nil hbody'.ne_nil
      exact absurd (congrArg List.head? heq).symm hmark
    · obtain ⟨rfl, rfl⟩ := hbody.unique hbody' (List.cons.inj heq).2
      exact ⟨c, u, rfl, hc, hclass, hu⟩
  · rintro ⟨c, u, rfl, hc, hclass, hu⟩
    exact ⟨body, p, c, u, hbody, rfl, hc, hu, .inr ⟨rfl, hclass⟩⟩

theorem denotes_nil {o : Bool} {t : List Char} : Denotes o [] t ↔ t = [] := by
  constructor
  · intro h
    cases h
    rfl
  · rintro rfl
    exact .nil

theorem nil_of_reads_nil {start : Bool} {p : List Char} (h : Reads start p []) : p = [] := by
  cases h
  rfl

/-- **Same texts.**  The tokens of a pattern stand for the texts the pattern stands for,
    when a `**/` at its end is read as `**`. -/
theorem matches_iff_denotes {start : Bool} {p : List Char} {ts : List Token}
    (h : Reads start p ts) (t : List Char) : Matches ts t ↔ Denotes true p t := by
  induction h generalizing t with
  | nil => rw [denotes_nil, Matches]
  | literal hstar hquestion hopen _ ih =>
    simp [denotes_literal hstar hquestion hopen, Matches, Token.accepts, ih]
  | anyChar _ ih => simp [denotes_anyChar, Matches, Token.accepts, ih]
  | anyRun hstars _ ih => simp [denotes_anyRun hstars, Matches, ih]
  | @segments p ts hread ih =>
    rw [denotes_segments, Matches]
    have hnil : ts = [] ↔ p = [] := by
      constructor
      · rintro rfl
        exact nil_of_reads_nil hread
      · rintro rfl
        cases hread
        rfl
    simp [hnil, ih]
  | last => exact ⟨fun _ => .everything, fun _ => .inl rfl⟩
  | inside hbody hmark _ ih =>
    simp [denotes_inside hbody hmark, Matches, Token.accepts, ih, inClass_iff, and_assoc]
  | outside hbody _ ih =>
    simp [denotes_outside hbody, Matches, Token.accepts, ih, inClass_iff, and_assoc]

/-- **A pattern that can be read matches its language.** -/
theorem matchesText_iff_denotes {pattern : String} {glob : Glob} (h : read pattern = .ok glob)
    (t : List Char) :
    glob.matchesText .separate t = true ↔ Denotes true pattern.toList t := by
  obtain ⟨ts, hts, rfl⟩ : ∃ ts, readFrom .outside 0 none [] pattern.toList = .ok ts ∧
      Glob.mk ts = glob := by
    rw [read] at h
    cases hread : readFrom .outside 0 none [] pattern.toList with
    | error e => simp [hread, Except.map] at h
    | ok ts => exact ⟨ts, rfl, by simpa [hread, Except.map] using h⟩
  obtain ⟨ts, hreads, rfl⟩ := exists_reads hts
  rw [matchesText, decide_eq_true_eq,
    matchTokens_found_iff (placed_pushAll (placed_of_reads hreads).1), matches_pushAll,
    matches_iff_denotes hreads]

/-! ### What the reader accepts -/

/-- A class that has begun is read up to the next `]`. -/
theorem readFrom_rest_of_class (opened position : Nat) (negated : Bool) (previous : Option Char)
    (d : Char) (content p : List Char) (acc : List Token) {body : List Char} (hbody : ']' ∉ body) :
    ∃ position' token, readFrom (.inClass opened negated (d :: content)) position previous acc
        (body ++ ']' :: p) = readFrom .outside position' (some ']') (token :: acc) p := by
  induction body generalizing d content position previous with
  | nil =>
    refine ⟨position + 1, classToken negated (d :: content).reverse, ?_⟩
    simp [readFrom, classToken]
  | cons c body ih =>
    rw [List.mem_cons, not_or] at hbody
    obtain ⟨position', token, hrest⟩ := ih (position + 1) (some c) c (d :: content) hbody.2
    refine ⟨position', token, ?_⟩
    rw [List.cons_append, readFrom, if_neg (Ne.symm hbody.1)]
    · exact hrest
    · simp

/-- The body of a class is read up to the `]` behind it, if nothing in it is taken for the mark
    of a negated class. -/
theorem readFrom_class (opened position : Nat) (negated : Bool) (previous : Option Char)
    (p : List Char) (acc : List Token) {body : List Char} (hbody : IsClassBody body)
    (hmark : negated = false → body.head? ≠ some '!') :
    ∃ position' token, readFrom (.inClass opened negated []) position previous acc
        (body ++ ']' :: p) = readFrom .outside position' (some ']') (token :: acc) p := by
  obtain ⟨c, rest, rfl⟩ := List.exists_cons_of_ne_nil hbody.ne_nil
  have hfirst : (c = '!' && !negated) = false := by
    cases negated with
    | true => simp
    | false => simpa using hmark rfl
  obtain ⟨position', token, hrest⟩ := readFrom_rest_of_class opened (position + 1) negated (some c)
    c [] p acc hbody.no_close
  refine ⟨position', token, ?_⟩
  rw [List.cons_append, readFrom, if_neg (by simp [hfirst])]
  exact hrest

/-- The reader accepts what is in the grammar, whatever it read before. -/
theorem readFrom_of_reads {start : Bool} {p : List Char} {ts : List Token}
    (h : Reads start p ts) (position : Nat) (previous : Option Char) (acc : List Token)
    (hstart : startsSegment previous = start) :
    ∃ tokens, readFrom .outside position previous acc p = .ok tokens := by
  induction h generalizing position previous acc with
  | nil => exact ⟨_, by rw [readFrom]⟩
  | @literal _ c _ _ hstar _ hopen _ ih =>
    rw [readFrom_plain fun hc => absurd hc hstar, if_neg hopen]
    exact ih _ _ _ rfl
  | anyChar _ ih =>
    rw [readFrom_plain fun hc => absurd hc (by decide), if_neg (by decide)]
    exact ih _ _ _ rfl
  | anyRun hstars _ ih =>
    rw [readFrom_plain fun _ => hstars, if_neg (by decide)]
    exact ih _ _ _ rfl
  | segments _ ih =>
    rw [readFrom, if_pos hstart]
    exact ih _ _ _ rfl
  | last => exact ⟨_, by rw [readFrom, if_pos hstart]⟩
  | @inside _ body p _ hbody hmark _ ih =>
    obtain ⟨position', token, hclass⟩ := readFrom_class position (position + 1) false (some '[') p
      acc hbody fun _ => hmark
    rw [readFrom_plain fun hc => absurd hc (by decide), if_pos rfl, hclass]
    exact ih _ _ _ rfl
  | @outside _ body p _ hbody _ ih =>
    obtain ⟨position', token, hclass⟩ := readFrom_class position (position + 1 + 1) true (some '!')
      p acc hbody (by simp)
    rw [readFrom_plain fun hc => absurd hc (by decide), if_pos rfl, readFrom,
      if_pos (by decide), hclass]
    exact ih _ _ _ rfl

/-- **The patterns that can be read.** -/
theorem readable_iff {s : String} :
    (∃ glob, read s = .ok glob) ↔ ∃ ts, Reads true s.toList ts := by
  constructor
  · rintro ⟨glob, hread⟩
    rw [read] at hread
    cases htokens : readFrom .outside 0 none [] s.toList with
    | error e =>
      rw [htokens] at hread
      cases hread
    | ok tokens =>
      obtain ⟨ts, hreads, -⟩ := exists_reads htokens
      exact ⟨ts, hreads⟩
  · rintro ⟨ts, hreads⟩
    obtain ⟨tokens, htokens⟩ := readFrom_of_reads hreads 0 none [] rfl
    exact ⟨⟨tokens⟩, by rw [read, htokens]; rfl⟩

end SourceAudit.Glob
