/-
  SourceAudit/Proofs/StatementPlaces.lean
  =======================================
  **Where statements stand, and which of them are found.**

  A statement stands behind the start of a line (`StandsBehind`), and before its opening quote
  it holds no other quote.  So on the line of an opening quote there is no second one, whatever
  the dialects of the two statements (`StandsBehind.same_open`).

  The scan finds only statements that stand somewhere (`exists_of_mem_scan`).  It does not find
  all of them: where a URI goes over several lines, its closing quote can be the opening quote
  of another statement, and that one is hidden (`StandsBehind.found_or_hidden`).
-/
import SourceAudit.Proofs.FileLines

namespace SourceAudit.Directive

variable {dialect other : Dialect} {skip line : Nat} {fresh : Bool}

/-! ### Starts of lines -/

/-- Behind this text a line starts. -/
def AtLineStart (front : List Char) : Prop := ∀ c ∈ front.getLast?, c = '\n'

namespace AtLineStart

variable {front more : List Char}

theorem nil : AtLineStart [] := nofun

theorem of_append (h : AtLineStart (front ++ more)) : AtLineStart more := by
  intro c hc
  refine h c ?_
  rw [List.getLast?_append, Option.mem_def.mp hc]
  rfl

theorem behind {c : Char} (h : AtLineStart (front ++ c :: more)) : AtLineStart more := by
  rw [List.append_cons] at h
  exact h.of_append

theorem cons {c : Char} (h : AtLineStart more) (hc : more = [] → c = '\n') :
    AtLineStart (c :: more) := by
  cases more with
  | nil =>
    rintro d hd
    obtain rfl := Option.some.inj hd
    exact hc rfl
  | cons d more =>
    intro e he
    rw [List.getLast?_cons_cons] at he
    exact h e he

theorem feed_mem (h : AtLineStart front) (hne : front ≠ []) : '\n' ∈ front := by
  have hlast := List.getLast?_eq_some_getLast hne
  exact h _ hlast ▸ List.getLast_mem hne

end AtLineStart

/-- Over a quote no line starts: the place is before the quote or behind it. -/
theorem cut_at_quote {front t lead tail : List Char} {quote : Char} (hfront : AtLineStart front)
    (hquote : isQuote quote = true) (htext : front ++ t = lead ++ quote :: tail) :
    (∃ more, lead = front ++ more ∧ t = more ++ quote :: tail) ∨
      ∃ more, front = lead ++ quote :: more ∧ tail = more ++ t ∧ AtLineStart more ∧
        more ≠ [] := by
  rcases List.append_eq_append_iff.mp htext with ⟨more, hlead, ht⟩ | ⟨more, hcut, htail⟩
  · exact .inl ⟨more, hlead, ht⟩
  · cases more with
    | nil => exact .inl ⟨[], by simpa using hcut.symm, htail.symm⟩
    | cons c more =>
      obtain ⟨rfl, rfl⟩ := List.cons.inj htail
      subst hcut
      refine .inr ⟨more, rfl, rfl, hfront.behind, ?_⟩
      rintro rfl
      exact ne_newline_of_isQuote hquote (hfront.of_append quote rfl)

/-- A text has one first quote. -/
theorem first_quote {lead lead' tail tail' : List Char} {quote quote' : Char}
    (hlead : ∀ c ∈ lead, isQuote c = false) (hquote : isQuote quote = true)
    (hlead' : ∀ c ∈ lead', isQuote c = false) (hquote' : isQuote quote' = true)
    (htext : lead ++ quote :: tail = lead' ++ quote' :: tail') :
    lead = lead' ∧ quote = quote' ∧ tail = tail' := by
  obtain ⟨htake, hdrop⟩ := takeWhile_of_stop (p := fun c => !isQuote c) (c := quote)
    (by simpa using hlead) (by simp [hquote]) tail
  obtain ⟨htake', hdrop'⟩ := takeWhile_of_stop (p := fun c => !isQuote c) (c := quote')
    (by simpa using hlead') (by simp [hquote']) tail'
  rw [htext] at htake hdrop
  exact ⟨htake.symm.trans htake', List.cons.inj (hdrop.symm.trans hdrop')⟩

/-! ### Where a statement stands -/

/-- Behind `front`, where a line starts, the text has a statement. -/
structure StandsBehind (dialect : Dialect) (front s : List Char) (r : Reading) : Prop where
  line_start : AtLineStart front
  written : ∃ u tail, Written dialect u r ∧ s = front ++ (u ++ tail)

namespace StandsBehind

variable {front front' s : List Char} {r r' : Reading}

theorem read (h : StandsBehind dialect front s r) :
    ∃ t, s = front ++ t ∧ readStatement? dialect t = some r := by
  obtain ⟨-, u, tail, hwritten, htext⟩ := h
  exact ⟨u ++ tail, htext, readStatement?_eq_some_iff.mpr ⟨u, hwritten, List.prefix_append ..⟩⟩

theorem of_read {t : List Char} (hfront : AtLineStart front)
    (hread : readStatement? dialect t = some r) : StandsBehind dialect front (front ++ t) r := by
  obtain ⟨u, hwritten, tail, rfl⟩ := readStatement?_eq_some_iff.mp hread
  exact ⟨hfront, u, tail, hwritten, rfl⟩

theorem cons {c : Char} (h : StandsBehind dialect front s r) (hc : front = [] → c = '\n') :
    StandsBehind dialect (c :: front) (c :: s) r := by
  obtain ⟨hstart, u, tail, hwritten, rfl⟩ := h
  exact ⟨hstart.cons hc, u, tail, hwritten, rfl⟩

theorem exists_quotes (h : StandsBehind dialect front s r) :
    ∃ lead quote close tail, r.before = lead ++ [quote] ∧
      s = front ++ (lead ++ quote :: (r.uri ++ close :: tail)) ∧
      (∀ c ∈ lead, isQuote c = false) ∧ isQuote quote = true ∧
      (∀ c ∈ r.uri, isQuote c = false) ∧ isQuote close = true := by
  obtain ⟨-, u, tail, hwritten, htext⟩ := h
  obtain ⟨lead, quote, close, hbefore, rfl, hplain, hquote, huri, hclose⟩ :=
    hwritten.exists_quotes
  exact ⟨lead, quote, close, tail, hbefore, by simpa using htext, hplain, hquote, huri, hclose⟩

/-- What stands in a text up to an opening quote is followed by the URI only. -/
theorem uri_eq (h : StandsBehind dialect front s r) (h' : StandsBehind other front' s r')
    (hopen : front ++ r.before = front' ++ r'.before) : r.uri = r'.uri := by
  obtain ⟨lead, quote, close, tail, hbefore, htext, -, -, huri, hclose⟩ := h.exists_quotes
  obtain ⟨lead', quote', close', tail', hbefore', htext', -, -, huri', hclose'⟩ :=
    h'.exists_quotes
  have hs : s = front ++ r.before ++ (r.uri ++ close :: tail) := by simp [htext, hbefore]
  have hs' : s = front' ++ r'.before ++ (r'.uri ++ close' :: tail') := by simp [htext', hbefore']
  rw [hs, hopen, List.append_cancel_left_eq] at hs'
  exact (first_quote huri hclose huri' hclose' hs').1

/-- Where a statement further down opens: at the same quote, at the closing quote, or below. -/
theorem open_cases (h : StandsBehind dialect front s r) (h' : StandsBehind other front' s r')
    (hfirst : front <+: front') : front ++ r.before = front' ++ r'.before ∨
      ∃ close, isQuote close = true ∧
        ('\n' ∈ r.uri ∧ front' ++ r'.before = front ++ r.before ++ r.uri ++ [close] ∨
          ∃ more, front' = front ++ r.before ++ r.uri ++ close :: more ∧ AtLineStart more ∧
            more ≠ []) := by
  obtain ⟨lead, quote, close, tail, hbefore, htext, hplain, hquote, huri, hclose⟩ :=
    h.exists_quotes
  obtain ⟨lead', quote', close', tail', hbefore', htext', hplain', hquote', -, -⟩ :=
    h'.exists_quotes
  rw [htext, ← List.append_assoc] at htext'
  rcases cut_at_quote h'.line_start hquote htext'.symm with
    ⟨more, hlead, hmore⟩ | ⟨more, rfl, hmore, hstart, hne⟩
  · -- the second statement starts before the opening quote of the first
    obtain ⟨between, rfl⟩ := hfirst
    rw [List.append_assoc, List.append_cancel_left_eq] at hlead
    have hrest : ∀ c ∈ more, isQuote c = false :=
      fun c hc => hplain c (hlead ▸ List.mem_append_right _ hc)
    obtain ⟨rfl, rfl, -⟩ := first_quote hplain' hquote' hrest hquote hmore
    exact .inl (by simp [hbefore, hbefore', hlead])
  · refine .inr ⟨close, hclose, ?_⟩
    rcases cut_at_quote hstart hclose hmore.symm with
      ⟨behind, hinside, hbehind⟩ | ⟨behind, rfl, -, hstart', hne'⟩
    · -- it starts inside the URI, which has no quote of its own
      have hrest : ∀ c ∈ behind, isQuote c = false :=
        fun c hc => huri c (hinside ▸ List.mem_append_right _ hc)
      obtain ⟨rfl, rfl, -⟩ := first_quote hplain' hquote' hrest hclose hbehind
      refine .inl ⟨hinside ▸ List.mem_append_left _ (hstart.feed_mem hne), ?_⟩
      simp [hbefore, hbefore', hinside]
    · exact .inr ⟨behind, by simp [hbefore], hstart', hne'⟩

/-- Of two statements, the one that starts further down has the same opening quote or one on a
    line further down. -/
theorem same_open_or_below (h : StandsBehind dialect front s r)
    (h' : StandsBehind other front' s r') (hfirst : front <+: front') :
    front ++ r.before = front' ++ r'.before ∨
      (front ++ r.before).count '\n' < (front' ++ r'.before).count '\n' := by
  rcases h.open_cases h' hfirst with
    hsame | ⟨close, -, ⟨hfeed, hopen⟩ | ⟨more, hfront, hstart, hne⟩⟩
  · exact .inl hsame
  · have hpos : 0 < r.uri.count '\n' := List.count_pos_iff.mpr hfeed
    rw [hopen]
    simp only [List.count_append]
    omega
  · have hpos : 0 < more.count '\n' := List.count_pos_iff.mpr (hstart.feed_mem hne)
    rw [hfront]
    simp only [List.count_append, List.count_cons]
    omega

/-- **One opening quote to a line.** -/
theorem same_open (h : StandsBehind dialect front s r) (h' : StandsBehind other front' s r')
    (hline : (front ++ r.before).count '\n' = (front' ++ r'.before).count '\n') :
    front ++ r.before = front' ++ r'.before := by
  obtain ⟨t, ht, -⟩ := h.read
  obtain ⟨t', ht', -⟩ := h'.read
  have hcomparable := List.prefix_or_prefix_of_prefix (ht ▸ List.prefix_append front t)
    (ht' ▸ List.prefix_append front' t')
  rcases hcomparable with hfirst | hfirst
  · exact (h.same_open_or_below h' hfirst).resolve_right (Nat.ne_of_lt · hline)
  · exact ((h'.same_open_or_below h hfirst).resolve_right (Nat.ne_of_lt · hline.symm)).symm

end StandsBehind

/-! ### What the scan finds -/

theorem exists_of_mem_scan {s : List Char} {d : Directive}
    (hd : d ∈ scan dialect skip line fresh s) : ∃ front r, StandsBehind dialect front s r ∧
      (front = [] → fresh = true) ∧
      d = ⟨r.kind, String.ofList r.uri, line + (front ++ r.before).count '\n'⟩ := by
  induction s generalizing skip line fresh with
  | nil =>
    rw [scan] at hd
    cases hd
  | cons c rest ih =>
    have hbehind {skip : Nat}
        (hd : d ∈ scan dialect skip (if c = '\n' then line + 1 else line) (c = '\n') rest) :
        ∃ front r, StandsBehind dialect front (c :: rest) r ∧ (front = [] → fresh = true) ∧
          d = ⟨r.kind, String.ofList r.uri, line + (front ++ r.before).count '\n'⟩ := by
      obtain ⟨front, r, hstands, hfresh, rfl⟩ := ih hd
      refine ⟨c :: front, r, hstands.cons fun hnil => of_decide_eq_true (hfresh hnil),
        fun hnil => absurd hnil (List.cons_ne_nil c front), ?_⟩
      rw [List.cons_append, next_add_count]
    cases skip with
    | succ skip =>
      rw [scan] at hd
      exact hbehind hd
    | zero =>
      rw [scan] at hd
      split at hd
      next r hread =>
        rcases List.mem_cons.mp hd with rfl | hd
        · cases fresh with
          | false => cases hread
          | true => exact ⟨[], r, .of_read .nil hread, fun _ => rfl, rfl⟩
        · exact hbehind hd
      · exact hbehind hd

/-! ### What the scan hides -/

/-- What a statement names, and the line where it does. -/
def place (d : Directive) : String × Nat := (d.uri, d.line)

/-- The line is that of the closing quote of a statement whose URI goes over several lines. -/
def HiddenIn (found : List Directive) (line : Nat) : Prop :=
  ∃ d ∈ found, '\n' ∈ d.uri.toList ∧ d.lastLine = line

theorem HiddenIn.cons {found : List Directive} {line : Nat} (d : Directive)
    (h : HiddenIn found line) : HiddenIn (d :: found) line :=
  h.imp fun _ hmem => ⟨List.mem_cons_of_mem _ hmem.1, hmem.2⟩

/-- Up to the start of a line further down there is a first line feed. -/
theorem AtLineStart.exists_line {front : List Char} (h : AtLineStart front) (hne : front ≠ []) :
    ∃ head rest, front = head ++ '\n' :: rest ∧ '\n' ∉ head ∧ AtLineStart rest ∧
      front.count '\n' = rest.count '\n' + 1 := by
  obtain ⟨head, rest, rfl, hhead⟩ := List.eq_append_cons_of_mem (h.feed_mem hne)
  refine ⟨head, rest, rfl, hhead, h.behind, ?_⟩
  simp [List.count_eq_zero.mpr hhead]

/-- A line where nothing is read is passed over. -/
theorem scan_unread_line {head : List Char} (hhead : '\n' ∉ head) {s : List Char}
    (hread : readStatement? dialect (head ++ '\n' :: s) = none) :
    scan dialect 0 line true (head ++ '\n' :: s) = scan dialect 0 (line + 1) true s := by
  cases head with
  | nil => rw [List.nil_append, scan_unread hread, if_pos rfl, decide_eq_true rfl]
  | cons c head =>
    obtain ⟨hc, hhead⟩ := List.ne_and_not_mem_of_not_mem_cons hhead
    rw [List.cons_append] at hread ⊢
    rw [scan_unread hread, if_neg hc.symm, decide_eq_false hc.symm, scan_inside hhead]

/-- **What is found.**  Every statement is found with its URI and line, unless a statement that
    is found hides it. -/
theorem StandsBehind.found_or_hidden {front s : List Char} {r : Reading}
    (h : StandsBehind dialect front s r) (line : Nat) :
    (String.ofList r.uri, line + (front ++ r.before).count '\n') ∈
        (scan dialect 0 line true s).map place ∨
      HiddenIn (scan dialect 0 line true s) (line + (front ++ r.before).count '\n') := by
  induction hlength : front.length using Nat.strong_induction_on generalizing front s line with
  | _ n ih =>
    obtain ⟨t, rfl, hread⟩ := h.read
    have hlower {rest : List Char} (line : Nat) (hrest : AtLineStart rest)
        (hshorter : rest.length < front.length) := ih _ (hlength ▸ hshorter)
          (StandsBehind.of_read hrest hread) line rfl
    cases hfirst : readStatement? dialect (front ++ t) with
    | none =>
      -- nothing is read in the first line
      have hne : front ≠ [] := by
        rintro rfl
        exact absurd (hfirst.symm.trans hread) nofun
      obtain ⟨head, rest, rfl, hhead, hrest, hcount⟩ := h.line_start.exists_line hne
      rw [List.append_assoc, List.cons_append] at hfirst ⊢
      rw [scan_unread_line hhead hfirst]
      have hline : line + (head ++ '\n' :: rest ++ r.before).count '\n' =
          line + 1 + (rest ++ r.before).count '\n' := by
        rw [List.count_append, hcount, List.count_append]
        omega
      rw [hline]
      exact hlower (line + 1) hrest (by simp; omega)
    | some first =>
      have hstands : StandsBehind dialect [] (front ++ t) first := .of_read .nil hfirst
      obtain ⟨close, tail, htext, hscan⟩ := scan_eq_cons line hfirst
      rw [hscan]
      rcases hstands.open_cases h List.nil_prefix with
        hsame | ⟨close', hclose', ⟨hfeed, hopen⟩ | ⟨more, hfront, hstart, hne⟩⟩
      · rw [← hstands.uri_eq h hsame, ← hsame, List.nil_append]
        exact .inl (List.mem_cons_self ..)
      · refine .inr ⟨_, List.mem_cons_self .., ?_, ?_⟩
        · rwa [String.toList_ofList]
        · have hquote : List.count '\n' [close'] = 0 :=
            List.count_eq_zero.mpr (by simpa using (ne_newline_of_isQuote hclose').symm)
          rw [lastLine, String.toList_ofList, hopen, List.nil_append, List.count_append,
            List.count_append, hquote, Nat.add_zero, Nat.add_assoc]
      · -- the scan goes on with the rest of the line of the closing quote
        obtain ⟨head, rest, rfl, hhead, hrest, hcount⟩ := hstart.exists_line hne
        have htail : tail = head ++ '\n' :: (rest ++ t) := by
          rw [hfront, List.nil_append, List.append_assoc, List.append_cancel_left_eq] at htext
          simpa using (List.cons.inj htext).2.symm
        have hline : line + (front ++ r.before).count '\n' =
            line + (first.before ++ first.uri).count '\n' + 1 +
              (rest ++ r.before).count '\n' := by
          simp only [hfront, List.nil_append, List.count_append,
            List.count_cons_of_ne (ne_newline_of_isQuote hclose'), hcount]
          omega
        rw [htail, scan_inside hhead, hline]
        have hshorter : rest.length < front.length := by
          simp only [hfront, List.length_append, List.length_cons]
          omega
        exact (hlower _ hrest hshorter).imp (List.mem_cons_of_mem _) (HiddenIn.cons _)

end SourceAudit.Directive
