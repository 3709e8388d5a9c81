import ContentLang.Proofs.Grammar.Derivation

/-!
# Derivations are unique

No stretch of tokens is derived in two ways. The statement that goes through is about
stretches with something behind them: if two derivations, each followed by more tokens,
are over the same tokens, they are the same derivation and the same tokens follow
(`ContentLang.Grammar.Element.unique`, `ContentLang.Grammar.Elements.unique`,
`ContentLang.Grammar.Fields.unique`). What is behind a sequence has to be something that
does not continue it, and what is behind an element must not turn a name into a call; both
hold of the closing bracket, which is what follows in every rule.

The first token decides between the rules, but for two questions: whether content is the
name of a call, which the next token decides, and whether a call has data, which is what
the validity of a call without data settles.
-/

namespace ContentLang

namespace Grammar

/-- Whether nothing that is read as a part of a sequence of elements begins some tokens. -/
def EndsElements (ts : List Token) : Prop :=
  ∀ t ∈ ts.head?, t.isSymbol ')' = true ∨ t.isSymbol ']' = true

/-- Whether nothing that is read as a part of a block begins some tokens. -/
def EndsFields (ts : List Token) : Prop := ∀ t ∈ ts.head?, t.isSymbol '}' = true

theorem EndsElements.noCall {ts : List Token} (h : EndsElements ts) : NoCall ts := by
  intro t ht
  rcases h t ht with hc | hc
  · exact TokenOf.isSymbol_eq_false hc (by decide)
  · exact TokenOf.isSymbol_eq_false hc (by decide)

theorem EndsFields.noCall {ts : List Token} (h : EndsFields ts) : NoCall ts :=
  fun t ht => TokenOf.isSymbol_eq_false (h t ht) (by decide)

theorem endsElements_nil : EndsElements [] := by simp [EndsElements]

theorem endsElements_of_paren {t : Token} (h : t.isSymbol ')' = true) (ts : List Token) :
    EndsElements (t :: ts) := by
  simp [EndsElements, h]

theorem endsElements_of_bracket {t : Token} (h : t.isSymbol ']' = true) (ts : List Token) :
    EndsElements (t :: ts) := by
  simp [EndsElements, h]

theorem endsFields_of_brace {t : Token} (h : t.isSymbol '}' = true) (ts : List Token) :
    EndsFields (t :: ts) := by
  simp [EndsFields, h]

/-! ### Telling the rules apart -/

/-- The symbol that an element begins with, if it is no content. -/
def Element.symbol? : Element → Option Char
  | .content _ | .call .. | .statement .. => none
  | .null _ => some '~'
  | .array .. => some '['
  | .block .. => some '{'

/-- **The first token decides between the rules**, up to what may follow content. -/
theorem Element.symbol?_eq {e e' : Element} {n n' : Option Token} (hv : e.Valid n)
    (hv' : e'.Valid n') (h : e.head = e'.head) : e.symbol? = e'.symbol? := by
  have key : ∀ {e : Element} {n : Option Token}, e.Valid n →
      (e.symbol? = none ∧ e.head.isContent = true) ∨
        ∃ c, e.symbol? = some c ∧ e.head.isSymbol c = true := by
    intro e n hv
    cases e with
    | content t => exact Or.inl ⟨rfl, hv⟩
    | null t => exact Or.inr ⟨'~', rfl, hv⟩
    | array o b c => exact Or.inr ⟨'[', rfl, hv.1⟩
    | block o b c => exact Or.inr ⟨'{', rfl, hv.1⟩
    | call f o ps c => exact Or.inl ⟨rfl, hv.1⟩
    | statement f o ps c d => exact Or.inl ⟨rfl, hv.1⟩
  rcases key hv with ⟨hs, hc⟩ | ⟨c, hs, hc⟩ <;> rcases key hv' with ⟨hs', hc'⟩ | ⟨c', hs', hc'⟩
  · rw [hs, hs']
  · rw [h, TokenOf.isContent_of_isSymbol hc'] at hc
    exact absurd hc (by decide)
  · rw [← h, TokenOf.isContent_of_isSymbol hc] at hc'
    exact absurd hc' (by decide)
  · rw [h] at hc
    rw [hs, hs', TokenOf.eq_of_isSymbol hc hc']

/-- What is behind a call without data is no element. -/
theorem not_element_of_ender {e : Element} {n : Option Token} {r : List Token} (h : e.Valid n)
    (hr : ∀ t ∈ (e.tokens ++ r).head?, t.isEnder = true) : False := by
  have hb := TokenOf.isEnder_of_beginsElement (Element.beginsElement_head h)
  rw [Element.tokens_eq_cons] at hr
  exact absurd (hr e.head rfl) (by rw [hb]; decide)

/-- Where a sequence of elements ends, neither an element nor a separator begins. -/
theorem EndsElements.not_cons {t : Token} {ts : List Token} (h : EndsElements (t :: ts))
    (ht : t.isSeparator = true ∨ t.beginsElement = true) : False := by
  have hc : t.isSymbol ')' = true ∨ t.isSymbol ']' = true := h t rfl
  rcases ht with ht | ht
  · rcases hc with hc | hc <;>
      exact absurd hc (by rw [TokenOf.isSymbol_of_isSeparator ht (by decide)]; decide)
  · rcases hc with hc | hc <;>
      exact absurd hc (by rw [TokenOf.isSymbol_of_beginsElement ht (by decide)]; decide)

/-- Where a block ends, neither an entry nor a separator begins. -/
theorem EndsFields.not_cons {t : Token} {ts : List Token} (h : EndsFields (t :: ts))
    (ht : t.isSeparator = true ∨ t.isContent = true) : False := by
  have hc : t.isSymbol '}' = true := h t rfl
  rcases ht with ht | ht
  · exact absurd hc (by rw [TokenOf.isSymbol_of_isSeparator ht (by decide)]; decide)
  · exact absurd hc (by rw [TokenOf.isSymbol_of_isContent ht]; decide)

/-- A separator begins no element. -/
theorem not_head_isSeparator {e : Element} {n : Option Token} (h : e.Valid n)
    (ht : e.head.isSeparator = true) : False := by
  rw [TokenOf.isSeparator_of_beginsElement (Element.beginsElement_head h)] at ht
  exact absurd ht (by decide)

/-- Content separates nothing. -/
theorem not_isSeparator_of_isContent {t : Token} (h : t.isContent = true)
    (ht : t.isSeparator = true) : False := by
  rcases TokenOf.isSeparator_iff.mp ht with hs | hs <;>
    exact absurd hs (by rw [TokenOf.isSymbol_of_isContent h]; decide)

/-- **The front of a call is read in one way**, its name and its parameters, if the parameters
are. -/
theorem called_unique {f o c f' o' c' : Token} {ps ps' : Elements} {r r' : List Token}
    (hps : ∀ {s s' : List Token}, ps.tokens ++ s = ps'.tokens ++ s' → ps.Valid s.head? →
      ps'.Valid s'.head? → EndsElements s → EndsElements s' → ps = ps' ∧ s = s')
    (hv : ps.Valid (some c)) (hc : c.isSymbol ')' = true)
    (hv' : ps'.Valid (some c')) (hc' : c'.isSymbol ')' = true)
    (h : f :: o :: (ps.tokens ++ c :: r) = f' :: o' :: (ps'.tokens ++ c' :: r')) :
    f = f' ∧ o = o' ∧ ps = ps' ∧ c = c' ∧ r = r' := by
  simp only [List.cons.injEq] at h
  obtain ⟨rfl, rfl, h⟩ := h
  obtain ⟨rfl, hrest⟩ :=
    hps h hv hv' (endsElements_of_paren hc _) (endsElements_of_paren hc' _)
  obtain ⟨rfl, rfl⟩ := List.cons.inj hrest
  exact ⟨rfl, rfl, rfl, rfl, rfl⟩

/-! ### The induction -/

mutual

/-- **An element is derived in one way.** -/
theorem Element.unique (e e' : Element) {r r' : List Token} (h : e.tokens ++ r = e'.tokens ++ r')
    (hv : e.Valid r.head?) (hv' : e'.Valid r'.head?) (hr : NoCall r) (hr' : NoCall r') :
    e = e' ∧ r = r' := by
  -- Both begin with the same token, so they are of one rule, up to what follows content.
  have hrule : e.symbol? = e'.symbol? := by
    refine Element.symbol?_eq hv hv' ?_
    rw [Element.tokens_eq_cons e, Element.tokens_eq_cons e'] at h
    exact (List.cons.inj h).1
  match e with
  | .content t =>
    cases e' with
    | content t' => simpa [Element.tokens] using h
    -- Content is not followed by a parenthesis, which a call begins with.
    | call f o ps c =>
      obtain ⟨-, rfl⟩ := List.cons.inj h
      exact absurd hv'.2.1 (by rw [noCall_cons.mp hr]; decide)
    | statement f o ps c d =>
      obtain ⟨-, rfl⟩ := List.cons.inj h
      exact absurd hv'.2.1 (by rw [noCall_cons.mp hr]; decide)
    | _ => simp [Element.symbol?] at hrule
  | .null t =>
    cases e' with
    | null t' => simpa [Element.tokens] using h
    | _ => simp [Element.symbol?] at hrule
  | .array o b c =>
    cases e' with
    | array o' b' c' =>
      simp only [Element.tokens, List.cons_append, List.append_assoc, List.nil_append,
        List.cons.injEq] at h
      obtain ⟨rfl, h⟩ := h
      obtain ⟨rfl, hb⟩ := Elements.unique b b' h hv.2.1 hv'.2.1
        (endsElements_of_bracket hv.2.2 r) (endsElements_of_bracket hv'.2.2 r')
      obtain ⟨rfl, rfl⟩ := List.cons.inj hb
      exact ⟨rfl, rfl⟩
    | _ => simp [Element.symbol?] at hrule
  | .block o b c =>
    cases e' with
    | block o' b' c' =>
      simp only [Element.tokens, List.cons_append, List.append_assoc, List.nil_append,
        List.cons.injEq] at h
      obtain ⟨rfl, h⟩ := h
      obtain ⟨rfl, hb⟩ := Fields.unique b b' h hv.2.1 hv'.2.1
        (endsFields_of_brace hv.2.2.2 r) (endsFields_of_brace hv'.2.2.2 r')
      obtain ⟨rfl, rfl⟩ := List.cons.inj hb
      exact ⟨rfl, rfl⟩
    | _ => simp [Element.symbol?] at hrule
  | .call f o ps c =>
    cases e' with
    | content t' =>
      obtain ⟨-, rfl⟩ := List.cons.inj h
      exact absurd hv.2.1 (by rw [noCall_cons.mp hr']; decide)
    | call f' o' ps' c' =>
      obtain ⟨rfl, rfl, rfl, rfl, rfl⟩ := called_unique (Elements.unique ps ps') hv.2.2.1
        hv.2.2.2.1 hv'.2.2.1 hv'.2.2.2.1 (by simpa [Element.tokens] using h)
      exact ⟨rfl, rfl⟩
    | statement f' o' ps' c' d' =>
      obtain ⟨rfl, rfl, rfl, rfl, rfl⟩ := called_unique (Elements.unique ps ps') hv.2.2.1
        hv.2.2.2.1 hv'.2.2.1 hv'.2.2.2.1 (by simpa [Element.tokens] using h)
      -- One has data and the other an ender in the same place.
      exact (not_element_of_ender hv'.2.2.2.2 hv.2.2.2.2).elim
    | _ => simp [Element.symbol?] at hrule
  | .statement f o ps c d =>
    cases e' with
    | content t' =>
      obtain ⟨-, rfl⟩ := List.cons.inj h
      exact absurd hv.2.1 (by rw [noCall_cons.mp hr']; decide)
    | call f' o' ps' c' =>
      obtain ⟨rfl, rfl, rfl, rfl, rfl⟩ := called_unique (Elements.unique ps ps') hv.2.2.1
        hv.2.2.2.1 hv'.2.2.1 hv'.2.2.2.1 (by simpa [Element.tokens] using h)
      exact (not_element_of_ender hv.2.2.2.2 hv'.2.2.2.2).elim
    | statement f' o' ps' c' d' =>
      obtain ⟨rfl, rfl, rfl, rfl, hd⟩ := called_unique (Elements.unique ps ps') hv.2.2.1
        hv.2.2.2.1 hv'.2.2.1 hv'.2.2.2.1 (by simpa [Element.tokens] using h)
      obtain ⟨rfl, rfl⟩ := Element.unique d d' hd hv.2.2.2.2 hv'.2.2.2.2 hr hr'
      exact ⟨rfl, rfl⟩
    | _ => simp [Element.symbol?] at hrule

/-- **A sequence of elements is derived in one way.** -/
theorem Elements.unique (q q' : Elements) {r r' : List Token}
    (h : q.tokens ++ r = q'.tokens ++ r') (hv : q.Valid r.head?) (hv' : q'.Valid r'.head?)
    (hr : EndsElements r) (hr' : EndsElements r') : q = q' ∧ r = r' := by
  match q with
  | .nil =>
    cases q' with
    | nil => exact ⟨rfl, h⟩
    | separator t q' =>
      obtain rfl : r = t :: (q'.tokens ++ r') := h
      exact (hr.not_cons (Or.inl hv'.1)).elim
    | element e q' =>
      rw [Elements.tokens, Elements.tokens, Element.tokens_eq_cons] at h
      obtain rfl : r = e.head :: (e.tokens.tail ++ q'.tokens ++ r') := h
      exact (hr.not_cons (Or.inr (Element.beginsElement_head hv'.1))).elim
  | .separator t q =>
    cases q' with
    | nil =>
      obtain rfl : t :: (q.tokens ++ r) = r' := h
      exact (hr'.not_cons (Or.inl hv.1)).elim
    | separator t' q' =>
      obtain ⟨rfl, hq⟩ := List.cons.inj h
      obtain ⟨rfl, rfl⟩ := Elements.unique q q' hq hv.2 hv'.2 hr hr'
      exact ⟨rfl, rfl⟩
    | element e q' =>
      rw [Elements.tokens, Elements.tokens, Element.tokens_eq_cons] at h
      obtain rfl := (List.cons.inj h).1
      exact (not_head_isSeparator hv'.1 hv.1).elim
  | .element e q =>
    cases q' with
    | nil =>
      rw [Elements.tokens, Elements.tokens, Element.tokens_eq_cons] at h
      obtain rfl : e.head :: (e.tokens.tail ++ q.tokens ++ r) = r' := h
      exact (hr'.not_cons (Or.inr (Element.beginsElement_head hv.1))).elim
    | separator t' q' =>
      rw [Elements.tokens, Elements.tokens, Element.tokens_eq_cons] at h
      obtain rfl := (List.cons.inj h).1
      exact (not_head_isSeparator hv.1 hv'.1).elim
    | element e' q' =>
      simp only [Elements.tokens, List.append_assoc] at h
      -- What follows an element of a sequence is never a parenthesis.
      obtain ⟨rfl, hq⟩ := Element.unique e e' h (by simpa using hv.1) (by simpa using hv'.1)
        (Elements.noCall hv.2 hr.noCall) (Elements.noCall hv'.2 hr'.noCall)
      obtain ⟨rfl, rfl⟩ := Elements.unique q q' hq hv.2 hv'.2 hr hr'
      exact ⟨rfl, rfl⟩

/-- **A sequence of entries is derived in one way.** -/
theorem Fields.unique (q q' : Fields) {r r' : List Token}
    (h : q.tokens ++ r = q'.tokens ++ r') (hv : q.Valid r.head?) (hv' : q'.Valid r'.head?)
    (hr : EndsFields r) (hr' : EndsFields r') : q = q' ∧ r = r' := by
  match q with
  | .nil =>
    cases q' with
    | nil => exact ⟨rfl, h⟩
    | separator t q' =>
      obtain rfl : r = t :: (q'.tokens ++ r') := h
      exact (hr.not_cons (Or.inl hv'.1)).elim
    | field k c v q' =>
      obtain rfl : r = k :: c :: (v.tokens ++ q'.tokens) ++ r' := h
      exact (hr.not_cons (Or.inr hv'.1)).elim
  | .separator t q =>
    cases q' with
    | nil =>
      obtain rfl : t :: (q.tokens ++ r) = r' := h
      exact (hr'.not_cons (Or.inl hv.1)).elim
    | separator t' q' =>
      obtain ⟨rfl, hq⟩ := List.cons.inj h
      obtain ⟨rfl, rfl⟩ := Fields.unique q q' hq hv.2 hv'.2 hr hr'
      exact ⟨rfl, rfl⟩
    | field k c v q' =>
      obtain rfl := (List.cons.inj h).1
      exact (not_isSeparator_of_isContent hv'.1 hv.1).elim
  | .field k c v q =>
    cases q' with
    | nil =>
      obtain rfl : k :: c :: (v.tokens ++ q.tokens) ++ r = r' := h
      exact (hr'.not_cons (Or.inr hv.1)).elim
    | separator t' q' =>
      obtain rfl := (List.cons.inj h).1
      exact (not_isSeparator_of_isContent hv.1 hv'.1).elim
    | field k' c' v' q' =>
      simp only [Fields.tokens, List.cons_append, List.append_assoc, List.cons.injEq] at h
      obtain ⟨rfl, rfl, h⟩ := h
      obtain ⟨rfl, hq⟩ := Element.unique v v' h (by simpa using hv.2.2.1)
        (by simpa using hv'.2.2.1) (Fields.noCall hv.2.2.2 hr.noCall)
        (Fields.noCall hv'.2.2.2 hr'.noCall)
      obtain ⟨rfl, rfl⟩ := Fields.unique q q' hq hv.2.2.2 hv'.2.2.2 hr hr'
      exact ⟨rfl, rfl⟩

end

/-- **A file is derived in one way.** -/
theorem derives_unique {d d' : Elements} {ts : List Token} (h : Derives d ts)
    (h' : Derives d' ts) : d = d' := by
  have htokens : d.tokens ++ [] = d'.tokens ++ [] := by rw [h.1, h'.1]
  exact (Elements.unique d d' htokens h.2 h'.2 endsElements_nil endsElements_nil).1

end Grammar

end ContentLang
