import ContentLang.Proofs.Grammar.Derivation

/-!
# Keys and their colons

Where the keys of a derivation stand among its tokens. A colon stands behind each key, and nowhere
else (`ContentLang.Grammar.keysIn_of_derives`), so that tokens that follow the grammar end between a
key and its value exactly if a colon is the last of them or comes next.
-/

namespace ContentLang

namespace Grammar

/-- A key of a block with its colon, and all tokens in front of it. -/
structure Keyed where
  before : List Token
  key : Token
  colon : Token

mutual

/-- The keys in an element that stands behind some tokens. -/
def Element.keysAfter (before : List Token) : Element → List Keyed
  | .content _ => []
  | .null _ => []
  | .array o b _ => b.keysAfter (before ++ [o])
  | .block o b _ => b.keysAfter (before ++ [o])
  | .call f o ps _ => ps.keysAfter (before ++ [f, o])
  | .statement f o ps c d =>
    ps.keysAfter (before ++ [f, o]) ++ d.keysAfter (before ++ f :: o :: (ps.tokens ++ [c]))

/-- The keys in elements that stand behind some tokens. -/
def Elements.keysAfter (before : List Token) : Elements → List Keyed
  | .nil => []
  | .separator t r => r.keysAfter (before ++ [t])
  | .element e r => e.keysAfter before ++ r.keysAfter (before ++ e.tokens)

/-- The keys in entries that stand behind some tokens, those of the entries among them. -/
def Fields.keysAfter (before : List Token) : Fields → List Keyed
  | .nil => []
  | .separator t r => r.keysAfter (before ++ [t])
  | .field k c v r =>
    ⟨before, k, c⟩ ::
      (v.keysAfter (before ++ [k, c]) ++ r.keysAfter (before ++ k :: c :: v.tokens))

end

/-- **The keys of a derivation.** -/
def Elements.keys (d : Elements) : List Keyed := d.keysAfter []

/-! ### Colons -/

/-- **Whether some keys are those in a stretch of tokens behind others**: each stands there with its
colon, and there is no other colon. -/
structure KeysIn (before ts : List Token) (keys : List Keyed) : Prop where
  stands : ∀ x ∈ keys, x.key.isContent = true ∧ x.colon.isSymbol ':' = true ∧
    ∃ r, before ++ ts = x.before ++ x.key :: x.colon :: r
  colon : ∀ p c r, ts = p ++ c :: r → c.isSymbol ':' = true →
    ∃ p' k, p = p' ++ [k] ∧ ⟨before ++ p', k, c⟩ ∈ keys

namespace KeysIn

variable {before ts us : List Token} {keys keys' : List Keyed} {t k c : Token}

theorem nil : KeysIn before [] [] := ⟨by simp, by simp⟩

theorem single (h : t.isSymbol ':' = false) : KeysIn before [t] [] := by
  refine ⟨by simp, fun p c r hp hc => ?_⟩
  have hmem : c ∈ [t] := by rw [hp]; simp
  obtain rfl := List.mem_singleton.mp hmem
  rw [h] at hc
  exact nomatch hc

theorem key (hk : k.isContent = true) (hc : c.isSymbol ':' = true) :
    KeysIn before [k, c] [⟨before, k, c⟩] := by
  refine ⟨fun x hx => ?_, fun p c' r hp hc' => ?_⟩
  · obtain rfl := List.mem_singleton.mp hx
    exact ⟨hk, hc, [], rfl⟩
  · match p with
    | [] =>
      obtain rfl := (List.cons.inj hp).1
      rw [TokenOf.isSymbol_of_isContent hk] at hc'
      exact nomatch hc'
    | [k'] =>
      obtain ⟨rfl, rfl, -⟩ : k = k' ∧ c = c' ∧ [] = r := by simpa using hp
      exact ⟨[], k, rfl, by simp⟩
    | k' :: l :: p => simp at hp

/-- The keys in two stretches are those of the one and of the other. -/
theorem append (h : KeysIn before ts keys) (h' : KeysIn (before ++ ts) us keys') :
    KeysIn before (ts ++ us) (keys ++ keys') := by
  refine ⟨fun x hx => ?_, fun p c r hp hc => ?_⟩
  · rcases List.mem_append.mp hx with hx | hx
    · obtain ⟨hk, hc, r, hr⟩ := h.stands x hx
      refine ⟨hk, hc, r ++ us, ?_⟩
      rw [← List.append_assoc, hr]
      simp
    · obtain ⟨hk, hc, r, hr⟩ := h'.stands x hx
      exact ⟨hk, hc, r, by rw [← List.append_assoc, hr]⟩
  · rcases List.append_eq_append_iff.mp hp with ⟨p', rfl, hus⟩ | ⟨r', rfl, hr⟩
    -- The colon is in the second stretch.
    · obtain ⟨p'', k, rfl, hmem⟩ := h'.colon p' c r hus hc
      refine ⟨ts ++ p'', k, by simp, List.mem_append_right keys ?_⟩
      rwa [← List.append_assoc]
    · cases r' with
      | nil =>
        obtain ⟨p'', k, hp'', hmem⟩ := h'.colon [] c r (by simpa using hr.symm) hc
        simp at hp''
      | cons c' r' =>
        obtain ⟨rfl, -⟩ := List.cons.inj hr
        obtain ⟨p'', k, rfl, hmem⟩ := h.colon p c r' rfl hc
        exact ⟨p'', k, rfl, List.mem_append_left keys' hmem⟩

/-- What stands between two tokens that are no colons. -/
theorem enclosed {o : Token} (ho : o.isSymbol ':' = false) (hc : c.isSymbol ':' = false)
    (h : KeysIn (before ++ [o]) ts keys) : KeysIn before (o :: (ts ++ [c])) keys := by
  have hopening : KeysIn before [o] [] := single ho
  simpa using (hopening.append h).append (single hc)

end KeysIn

mutual

/-- The keys in an element are those with a colon behind them. -/
theorem Element.keysIn (e : Element) {next : Option Token} (h : e.Valid next)
    (before : List Token) : KeysIn before e.tokens (e.keysAfter before) := by
  match e with
  | .content t => exact .single (TokenOf.isSymbol_of_isContent h _)
  | .null t => exact .single (TokenOf.isSymbol_eq_false h (by decide))
  | .array o b c =>
    obtain ⟨ho, hb, hc⟩ := h
    exact .enclosed (TokenOf.isSymbol_eq_false ho (by decide))
      (TokenOf.isSymbol_eq_false hc (by decide)) (Elements.keysIn b hb _)
  | .block o b c =>
    obtain ⟨ho, hb, -, hc⟩ := h
    exact .enclosed (TokenOf.isSymbol_eq_false ho (by decide))
      (TokenOf.isSymbol_eq_false hc (by decide)) (Fields.keysIn b hb _)
  | .call f o ps c =>
    obtain ⟨hf, ho, hps, hc, -⟩ := h
    exact Elements.keysIn_params ps hf ho hps hc before
  | .statement f o ps c d =>
    obtain ⟨hf, ho, hps, hc, hd⟩ := h
    have hcall := Elements.keysIn_params ps hf ho hps hc before
    have hdata := hcall.append (Element.keysIn d hd _)
    simpa [Element.tokens, Element.keysAfter] using hdata

/-- The keys in the parameters of a call. -/
theorem Elements.keysIn_params (ps : Elements) {f o c : Token} (hf : f.isContent = true)
    (ho : o.isSymbol '(' = true) (h : ps.Valid (some c)) (hc : c.isSymbol ')' = true)
    (before : List Token) :
    KeysIn before (f :: o :: (ps.tokens ++ [c])) (ps.keysAfter (before ++ [f, o])) := by
  have hname : KeysIn before [f] [] := .single (TokenOf.isSymbol_of_isContent hf ':')
  have hparams : KeysIn (before ++ [f]) (o :: (ps.tokens ++ [c]))
      (ps.keysAfter (before ++ [f] ++ [o])) :=
    .enclosed (TokenOf.isSymbol_eq_false ho (by decide)) (TokenOf.isSymbol_eq_false hc (by decide))
      (Elements.keysIn ps h _)
  simpa using hname.append hparams

/-- The keys in a sequence of elements are those with a colon behind them. -/
theorem Elements.keysIn (q : Elements) {next : Option Token} (h : q.Valid next)
    (before : List Token) : KeysIn before q.tokens (q.keysAfter before) := by
  match q with
  | .nil => exact .nil
  | .separator t q =>
    have ht : t.isSymbol ':' = false := TokenOf.isSymbol_of_isSeparator h.1 (by decide)
    exact (KeysIn.single ht).append (Elements.keysIn q h.2 _)
  | .element e q => exact (Element.keysIn e h.1 before).append (Elements.keysIn q h.2 _)

/-- The keys in a sequence of entries are those with a colon behind them. -/
theorem Fields.keysIn (q : Fields) {next : Option Token} (h : q.Valid next)
    (before : List Token) : KeysIn before q.tokens (q.keysAfter before) := by
  match q with
  | .nil => exact .nil
  | .separator t q =>
    have ht : t.isSymbol ':' = false := TokenOf.isSymbol_of_isSeparator h.1 (by decide)
    exact (KeysIn.single ht).append (Fields.keysIn q h.2 _)
  | .field k c v q =>
    obtain ⟨hk, hc, hv, hq⟩ := h
    have hkey : KeysIn before [k, c] [⟨before, k, c⟩] := .key hk hc
    have hvalue := hkey.append (Element.keysIn v hv _)
    have hrest := hvalue.append (Fields.keysIn q hq _)
    simpa [Fields.tokens, Fields.keysAfter] using hrest

end

/-- **In what is derived, a colon stands behind each key and nowhere else.** -/
theorem keysIn_of_derives {d : Elements} {ts : List Token} (h : Derives d ts) :
    KeysIn [] ts d.keys := by
  obtain ⟨rfl, hd⟩ := h
  exact Elements.keysIn d hd []

end Grammar

end ContentLang
