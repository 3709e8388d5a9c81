import ContentLang.Proofs.Grammar.Residual

/-!
# What is missing suffices

What a state reads without a report is what was missing (`ContentLang.Grammar.residual_of_read`).
Conversely, what was missing around a hole is read without a further report once the hole is filled
(`ContentLang.Grammar.suffices_fills`), whatever has been reported before. The induction is on the
holes, and what it says of one is `ContentLang.Grammar.Suffices`.
-/

namespace ContentLang

namespace Grammar

variable {a : Assembly} {G : Goal} {r : List Token}

/-! ### What may follow a node -/

theorem ElementThen.noCall (h : ElementThen G r) : NoCall r := by
  obtain ⟨e, r', rfl, he, -⟩ := h
  rw [Element.tokens_eq_cons]
  exact noCall_cons.mpr
    (TokenOf.isSymbol_of_beginsElement (Element.beginsElement_head he) (by decide))

theorem ClosesSequence.noCall {s : Sequence} (h : ClosesSequence G s r) : NoCall r := by
  cases s with
  | file =>
    rw [show r = [] from h]
    simp [NoCall]
  | array o =>
    obtain ⟨c, r', rfl, hc, -⟩ := h
    exact noCall_cons.mpr (TokenOf.isSymbol_eq_false hc (by decide))
  | params f =>
    obtain ⟨c, r', rfl, hc, -⟩ := h
    exact noCall_cons.mpr (TokenOf.isSymbol_eq_false hc (by decide))

theorem InElements.noCall {s : Sequence} (h : InElements s G r) : NoCall r := by
  obtain ⟨q, r', rfl, hq, hr⟩ := h
  exact Elements.noCall hq hr.noCall

theorem InEntries.noCall {b : OpenBlock} (h : InEntries b G r) : NoCall r := by
  obtain ⟨q, c, r', rfl, hq, -, hc, -⟩ := h
  exact Fields.noCall hq (noCall_cons.mpr (TokenOf.isSymbol_eq_false hc (by decide)))

/-- No parenthesis is missing behind a node. -/
theorem Fills.noCall {hs : List Hole} (h : Fills hs r) : NoCall r := by
  induction hs with
  | nil => exact InElements.noCall h
  | cons hole hs ih =>
    cases hole with
    | item s => exact InElements.noCall h
    | value b k =>
      obtain ⟨-, n, h⟩ := h
      exact InEntries.noCall h
    | data c => exact ih h

/-! ### Reading to the end -/

/-- Whether tokens that meet a goal are read without a further report behind any node that a
state finishes. -/
def Suffices (a : Assembly) (G : Goal) : Prop :=
  ∀ n r, G r → NoCall r ∧ ((a.finish n).read r).2 = a.reversedDiagnostics.reverse

theorem Suffices.data (h : Suffices a G) (c : Call) : Suffices (a.expect (.data c)) G :=
  fun n => h (.ofStatement c n)

/-- What suffices behind an element suffices with the element in front. -/
theorem Suffices.readElement (hG : Suffices a G) (h : ElementThen G r) :
    (a.readElement r).2 = a.reversedDiagnostics.reverse := by
  obtain ⟨e, r', rfl, he, hr⟩ := h
  obtain ⟨hcall, hread⟩ := hG e.node r' hr
  rw [Element.read_begin e a he hcall]
  exact hread

theorem Suffices.read_called (hG : Suffices a G) (c : Call) (h : Called G r) :
    ((a.goto (.called c)).read r).2 = a.reversedDiagnostics.reverse := by
  rcases h with ⟨hend, hr⟩ | h
  · rw [Assembly.read_called a c hend]
    exact (hG _ r hr).2
  · have hdata := (hG.data c).readElement h
    obtain ⟨e, r', rfl, he, -⟩ := h
    rw [Element.tokens_eq_cons, List.cons_append] at hdata ⊢
    rw [Assembly.read_called_element a c (Element.beginsElement_head he)]
    exact hdata

theorem Suffices.read_elements (hG : Suffices a G) (s : OpenSequence) (h : InElements s.of G r) :
    ((a.goto (.between (.elements s))).read r).2 = a.reversedDiagnostics.reverse := by
  obtain ⟨q, r', rfl, hq, hr⟩ := h
  -- Only what the elements are of decides how they end, and reading some does not change it.
  rw [Elements.read q a s hq hr.noCall]
  have hof : (s.extend q.nodes).of = s.of := rfl
  generalize s.extend q.nodes = s' at hof ⊢
  rw [← hof] at hr
  match hs : s'.of with
  | .file =>
    rw [hs] at hr
    rw [show r' = [] from hr, Assembly.read_nil]
    simp [Assembly.result, Assembly.close, Assembly.goto, OpenSequence.close?, hs]
  | .array o =>
    rw [hs] at hr
    obtain ⟨c, r'', rfl, hc, hr⟩ := hr
    have hclose : (a.goto (.between (.elements s'))).feed c =
        a.finish (.array s'.items o.origin) := by
      simp [Assembly.feed, Assembly.goto, Assembly.inBetween, Assembly.inSequence, hs, hc]
      rfl
    rw [Assembly.read_cons, hclose]
    exact (hG _ r'' hr).2
  | .params f =>
    rw [hs] at hr
    obtain ⟨c, r'', rfl, hc, hr⟩ := hr
    have hclose : (a.goto (.between (.elements s'))).feed c =
        a.goto (.called (callOf f s'.items)) := by
      simp [Assembly.feed, Assembly.goto, Assembly.inBetween, Assembly.inSequence, hs, hc]
    rw [Assembly.read_cons, hclose]
    exact hG.read_called _ hr

theorem Suffices.read_entries (hG : Suffices a G) (b : OpenBlock) (h : InEntries b G r) :
    ((a.goto (.between (.entries b))).read r).2 = a.reversedDiagnostics.reverse := by
  obtain ⟨q, c, r', rfl, hq, hk, hc, hr⟩ := h
  have hcall : NoCall (c :: r') := noCall_cons.mpr (TokenOf.isSymbol_eq_false hc (by decide))
  have hclose : (a.goto (.between (.entries (b.extend q.entries)))).feed c =
      a.finish (b.extend q.entries).node := by
    simp [Assembly.feed, Assembly.goto, Assembly.inBetween, Assembly.inBlock, hc]
    rfl
  rw [Fields.read q a b (r := c :: r') hq hcall hk, Assembly.read_cons, hclose]
  exact (hG _ r' hr).2

/-- A block is as fresh with one value of a key as with another. -/
theorem fresh_extend_value {b : OpenBlock} {k : Token} {n : Node} {keys : List Token}
    (h : Fresh (b.extend [(k, n)]) keys) (n' : Node) : Fresh (b.extend [(k, n')]) keys := by
  refine ⟨h.1, fun l hl => ?_⟩
  simpa [OpenBlock.extend, Entries.contains, Entries.find?, List.find?_append] using h.2 l hl

/-- **What is missing around a hole suffices** once the hole is filled. -/
theorem suffices_fills (a : Assembly) : Suffices a (Fills a.holes) := by
  obtain ⟨holes, phase, ds⟩ := a
  induction holes with
  | nil =>
    intro n r h
    refine ⟨Fills.noCall h, ?_⟩
    obtain ⟨q, r', rfl, hq, hr⟩ := h
    obtain rfl : r' = [] := hr
    have hread := Elements.read q ⟨[], phase, ds⟩ ⟨.file, [n]⟩ hq (by simp [NoCall])
    show ((Assembly.goto ⟨[], phase, ds⟩ (.between (.elements ⟨.file, [n]⟩))).read _).2 = _
    rw [hread, Assembly.read_nil]
    simp [Assembly.result, Assembly.close, Assembly.goto, OpenSequence.close?, OpenSequence.extend]
  | cons hole hs ih =>
    intro n r h
    refine ⟨Fills.noCall h, ?_⟩
    cases hole with
    | item s => exact Suffices.read_elements ih (s.push n) h
    | value b k =>
      obtain ⟨hk, m, q, c, r', rfl, hq, hfresh, hc, hr⟩ := h
      have hfin := Assembly.finish_value ⟨hs, phase, ds⟩ hk n
      rw [OpenBlock.insert_new b hk] at hfin
      show (((Assembly.expect ⟨hs, phase, ds⟩ (.value b k)).finish n).read _).2 = _
      rw [hfin]
      exact ih.read_entries _ ⟨q, c, r', rfl, hq, fresh_extend_value hfresh n, hc, hr⟩
    -- The statement is finished with its data, and fills the next hole itself.
    | data c => exact (ih (.ofStatement c n) r h).2

end Grammar

end ContentLang
