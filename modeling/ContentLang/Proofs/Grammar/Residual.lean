import ContentLang.Proofs.Grammar.Reading
import ContentLang.Proofs.Grammar.Reports
import ContentLang.Proofs.Grammar.Unique

/-!
# What is read was derived

The reader accepts nothing but the grammar: a list of tokens that is read without a report
has a derivation. The argument goes backwards from the end of the file. A state says what
the tokens to come must be, if they are to be read without a report: its **residual**
(`ContentLang.Grammar.Residual`). The holes are read off innermost first, each as what is
still missing of the rule it belongs to (`ContentLang.Grammar.Fills`).

| part of the state | what is missing |
|---|---|
| item of a sequence | the rest of the sequence and its closing bracket |
| value of a block | the rest of the block, with no key that is there already |
| data of a call | nothing more than what is missing around the statement |

One token takes a state to one whose residual is what was missing behind the token
(`ContentLang.Grammar.residual_of_feed`), unless it is reported, and a report stays.
-/

namespace ContentLang

/-! ### Reports stay -/

namespace Assembly

/-- Whether nothing was reported so far. -/
def Clean (a : Assembly) : Prop := a.reversedDiagnostics = []

theorem goto_of_phase {a : Assembly} {p : Phase} (h : a.phase = p) : a.goto p = a := by
  rw [goto, ← h]

theorem not_clean_report (a : Assembly) (o : Origin) (p : Problem) : ¬ (a.report o p).Clean :=
  List.cons_ne_nil _ _

/-- A state that another one comes from has reported no more than it. -/
theorem Adds.clean {a a' : Assembly} (h : Adds a a') (h' : a'.Clean) : a.Clean := by
  obtain ⟨ds, -, ha⟩ := h
  have hnil : ds ++ a.reversedDiagnostics = [] := ha.symm.trans h'
  exact (List.append_eq_nil_iff.mp hnil).2

theorem clean_fill {a : Assembly} {n : Node} (h : (a.finish n).Clean) :
    (fill n a.holes).2.2 = [] := by
  have h' : (fill n a.holes).2.2.reverse ++ a.reversedDiagnostics = [] := h
  exact List.reverse_eq_nil_iff.mp (List.append_eq_nil_iff.mp h').1

theorem clean_of_read {a : Assembly} {ts : List Token} (h : (a.read ts).2 = []) : a.Clean := by
  induction ts generalizing a with
  | nil =>
    have h' : a.reversedDiagnostics.reverse ++ a.close.2 = [] := h
    simpa [Clean] using (List.append_eq_nil_iff.mp h').1
  | cons t ts ih => exact (adds_feed a t).clean (ih h)

end Assembly

namespace Grammar

/-! ### What is missing -/

/-- What tokens to come may have to be. -/
abbrev Goal := List Token → Prop

/-- An element, and then a goal. -/
def ElementThen (G : Goal) : Goal := fun r =>
  ∃ (e : Element) (r' : List Token), r = e.tokens ++ r' ∧ e.Valid r'.head? ∧ G r'

/-- What is missing after the parameters of a call: data, unless an ender comes next. -/
def Called (G : Goal) : Goal := fun r =>
  ((∀ t ∈ r.head?, t.isEnder = true) ∧ G r) ∨ ElementThen G r

/-- What is missing after the elements of a sequence. -/
def ClosesSequence (G : Goal) : Sequence → Goal
  | .file => fun r => r = []
  | .array _ => fun r => ∃ c r', r = c :: r' ∧ c.isSymbol ']' = true ∧ G r'
  | .params _ => fun r => ∃ c r', r = c :: r' ∧ c.isSymbol ')' = true ∧ Called G r'

/-- What is missing in a sequence. -/
def InElements (s : Sequence) (G : Goal) : Goal := fun r =>
  ∃ (q : Elements) (r' : List Token), r = q.tokens ++ r' ∧ q.Valid r'.head? ∧
    ClosesSequence G s r'

/-- What is missing in a block. -/
def InEntries (b : OpenBlock) (G : Goal) : Goal := fun r =>
  ∃ (q : Fields) (c : Token) (r' : List Token), r = q.tokens ++ c :: r' ∧ q.Valid (some c) ∧
    Fresh b (Entries.keys q.entries) ∧ c.isSymbol '}' = true ∧ G r'

/-- **What is missing once the innermost hole is filled.** -/
def Fills : List Hole → Goal
  | [] => InElements .file fun _ => True
  | .data _ :: hs => Fills hs
  | .item s :: hs => InElements s.of (Fills hs)
  | .value b k :: hs => fun r => Entries.contains b.entries k = false ∧
      ∃ n, InEntries (b.extend [(k, n)]) (Fills hs) r

/-- What is missing after content that may be the name of a call. -/
def Named (G : Goal) : Goal := fun r =>
  G r ∨ ∃ o r', r = o :: r' ∧ o.isSymbol '(' = true ∧ InElements (.params o) G r'

/-- **What the tokens to come must be**, for a state to read them without a report. A state
that skips an entry has reported it, so that nothing is asked of it. -/
def Residual (a : Assembly) : Goal :=
  match a.phase with
  | .between (.elements s) => InElements s.of (Fills a.holes)
  | .between (.entries b) => InEntries b (Fills a.holes)
  | .named _ => Named (Fills a.holes)
  | .called _ => Called (Fills a.holes)
  | .keyed b k => fun r => ∃ c r', r = c :: r' ∧ c.isSymbol ':' = true ∧
      ElementThen (Fills (.value b k :: a.holes)) r'
  | .valued b k => ElementThen (Fills (.value b k :: a.holes))
  | .skipping _ _ => fun _ => True

/-! ### One token -/

theorem fresh_cons {b : OpenBlock} {k : Token} {n : Node} {keys : List Token}
    (hk : Entries.contains b.entries k = false) (h : Fresh (b.extend [(k, n)]) keys) :
    Fresh b (k :: keys) := by
  obtain ⟨hd, hc⟩ := h
  have hsplit : ∀ l ∈ keys, (k == l) = false ∧ Entries.contains b.entries l = false := by
    intro l hl
    have := hc l hl
    simpa [OpenBlock.extend, Entries.contains, Entries.find?, List.find?_append, and_comm]
      using this
  refine ⟨List.pairwise_cons.mpr ⟨fun l hl => (hsplit l hl).1, hd⟩, fun l hl => ?_⟩
  rcases List.mem_cons.mp hl with rfl | hl
  · exact hk
  · exact (hsplit l hl).2

/-- What is missing after a node is finished is what was missing behind it. -/
theorem fills_of_finish {a : Assembly} {n : Node} {r : List Token} (hc : (a.finish n).Clean)
    (h : Residual (a.finish n) r) : Fills a.holes r := by
  obtain ⟨holes, phase, ds⟩ := a
  induction holes generalizing n with
  | nil => exact h
  | cons hole hs ih =>
    cases hole with
    | item s => exact h
    -- A key that is there already would have been reported.
    | value b k =>
      have hk : Entries.contains b.entries k = false := by
        have hds := Assembly.clean_fill hc
        simp only [fill, OpenBlock.enter] at hds
        split at hds
        · exact absurd hds (List.cons_ne_nil _ _)
        · exact Bool.eq_false_iff.mpr ‹_›
      have hfin := Assembly.finish_value ⟨hs, phase, ds⟩ hk n
      rw [OpenBlock.insert_new b hk] at hfin
      have h' : Residual ((Assembly.expect ⟨hs, phase, ds⟩ (.value b k)).finish n) r := h
      rw [hfin] at h'
      exact ⟨hk, n, h'⟩
    | data c => exact ih hc h

/-- An element begins where its first token leads to what it may be. -/
theorem elementThen_of_begin {a : Assembly} {t : Token} {r : List Token}
    (hc : (a.begin t).Clean) (h : Residual (a.begin t) r) :
    ElementThen (Fills a.holes) (t :: r) := by
  unfold Assembly.begin at hc h
  by_cases hct : t.isContent = true
  · simp only [hct, if_true] at h
    -- Content by itself, or the name of a call with its parameters.
    rcases h with h | ⟨o, r', rfl, ho, ps, r'', rfl, hps, c, r', rfl, hcl, h⟩
    · exact ⟨.content t, r, rfl, hct, h⟩
    -- Behind the parameters there is an ender, or else data.
    · rcases h with ⟨hend, h⟩ | ⟨d, r'', rfl, hd, h⟩
      · exact ⟨.call t o ps c, r', by simp [Element.tokens], ⟨hct, ho, hps, hcl, hend⟩, h⟩
      · exact ⟨.statement t o ps c d, r'', by simp [Element.tokens], ⟨hct, ho, hps, hcl, hd⟩, h⟩
  by_cases ha : t.isSymbol '[' = true
  · simp only [hct, ha, Bool.false_eq_true, if_true, if_false] at h
    obtain ⟨q, r', rfl, hq, c, r'', rfl, hcl, h⟩ := h
    exact ⟨.array t q c, r'', by simp [Element.tokens], ⟨ha, hq, hcl⟩, h⟩
  by_cases hb : t.isSymbol '{' = true
  · simp only [hct, ha, hb, Bool.false_eq_true, if_true, if_false] at h
    obtain ⟨q, c, r', rfl, hq, hk, hcl, h⟩ := h
    exact ⟨.block t q c, r', by simp [Element.tokens], ⟨hb, hq, hk.1, hcl⟩, h⟩
  by_cases hn : t.isNull = true
  · simp only [hct, ha, hb, hn, Bool.false_eq_true, if_true, if_false] at hc h
    rw [TokenOf.isNull_eq_isSymbol] at hn
    exact ⟨.null t, r, rfl, hn, fills_of_finish hc h⟩
  -- Any other symbol is reported.
  · simp only [hct, ha, hb, hn, Bool.false_eq_true, if_false] at hc
    exact absurd ((Assembly.adds_finish _ _).clean hc) (Assembly.not_clean_report _ _ _)

theorem inElements_of_inSequence {a : Assembly} {s : OpenSequence} {t : Token} {r : List Token}
    (hc : (a.inSequence s t).Clean) (h : Residual (a.inSequence s t) r) :
    InElements s.of (Fills a.holes) (t :: r) := by
  have hother : (Assembly.inSequence.other a s t).Clean →
      Residual (Assembly.inSequence.other a s t) r → InElements s.of (Fills a.holes) (t :: r) := by
    intro hc h
    unfold Assembly.inSequence.other at hc h
    by_cases hs : t.isSeparator = true
    · simp only [hs, if_true] at h
      obtain ⟨q, r', rfl, hq, h⟩ := h
      exact ⟨.separator t q, r', rfl, ⟨hs, hq⟩, h⟩
    · simp only [hs, Bool.false_eq_true, if_false] at hc h
      obtain ⟨e, r', he, hv, q, r'', rfl, hq, h⟩ := elementThen_of_begin (a := a.expect _) hc h
      refine ⟨.element e q, r'', by rw [he, Elements.tokens, List.append_assoc], ⟨?_, hq⟩, h⟩
      simpa using hv
  unfold Assembly.inSequence at hc h
  match hs : s.of with
  | .file =>
    simp only [hs] at hc h hother
    exact hother hc h
  | .array o =>
    simp only [hs] at hc h hother
    by_cases ht : t.isSymbol ']' = true
    · simp only [ht, if_true] at hc h
      exact ⟨.nil, t :: r, rfl, trivial, t, r, rfl, ht, fills_of_finish hc h⟩
    · simp only [ht, Bool.false_eq_true, if_false] at hc h
      exact hother hc h
  | .params f =>
    simp only [hs] at hc h hother
    by_cases ht : t.isSymbol ')' = true
    · simp only [ht, if_true] at h
      exact ⟨.nil, t :: r, rfl, trivial, t, r, rfl, ht, h⟩
    · simp only [ht, Bool.false_eq_true, if_false] at hc h
      exact hother hc h

theorem inEntries_of_inBlock {a : Assembly} {b : OpenBlock} {t : Token} {r : List Token}
    (hc : (a.inBlock b t).Clean) (h : Residual (a.inBlock b t) r) :
    InEntries b (Fills a.holes) (t :: r) := by
  unfold Assembly.inBlock at hc h
  by_cases hcl : t.isSymbol '}' = true
  · simp only [hcl, if_true] at hc h
    exact ⟨.nil, t, r, rfl, trivial, ⟨List.Pairwise.nil, by simp [Entries.keys, Fields.entries]⟩,
      hcl, fills_of_finish hc h⟩
  by_cases hs : t.isSeparator = true
  · simp only [hcl, hs, Bool.false_eq_true, if_true, if_false] at h
    obtain ⟨q, c, r', rfl, hq, hk, hcl, h⟩ := h
    exact ⟨.separator t q, c, r', rfl, ⟨hs, hq⟩, hk, hcl, h⟩
  by_cases hct : t.isContent = true
  · simp only [hcl, hs, hct, Bool.false_eq_true, if_true, if_false] at h
    obtain ⟨colon, r', rfl, hcolon, v, r'', rfl, hv, hnew, n, q, c, r', rfl, hq, hk, hcl, h⟩ := h
    refine ⟨.field t colon v q, c, r', by simp [Fields.tokens], ⟨hct, hcolon, ?_, hq⟩,
      fresh_cons hnew hk, hcl, h⟩
    simpa using hv
  · simp only [hcl, hs, hct, Bool.false_eq_true, if_false] at hc
    exact absurd hc (Assembly.not_clean_report _ _ _)

/-- **One token**: what was missing before it is the token and then what is missing behind
it, unless it is reported. -/
theorem residual_of_feed {a : Assembly} {t : Token} {r : List Token} (hc : (a.feed t).Clean)
    (h : Residual (a.feed t) r) : Residual a (t :: r) := by
  have hbetween : ∀ {a : Assembly} {b : Between}, a.phase = .between b →
      (a.inBetween b t).Clean → Residual (a.inBetween b t) r → Residual a (t :: r) := by
    intro a b hp hc h
    cases b with
    | elements s =>
      rw [Residual, hp]
      exact inElements_of_inSequence hc h
    | entries b =>
      rw [Residual, hp]
      exact inEntries_of_inBlock hc h
  -- A node that ends before the token is finished first; the token goes to what is around it.
  have hfinish : ∀ n : Node, (a.finishBefore n t).Clean → Residual (a.finishBefore n t) r →
      Fills a.holes (t :: r) := fun n hc h =>
    fills_of_finish ((Assembly.adds_inBetween (a.finish n) _ t).clean hc)
      (hbetween (a := a.finish n) rfl hc h)
  unfold Assembly.feed at hc h
  match hp : a.phase with
  | .between b =>
    simp only [hp] at hc h
    exact hbetween hp hc h
  | .named f =>
    simp only [hp] at hc h
    rw [Residual, hp]
    by_cases ho : t.isSymbol '(' = true
    · simp only [ho, if_true] at h
      exact Or.inr ⟨t, r, rfl, ho, h⟩
    · simp only [ho, Bool.false_eq_true, if_false] at hc h
      exact Or.inl (hfinish _ hc h)
  | .called c =>
    simp only [hp] at hc h
    rw [Residual, hp]
    by_cases he : t.isEnder = true
    · simp only [he, if_true] at hc h
      exact Or.inl ⟨by simpa using he, hfinish _ hc h⟩
    · simp only [he, Bool.false_eq_true, if_false] at hc h
      exact Or.inr (elementThen_of_begin (a := a.expect _) hc h)
  | .keyed b k =>
    simp only [hp] at hc h
    rw [Residual, hp]
    by_cases hcolon : t.isSymbol ':' = true
    · simp only [hcolon, if_true] at h
      exact ⟨t, r, rfl, hcolon, h⟩
    · simp only [hcolon, Bool.false_eq_true, if_false] at hc
      exact absurd ((Assembly.adds_skip _ _ _ t).clean hc) (Assembly.not_clean_report _ _ _)
  | .valued b k =>
    simp only [hp] at hc h
    rw [Residual, hp]
    by_cases he : t.isEnder = true
    · simp only [he, if_true] at hc
      exact absurd ((Assembly.adds_inBlock _ _ t).clean hc) (Assembly.not_clean_report _ _ _)
    · simp only [he, Bool.false_eq_true, if_false] at hc h
      exact elementThen_of_begin (a := a.expect _) hc h
  -- Whoever skips has reported something, so nothing is missing.
  | .skipping b depth =>
    rw [Residual, hp]
    trivial

/-! ### The end of the file -/

/-- Holes that the end of the file closes without a report are missing nothing. -/
theorem fills_of_closeWith {n : Node} {hs : List Hole} (h : (closeWith n hs).2 = []) :
    Fills hs [] := by
  induction hs generalizing n with
  | nil => exact ⟨.nil, [], rfl, trivial, rfl⟩
  | cons hole hs ih =>
    cases hole with
    | item s =>
      obtain ⟨of, reversed⟩ := s
      cases of with
      | file => exact ⟨.nil, [], rfl, trivial, rfl⟩
      | array o => exact absurd h (List.cons_ne_nil _ _)
      | params f => exact absurd h (List.cons_ne_nil _ _)
    | value b k => simp [closeWith] at h
    | data c => exact ih h

theorem residual_of_result {a : Assembly} (h : a.result.2 = []) : Residual a [] := by
  have hclose : a.close.2 = [] := by
    have h' : a.reversedDiagnostics.reverse ++ a.close.2 = [] := h
    exact (List.append_eq_nil_iff.mp h').2
  unfold Assembly.close at hclose
  match hp : a.phase with
  | .between (.elements s) =>
    simp only [hp] at hclose
    rw [Residual, hp]
    obtain ⟨of, reversed⟩ := s
    cases of with
    | file => exact ⟨.nil, [], rfl, trivial, rfl⟩
    | array o => exact absurd hclose (List.cons_ne_nil _ _)
    | params f => exact absurd hclose (List.cons_ne_nil _ _)
  | .between (.entries b) =>
    simp only [hp] at hclose
    exact absurd hclose (List.cons_ne_nil _ _)
  | .named f =>
    simp only [hp] at hclose
    rw [Residual, hp]
    exact Or.inl (fills_of_closeWith hclose)
  | .called c =>
    simp only [hp] at hclose
    rw [Residual, hp]
    exact Or.inl ⟨by simp, fills_of_closeWith hclose⟩
  | .keyed b k =>
    simp only [hp] at hclose
    exact absurd hclose (List.cons_ne_nil _ _)
  | .valued b k =>
    simp only [hp] at hclose
    exact absurd hclose (List.cons_ne_nil _ _)
  | .skipping b depth =>
    rw [Residual, hp]
    trivial

/-- **A run over tokens without a report** is over what the state was missing. -/
theorem residual_of_read {a : Assembly} {ts : List Token} (h : (a.read ts).2 = []) :
    Residual a ts := by
  induction ts generalizing a with
  | nil => exact residual_of_result h
  | cons t ts ih =>
    exact residual_of_feed (Assembly.clean_of_read h) (ih h)

/-- **What is read without a report was derived.** -/
theorem derives_of_parse {ts : List Token} (h : (parse ts).2 = []) : ∃ d, Derives d ts := by
  obtain ⟨d, r, rfl, hd, hr⟩ : InElements .file _ ts := residual_of_read (a := .start) h
  obtain rfl : r = [] := hr
  exact ⟨d, (List.append_nil _).symm, hd⟩

/-! ### The grammar -/

/-- **The reader accepts exactly its grammar**: a list of tokens is read without a report if
and only if it has a derivation, and then it has no other one and the nodes read are those of
the derivation. -/
theorem parse_iff_derivation (ts : List Token) :
    ((parse ts).2 = [] ↔ ∃ d, Derives d ts) ∧
      ∀ d, Derives d ts → (parse ts).1 = d.nodes ∧ ∀ d', Derives d' ts → d' = d := by
  refine ⟨⟨derives_of_parse, ?_⟩, fun d hd => ⟨?_, fun d' hd' => derives_unique hd' hd⟩⟩
  · rintro ⟨d, hd⟩
    rw [parse_of_derives hd]
  · rw [parse_of_derives hd]

end Grammar

end ContentLang
