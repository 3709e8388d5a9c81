import ContentLang.Proofs.Grammar.Derivation

/-!
# Reading what is derived

A derived list of tokens is read without a report, and as the nodes of its derivation.
The reader finishes most elements only when it sees the token after them, so its state at
the end of an element is not the state in which the element is finished. The statements
here are therefore about everything that is still to come: to read an element and then
some tokens is to finish the element and to read these tokens
(`ContentLang.Grammar.Element.read_begin`), whatever the holes around it.

`ContentLang.Assembly.read` is what a state makes of all tokens to come. Two states count
as the same here if they make the same of them.
-/

namespace ContentLang

namespace Assembly

/-- What a state makes of the tokens to come: the elements of the file and all
diagnostics. -/
def read (a : Assembly) (ts : List Token) : List Node × List Diagnostic := (a.feedAll ts).result

@[simp] theorem read_nil (a : Assembly) : a.read [] = a.result := rfl

@[simp] theorem read_cons (a : Assembly) (t : Token) (ts : List Token) :
    a.read (t :: ts) = (a.feed t).read ts := rfl

/-- What a state makes of the tokens to come where an element begins. -/
def readElement (a : Assembly) : List Token → List Node × List Diagnostic
  | [] => a.result
  | t :: ts => (a.begin t).read ts

/-! ### States that put off finishing a node -/

/-- The end of the file finishes a node as any token does. -/
theorem result_finish (a : Assembly) (n : Node) :
    (a.finish n).result =
      ((closeWith n a.holes).1, a.reversedDiagnostics.reverse ++ (closeWith n a.holes).2) := by
  obtain ⟨holes, phase, ds⟩ := a
  induction holes generalizing n with
  | nil => rfl
  | cons h hs ih =>
    cases h with
    | item s =>
      simp only [finish, fill, result, close, closeWith, List.reverse_nil, List.nil_append]
    | value b k => simp [finish, fill, result, close, closeBlock, closeWith]
    | data c => exact ih (.ofStatement c n)

/-- Content that no parenthesis follows is a node of its own. -/
theorem read_named (a : Assembly) (t : Token) {ts : List Token}
    (h : Grammar.NoCall ts) : (a.goto (.named t)).read ts = (a.finish (.token t)).read ts := by
  cases ts with
  | nil =>
    rw [read_nil, read_nil, result_finish]
    rfl
  | cons u us =>
    have hu : u.isSymbol '(' = false := Grammar.noCall_cons.mp h
    simp only [read_cons, feed, goto, hu, Bool.false_eq_true, if_false]
    rfl

/-- A call that an ender or nothing follows is a node of its own. -/
theorem read_called (a : Assembly) (c : Call) {ts : List Token}
    (h : ∀ t ∈ ts.head?, t.isEnder = true) :
    (a.goto (.called c)).read ts = (a.finish (.ofCall c)).read ts := by
  cases ts with
  | nil =>
    rw [read_nil, read_nil, result_finish]
    rfl
  | cons u us =>
    have hu : u.isEnder = true := h u rfl
    simp only [read_cons, feed, goto, hu, if_true]
    rfl

/-- A call that an element follows waits for it. -/
theorem read_called_element (a : Assembly) (c : Call) {t : Token} (h : t.beginsElement = true)
    (ts : List Token) :
    (a.goto (.called c)).read (t :: ts) = (a.expect (.data c)).readElement (t :: ts) := by
  have ht := TokenOf.isEnder_of_beginsElement h
  simp only [read_cons, feed, goto, ht, Bool.false_eq_true, if_false, readElement]
  rfl

/-! ### Between two elements -/

theorem feed_separator (a : Assembly) (s : OpenSequence) {t : Token} (h : t.isSeparator = true) :
    (a.goto (.between (.elements s))).feed t = a.goto (.between (.elements s)) := by
  have hc : t.isSymbol ']' = false ∧ t.isSymbol ')' = false :=
    ⟨TokenOf.isSymbol_of_isSeparator h (by decide), TokenOf.isSymbol_of_isSeparator h (by decide)⟩
  simp only [feed, goto, inBetween, inSequence, inSequence.other, h, hc, if_true,
    Bool.false_eq_true, if_false]
  split <;> rfl

theorem feed_element (a : Assembly) (s : OpenSequence) {t : Token} (h : t.beginsElement = true) :
    (a.goto (.between (.elements s))).feed t = (a.expect (.item s)).begin t := by
  have hs := TokenOf.isSeparator_of_beginsElement h
  have hc : t.isSymbol ']' = false := TokenOf.isSymbol_of_beginsElement h (by decide)
  have hp : t.isSymbol ')' = false := TokenOf.isSymbol_of_beginsElement h (by decide)
  simp only [feed, goto, inBetween, inSequence, inSequence.other, hs, hc, hp,
    Bool.false_eq_true, if_false]
  split <;> rfl

/-! ### Filling holes -/

theorem finish_data (a : Assembly) (c : Call) (n : Node) :
    (a.expect (.data c)).finish n = a.finish (.ofStatement c n) := rfl

theorem finish_item (a : Assembly) (s : OpenSequence) (n : Node) :
    (a.expect (.item s)).finish n = a.goto (.between (.elements (s.push n))) := rfl

theorem finish_value (a : Assembly) {b : OpenBlock} {k : Token}
    (h : Entries.contains b.entries k = false) (n : Node) :
    (a.expect (.value b k)).finish n =
      a.goto (.between (.entries { b with entries := Entries.insert b.entries k n })) := by
  simp [expect, finish, fill, OpenBlock.enter, h, goto]

end Assembly

/-! ### Sequences and blocks so far -/

/-- A sequence with some more elements. -/
def OpenSequence.extend (s : OpenSequence) (ns : List Node) : OpenSequence :=
  { s with reversed := ns.reverse ++ s.reversed }

theorem OpenSequence.extend_push (s : OpenSequence) (n : Node) (ns : List Node) :
    (s.push n).extend ns = s.extend (n :: ns) := by
  simp [OpenSequence.extend, OpenSequence.push]

theorem OpenSequence.items_extend (s : OpenSequence) (ns : List Node) :
    (s.extend ns).items = s.items ++ ns := by
  simp [OpenSequence.extend, OpenSequence.items]

/-- A block with some more entries. -/
def OpenBlock.extend (b : OpenBlock) (es : Entries Token Node) : OpenBlock :=
  { b with entries := b.entries ++ es }

theorem OpenBlock.extend_nil (b : OpenBlock) : b.extend [] = b := by
  simp [OpenBlock.extend]

/-- A key that is new to a block is entered at its end. -/
theorem OpenBlock.insert_new (b : OpenBlock) {k : Token}
    (h : Entries.contains b.entries k = false) (n : Node) :
    ({ b with entries := Entries.insert b.entries k n } : OpenBlock) = b.extend [(k, n)] := by
  have hf : Entries.find? b.entries k = none := by simpa [Entries.contains] using h
  simp [OpenBlock.extend, Entries.insert, hf]

theorem OpenBlock.extend_cons (b : OpenBlock) (e : Token × Node) (es : Entries Token Node) :
    (b.extend [e]).extend es = b.extend (e :: es) := by
  simp [OpenBlock.extend]

namespace Grammar

/-- Whether a block has none of some keys, which differ. -/
def Fresh (b : OpenBlock) (keys : List Token) : Prop :=
  Distinct keys ∧ ∀ k ∈ keys, Entries.contains b.entries k = false

theorem fresh_empty (t : Token) {keys : List Token} (h : Distinct keys) : Fresh ⟨t, []⟩ keys :=
  ⟨h, fun _ _ => rfl⟩

theorem fresh_extend {b : OpenBlock} {k : Token} {keys : List Token} (h : Fresh b (k :: keys))
    (n : Node) : Fresh (b.extend [(k, n)]) keys := by
  obtain ⟨hd, hc⟩ := h
  refine ⟨(List.pairwise_cons.mp hd).2, fun l hl => ?_⟩
  have hne : (k == l) = false := (List.pairwise_cons.mp hd).1 l hl
  have hl' : Entries.contains b.entries l = false := hc l (List.mem_cons_of_mem k hl)
  simpa [OpenBlock.extend, Entries.contains, Entries.find?, List.find?_append, hne] using hl'

/-! ### The induction -/

mutual

/-- **To read an element is to finish its node**, if what follows does not turn the end of
the element into something else. -/
theorem Element.read_begin (e : Element) (a : Assembly) {r : List Token} (h : e.Valid r.head?)
    (hr : NoCall r) : a.readElement (e.tokens ++ r) = (a.finish e.node).read r := by
  match e with
  | .content t =>
    have ht : t.isContent = true := h
    have hb : a.begin t = a.goto (.named t) := by simp [Assembly.begin, ht]
    calc a.readElement (t :: r)
        = (a.goto (.named t)).read r := by rw [Assembly.readElement, hb]
      _ = (a.finish (.token t)).read r := Assembly.read_named a t hr
  | .null t =>
    have ht : t.isSymbol '~' = true := h
    have hb : a.begin t = a.finish (.token t) := by
      simp [Assembly.begin, TokenOf.isContent_of_isSymbol ht,
        TokenOf.isSymbol_eq_false ht (d := '[') (by decide),
        TokenOf.isSymbol_eq_false ht (d := '{') (by decide), TokenOf.isNull_eq_isSymbol, ht]
    rw [Element.tokens, List.singleton_append, Assembly.readElement, hb]
    rfl
  | .array o b c =>
    obtain ⟨ho, hb, hc⟩ := h
    have hbegin : a.begin o = a.goto (.between (.elements ⟨.array o, []⟩)) := by
      simp [Assembly.begin, TokenOf.isContent_of_isSymbol ho, ho]
    -- The closing bracket finishes the array of whatever items there are by then.
    have hclose : ∀ s : OpenSequence, s.of = .array o →
        (a.goto (.between (.elements s))).feed c = a.finish (.array s.items o.origin) := by
      intro s hs
      simp [Assembly.feed, Assembly.goto, Assembly.inBetween, Assembly.inSequence, hs, hc]
      rfl
    calc a.readElement ((Element.array o b c).tokens ++ r)
        = (a.goto (.between (.elements ⟨.array o, []⟩))).read (b.tokens ++ c :: r) := by
          simp [Element.tokens, Assembly.readElement, hbegin]
      _ = (a.goto (.between (.elements ((⟨.array o, []⟩ : OpenSequence).extend b.nodes)))).read
            (c :: r) := Elements.read b a _ hb
              (noCall_cons.mpr (TokenOf.isSymbol_eq_false hc (by decide)))
      _ = (a.finish (.array b.nodes o.origin)).read r := by
          rw [Assembly.read_cons, hclose _ rfl, OpenSequence.items_extend]
          rfl
  | .block o b c =>
    obtain ⟨ho, hb, hd, hc⟩ := h
    have hbegin : a.begin o = a.goto (.between (.entries ⟨o, []⟩)) := by
      simp [Assembly.begin, TokenOf.isContent_of_isSymbol ho,
        TokenOf.isSymbol_eq_false ho (d := '[') (by decide), ho]
    have hclose : ∀ b : OpenBlock,
        (a.goto (.between (.entries b))).feed c = a.finish b.node := by
      intro b
      simp [Assembly.feed, Assembly.goto, Assembly.inBetween, Assembly.inBlock, hc]
      rfl
    calc a.readElement ((Element.block o b c).tokens ++ r)
        = (a.goto (.between (.entries ⟨o, []⟩))).read (b.tokens ++ c :: r) := by
          simp [Element.tokens, Assembly.readElement, hbegin]
      _ = (a.goto (.between (.entries ((⟨o, []⟩ : OpenBlock).extend b.entries)))).read
            (c :: r) := Fields.read b a _ hb
              (noCall_cons.mpr (TokenOf.isSymbol_eq_false hc (by decide))) (fresh_empty o hd)
      _ = (a.finish (.block b.entries o.origin)).read r := by
          rw [Assembly.read_cons, hclose]
          rfl
  | .call f o ps c =>
    obtain ⟨hf, ho, hps, hc, hend⟩ := h
    calc a.readElement ((Element.call f o ps c).tokens ++ r)
        = (a.goto (.named f)).read (o :: (ps.tokens ++ c :: r)) := by
          simp [Element.tokens, Assembly.readElement, Assembly.begin, hf]
      _ = (a.goto (.called (callOf f ps.nodes))).read r := Elements.read_params ps a ho hps hc
      _ = (a.finish (.ofCall (callOf f ps.nodes))).read r := Assembly.read_called a _ hend
  | .statement f o ps c d =>
    obtain ⟨hf, ho, hps, hc, hd⟩ := h
    have hhead := Element.beginsElement_head hd
    calc a.readElement ((Element.statement f o ps c d).tokens ++ r)
        = (a.goto (.named f)).read (o :: (ps.tokens ++ c :: (d.tokens ++ r))) := by
          simp [Element.tokens, Assembly.readElement, Assembly.begin, hf]
      _ = (a.goto (.called (callOf f ps.nodes))).read (d.tokens ++ r) :=
          Elements.read_params ps a ho hps hc
      -- Data begins no ender, so the call expects it in a hole of its own.
      _ = (a.expect (.data (callOf f ps.nodes))).readElement (d.tokens ++ r) := by
          rw [Element.tokens_eq_cons, List.cons_append, Assembly.read_called_element a _ hhead]
      _ = ((a.expect (.data (callOf f ps.nodes))).finish d.node).read r :=
          Element.read_begin d _ hd hr
      _ = (a.finish (.ofStatement (callOf f ps.nodes) d.node)).read r := by
          rw [Assembly.finish_data]

/-- To read the parameters of a call is to come to what may be its data. -/
theorem Elements.read_params (ps : Elements) (a : Assembly) {f o c : Token} {r : List Token}
    (ho : o.isSymbol '(' = true) (h : ps.Valid (some c)) (hc : c.isSymbol ')' = true) :
    (a.goto (.named f)).read (o :: (ps.tokens ++ c :: r)) =
      (a.goto (.called (callOf f ps.nodes))).read r := by
  have hopen : (a.goto (.named f)).feed o = a.goto (.between (.elements ⟨.params f, []⟩)) := by
    simp [Assembly.feed, Assembly.goto, ho]
  have hclose : ∀ s : OpenSequence, s.of = .params f →
      (a.goto (.between (.elements s))).feed c = a.goto (.called (callOf f s.items)) := by
    intro s hs
    simp [Assembly.feed, Assembly.goto, Assembly.inBetween, Assembly.inSequence, hs, hc]
  calc (a.goto (.named f)).read (o :: (ps.tokens ++ c :: r))
      = (a.goto (.between (.elements ⟨.params f, []⟩))).read (ps.tokens ++ c :: r) := by
        rw [Assembly.read_cons, hopen]
    _ = (a.goto (.between (.elements ((⟨.params f, []⟩ : OpenSequence).extend ps.nodes)))).read
          (c :: r) := Elements.read ps a _ h
            (noCall_cons.mpr (TokenOf.isSymbol_eq_false hc (by decide)))
    _ = (a.goto (.called (callOf f ps.nodes))).read r := by
        rw [Assembly.read_cons, hclose _ rfl, OpenSequence.items_extend]
        rfl

/-- To read a sequence of elements is to add their nodes. -/
theorem Elements.read (q : Elements) (a : Assembly) (s : OpenSequence) {r : List Token}
    (h : q.Valid r.head?) (hr : NoCall r) :
    (a.goto (.between (.elements s))).read (q.tokens ++ r) =
      (a.goto (.between (.elements (s.extend q.nodes)))).read r := by
  match q with
  | .nil => rfl
  | .separator t q =>
    obtain ⟨ht, hq⟩ := h
    have hstep : (a.goto (.between (.elements s))).feed t = a.goto (.between (.elements s)) :=
      Assembly.feed_separator a s ht
    calc (a.goto (.between (.elements s))).read (t :: (q.tokens ++ r))
        = (a.goto (.between (.elements s))).read (q.tokens ++ r) := by
          rw [Assembly.read_cons, hstep]
      _ = (a.goto (.between (.elements (s.extend q.nodes)))).read r := Elements.read q a s hq hr
  | .element e q =>
    obtain ⟨he, hq⟩ := h
    have hhead := Element.beginsElement_head he
    have hstep : (a.goto (.between (.elements s))).feed e.head =
        (a.expect (.item s)).begin e.head := Assembly.feed_element a s hhead
    calc (a.goto (.between (.elements s))).read ((e.tokens ++ q.tokens) ++ r)
        = (a.expect (.item s)).readElement (e.tokens ++ (q.tokens ++ r)) := by
          rw [Element.tokens_eq_cons, List.append_assoc, List.cons_append, Assembly.read_cons,
            hstep]
          rfl
      _ = ((a.expect (.item s)).finish e.node).read (q.tokens ++ r) :=
          Element.read_begin e _ (by simpa using he) (Elements.noCall hq hr)
      _ = (a.goto (.between (.elements (s.push e.node)))).read (q.tokens ++ r) := by
          rw [Assembly.finish_item]
      _ = (a.goto (.between (.elements ((s.push e.node).extend q.nodes)))).read r :=
          Elements.read q a _ hq hr
      _ = (a.goto (.between (.elements (s.extend (e.node :: q.nodes))))).read r := by
          rw [OpenSequence.extend_push]

/-- To read a sequence of entries is to enter them, if their keys are new. -/
theorem Fields.read (q : Fields) (a : Assembly) (b : OpenBlock) {r : List Token}
    (h : q.Valid r.head?) (hr : NoCall r) (hb : Fresh b (Entries.keys q.entries)) :
    (a.goto (.between (.entries b))).read (q.tokens ++ r) =
      (a.goto (.between (.entries (b.extend q.entries)))).read r := by
  match q with
  | .nil => rw [Fields.entries, OpenBlock.extend_nil]; rfl
  | .separator t q =>
    obtain ⟨ht, hq⟩ := h
    have hstep : (a.goto (.between (.entries b))).feed t = a.goto (.between (.entries b)) := by
      have hc : t.isSymbol '}' = false := TokenOf.isSymbol_of_isSeparator ht (by decide)
      simp [Assembly.feed, Assembly.goto, Assembly.inBetween, Assembly.inBlock, hc, ht]
    calc (a.goto (.between (.entries b))).read (t :: (q.tokens ++ r))
        = (a.goto (.between (.entries b))).read (q.tokens ++ r) := by
          rw [Assembly.read_cons, hstep]
      _ = (a.goto (.between (.entries (b.extend q.entries)))).read r := Fields.read q a b hq hr hb
  | .field k c v q =>
    obtain ⟨hk, hc, hv, hq⟩ := h
    -- The key is new to the block, and the keys after it stay new once it is entered.
    have hnew : Entries.contains b.entries k = false := hb.2 k (List.mem_cons_self ..)
    have hhead := Element.beginsElement_head hv
    have hkey : (a.goto (.between (.entries b))).feed k = a.goto (.keyed b k) := by
      simp [Assembly.feed, Assembly.goto, Assembly.inBetween, Assembly.inBlock,
        TokenOf.isSymbol_of_isContent hk, TokenOf.isSeparator, hk]
    have hcolon : (a.goto (.keyed b k)).feed c = a.goto (.valued b k) := by
      simp [Assembly.feed, Assembly.goto, hc]
    have hvalue : (a.goto (.valued b k)).feed v.head = (a.expect (.value b k)).begin v.head := by
      simp only [Assembly.feed, Assembly.goto, TokenOf.isEnder_of_beginsElement hhead,
        Bool.false_eq_true, if_false]
      rfl
    calc (a.goto (.between (.entries b))).read (k :: c :: (v.tokens ++ q.tokens) ++ r)
        = (a.expect (.value b k)).readElement (v.tokens ++ (q.tokens ++ r)) := by
          rw [Element.tokens_eq_cons]
          simp only [List.cons_append, List.append_assoc, Assembly.read_cons, hkey, hcolon, hvalue]
          rfl
      _ = ((a.expect (.value b k)).finish v.node).read (q.tokens ++ r) :=
          Element.read_begin v _ (by simpa using hv) (Fields.noCall hq hr)
      _ = (a.goto (.between (.entries (b.extend [(k, v.node)])))).read (q.tokens ++ r) := by
          rw [Assembly.finish_value a hnew, OpenBlock.insert_new b hnew]
      _ = (a.goto (.between (.entries ((b.extend [(k, v.node)]).extend q.entries)))).read r :=
          Fields.read q a _ hq hr (fresh_extend hb v.node)
      _ = (a.goto (.between (.entries (b.extend ((k, v.node) :: q.entries))))).read r := by
          rw [OpenBlock.extend_cons]

end

/-- **What is derived is read without a report**, as the nodes of its derivation. -/
theorem parse_of_derives {d : Elements} {ts : List Token} (h : Derives d ts) :
    parse ts = (d.nodes, []) := by
  obtain ⟨rfl, hv⟩ := h
  have hread := Elements.read d .start ⟨.file, []⟩ (r := []) hv (by simp [NoCall])
  calc parse d.tokens
      = (Assembly.start.goto (.between (.elements ⟨.file, []⟩))).read (d.tokens ++ []) := by
        rw [List.append_nil]
        rfl
    _ = (d.nodes, []) := by
        rw [hread, Assembly.read_nil]
        simp [Assembly.result, Assembly.close, Assembly.goto, Assembly.start,
          OpenSequence.close?, OpenSequence.extend, OpenSequence.items]

end Grammar

end ContentLang
