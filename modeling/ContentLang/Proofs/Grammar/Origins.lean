import ContentLang.Proofs.Grammar.Reports
import ContentLang.Proofs.Nodes.Bare

/-!
# Where nodes of a text come from

The reader makes up no origin: each node that it gives, and each node and key in it, comes from
where one of the tokens does (`ContentLang.comesFrom_parse`). A node that is not finished is kept in
parts, in the holes and in the phase, so the invariant is about all parts that a state keeps
(`ContentLang.Assembly.Holds`).

Nothing is bound at a token of a text, so what is read from a text is **fresh**: no node in it has
captured any bindings (`ContentLang.fresh_parseText`).
-/

namespace ContentLang

/-! ### Origins in a node -/

/-- **Whether all that is in a node comes from where `P` holds.** -/
inductive Node.ComesFrom (P : Origin → Prop) : Node → Prop
  | token {t : Token} (ht : P t.origin) : ComesFrom P (.token t)
  | call {f : String} {ps : List Node} {o : Origin} (ho : P o) (hps : ∀ p ∈ ps, ComesFrom P p) :
    ComesFrom P (.call f ps o)
  | statement {f : String} {ps : List Node} {o : Origin} {data : Node} (ho : P o)
    (hps : ∀ p ∈ ps, ComesFrom P p) (hdata : ComesFrom P data) :
    ComesFrom P (.statement f ps o data)
  | block {es : List (Token × Node)} {o : Origin} (ho : P o) (hkeys : ∀ e ∈ es, P e.1.origin)
    (hvalues : ∀ e ∈ es, ComesFrom P e.2) : ComesFrom P (.block es o)
  | array {is : List Node} {o : Origin} (ho : P o) (his : ∀ i ∈ is, ComesFrom P i) :
    ComesFrom P (.array is o)

variable {P : Origin → Prop}

theorem Node.ComesFrom.origin {n : Node} (h : n.ComesFrom P) : P n.origin := by
  cases h <;> assumption

/-! ### Parts that are kept -/

/-- Whether the token that opened a sequence comes from where `P` holds. -/
def Sequence.Holds (P : Origin → Prop) : Sequence → Prop
  | .file => True
  | .array opening => P opening.origin
  | .params name => P name.origin

/-- Whether a sequence that is being read, and all in it, comes from where `P` holds. -/
structure OpenSequence.Holds (P : Origin → Prop) (s : OpenSequence) : Prop where
  of : s.of.Holds P
  items : ∀ n ∈ s.reversed, n.ComesFrom P

/-- Whether a block that is being read, and all in it, comes from where `P` holds. -/
structure OpenBlock.Holds (P : Origin → Prop) (b : OpenBlock) : Prop where
  opening : P b.opening.origin
  keys : ∀ e ∈ b.entries, P e.1.origin
  values : ∀ e ∈ b.entries, e.2.ComesFrom P

/-- Whether the parts kept for a hole come from where `P` holds. -/
def Hole.Holds (P : Origin → Prop) : Hole → Prop
  | .item s => s.Holds P
  | .value b key => b.Holds P ∧ P key.origin
  | .data c => (Node.ofCall c).ComesFrom P

/-- Whether the parts kept between two elements or entries come from where `P` holds. -/
def Between.Holds (P : Origin → Prop) : Between → Prop
  | .elements s => s.Holds P
  | .entries b => b.Holds P

/-- Whether the parts kept in a phase come from where `P` holds. -/
def Phase.Holds (P : Origin → Prop) : Phase → Prop
  | .between b => b.Holds P
  | .named name => P name.origin
  | .called c => (Node.ofCall c).ComesFrom P
  | .keyed b key => b.Holds P ∧ P key.origin
  | .valued b key => b.Holds P ∧ P key.origin
  | .skipping b _ => b.Holds P

/-- **Whether all parts that a state keeps come from where `P` holds.** -/
structure Assembly.Holds (P : Origin → Prop) (a : Assembly) : Prop where
  holes : ∀ h ∈ a.holes, h.Holds P
  phase : a.phase.Holds P

/-! ### Parts put together -/

section

variable {s : OpenSequence} {b : OpenBlock} {n : Node}

theorem OpenSequence.Holds.push (hs : s.Holds P) (hn : n.ComesFrom P) : (s.push n).Holds P :=
  ⟨hs.of, List.forall_mem_cons.mpr ⟨hn, hs.items⟩⟩

theorem OpenSequence.Holds.mem_items (hs : s.Holds P) : ∀ i ∈ s.items, i.ComesFrom P :=
  fun i hi => hs.items i (List.mem_reverse.mp hi)

theorem OpenBlock.holds_empty {t : Token} (ht : P t.origin) : OpenBlock.Holds P ⟨t, []⟩ :=
  ⟨ht, by simp, by simp⟩

theorem OpenBlock.Holds.node (hb : b.Holds P) : b.node.ComesFrom P :=
  .block hb.opening hb.keys hb.values

/-- A key that is there already leaves the block as it is, another one goes to the end. -/
theorem OpenBlock.Holds.enter (hb : b.Holds P) {k : Token} (hk : P k.origin)
    (hn : n.ComesFrom P) : (b.enter k n).1.Holds P := by
  unfold OpenBlock.enter
  split
  · exact hb
  next hnew =>
    have hfind : Entries.find? b.entries k = none := by simpa [Entries.contains] using hnew
    have hinsert : Entries.insert b.entries k n = b.entries ++ [(k, n)] := by
      simp only [Entries.insert, hfind]
    refine ⟨hb.opening, ?_, ?_⟩ <;> simp only [hinsert]
    · exact List.forall_mem_append.mpr ⟨hb.keys, List.forall_mem_singleton.mpr hk⟩
    · exact List.forall_mem_append.mpr ⟨hb.values, List.forall_mem_singleton.mpr hn⟩

theorem comesFrom_statement {c : Call} (hc : (Node.ofCall c).ComesFrom P) (hn : n.ComesFrom P) :
    (Node.ofStatement c n).ComesFrom P := by
  cases hc with
  | call ho hps => exact .statement ho hps hn

/-- A sequence that the file ends in becomes an array or a call. -/
theorem OpenSequence.Holds.close? (hs : s.Holds P) {d : Diagnostic}
    (h : s.close? = some (n, d)) : n.ComesFrom P := by
  have hof := hs.of
  unfold OpenSequence.close? at h
  split at h <;> rename_i heq <;> rw [heq] at hof <;> cases h
  · exact .array hof hs.mem_items
  · exact .call hof hs.mem_items

end

/-! ### Filling holes -/

theorem holds_fill {n : Node} (hn : n.ComesFrom P) {hs : List Hole} (h : ∀ x ∈ hs, x.Holds P) :
    (∀ x ∈ (fill n hs).1, x.Holds P) ∧ (fill n hs).2.1.Holds P := by
  induction hs generalizing n with
  | nil => exact ⟨by simp [fill], trivial, List.forall_mem_singleton.mpr hn⟩
  | cons x hs ih =>
    obtain ⟨hx, hs⟩ := List.forall_mem_cons.mp h
    cases x with
    | item s => exact ⟨hs, OpenSequence.Holds.push hx hn⟩
    | value b k => exact ⟨hs, hx.1.enter hx.2 hn⟩
    | data c => exact ih (comesFrom_statement hx hn) hs

theorem comesFrom_closeWith {n : Node} (hn : n.ComesFrom P) {hs : List Hole}
    (h : ∀ x ∈ hs, x.Holds P) : ∀ m ∈ (closeWith n hs).1, m.ComesFrom P := by
  induction hs generalizing n with
  | nil => exact List.forall_mem_singleton.mpr hn
  | cons x hs ih =>
    obtain ⟨hx, hs⟩ := List.forall_mem_cons.mp h
    cases x with
    | data c => exact ih (comesFrom_statement hx hn) hs
    | value b k => exact ih (hx.1.enter hx.2 hn).node hs
    | item s =>
      have hpush : (s.push n).Holds P := OpenSequence.Holds.push hx hn
      rw [closeWith]
      split
      · exact hpush.mem_items
      next hclose => exact ih (hpush.close? hclose) hs

namespace Assembly

variable {a : Assembly} {t : Token} {n : Node}

/-! ### One token -/

theorem Holds.goto (h : a.Holds P) {phase : Phase} (hp : phase.Holds P) : (a.goto phase).Holds P :=
  ⟨h.holes, hp⟩

theorem Holds.report (h : a.Holds P) (o : Origin) (problem : Problem) :
    (a.report o problem).Holds P :=
  ⟨h.holes, h.phase⟩

theorem Holds.expect (h : a.Holds P) (x : Hole) (hx : x.Holds P) : (a.expect x).Holds P :=
  ⟨List.forall_mem_cons.mpr ⟨hx, h.holes⟩, h.phase⟩

theorem Holds.finish (h : a.Holds P) (hn : n.ComesFrom P) : (a.finish n).Holds P := by
  obtain ⟨hholes, hbetween⟩ := holds_fill hn h.holes
  exact ⟨hholes, hbetween⟩

theorem Holds.begin (h : a.Holds P) (ht : P t.origin) : (a.begin t).Holds P := by
  unfold Assembly.begin
  split
  · exact h.goto ht
  split
  · exact h.goto ⟨ht, by simp⟩
  split
  · exact h.goto (OpenBlock.holds_empty ht)
  split
  · exact h.finish (.token ht)
  · exact (h.report _ _).finish (.token ht)

theorem Holds.inSequence {s : OpenSequence} (h : a.Holds P) (hs : s.Holds P) (ht : P t.origin) :
    (a.inSequence s t).Holds P := by
  have hother : (inSequence.other a s t).Holds P := by
    unfold inSequence.other
    split
    · exact h.goto hs
    · exact (h.expect (.item s) hs).begin ht
  have hof := hs.of
  unfold Assembly.inSequence
  split <;> rename_i heq
  · rw [heq] at hof
    split
    · exact h.finish (.array hof hs.mem_items)
    · exact hother
  · rw [heq] at hof
    split
    · exact h.goto (.call hof hs.mem_items)
    · exact hother
  · exact hother

theorem Holds.inBlock {b : OpenBlock} (h : a.Holds P) (hb : b.Holds P) (ht : P t.origin) :
    (a.inBlock b t).Holds P := by
  unfold Assembly.inBlock
  split
  · exact h.finish hb.node
  split
  · exact h.goto hb
  split
  · exact h.goto ⟨hb, ht⟩
  · exact (h.report _ _).goto hb

theorem Holds.skip {b : OpenBlock} (h : a.Holds P) (hb : b.Holds P) (depth : Nat)
    (ht : P t.origin) : (a.skip b depth t).Holds P := by
  unfold Assembly.skip
  split
  · exact h.inBlock hb ht
  · exact h.goto hb

theorem Holds.inBetween {b : Between} (h : a.Holds P) (hb : b.Holds P) (ht : P t.origin) :
    (a.inBetween b t).Holds P := by
  cases b with
  | elements s => exact h.inSequence hb ht
  | entries b => exact h.inBlock hb ht

theorem Holds.finishBefore (h : a.Holds P) (hn : n.ComesFrom P) (ht : P t.origin) :
    (a.finishBefore n t).Holds P := by
  rw [finishBefore_eq]
  exact (h.finish hn).inBetween (holds_fill hn h.holes).2 ht

/-- **A state keeps no part but those of tokens it has read.** -/
theorem Holds.feed (h : a.Holds P) (ht : P t.origin) : (a.feed t).Holds P := by
  have hphase := h.phase
  unfold Assembly.feed
  split <;> rename_i hp <;> rw [hp] at hphase
  · exact h.inBetween hphase ht
  · split
    · exact h.goto ⟨hphase, by simp⟩
    · exact h.finishBefore (.token hphase) ht
  · split
    · exact h.finishBefore hphase ht
    · exact (h.expect (.data _) hphase).begin ht
  · split
    · exact h.goto hphase
    · exact (h.report _ _).skip hphase.1 0 ht
  · split
    · exact (h.report _ _).inBlock hphase.1 ht
    · exact (h.expect (.value _ _) hphase).begin ht
  · exact h.skip hphase _ ht

theorem Holds.feedAll (h : a.Holds P) {ts : List Token} (hts : ∀ t ∈ ts, P t.origin) :
    (a.feedAll ts).Holds P := by
  induction ts generalizing a with
  | nil => exact h
  | cons t ts ih =>
    obtain ⟨ht, hts⟩ := List.forall_mem_cons.mp hts
    exact ih (h.feed ht) hts

/-! ### The end of the file -/

theorem Holds.close (h : a.Holds P) : ∀ m ∈ a.close.1, m.ComesFrom P := by
  have hphase := h.phase
  have hblock : ∀ {b : OpenBlock}, b.Holds P → ∀ m ∈ (a.closeBlock b).1, m.ComesFrom P :=
    fun hb => comesFrom_closeWith hb.node h.holes
  unfold Assembly.close
  split <;> rename_i hp <;> rw [hp] at hphase
  · split
    · exact OpenSequence.Holds.mem_items hphase
    next hclose => exact comesFrom_closeWith (OpenSequence.Holds.close? hphase hclose) h.holes
  · exact hblock hphase
  · exact comesFrom_closeWith (.token hphase) h.holes
  · exact comesFrom_closeWith hphase h.holes
  · exact hblock hphase.1
  · exact hblock hphase.1
  · exact hblock hphase

end Assembly

/-- **Each node that is read, and all in it, comes from where one of the tokens does.** -/
theorem comesFrom_parse {ts : List Token} (hts : ∀ t ∈ ts, P t.origin) :
    ∀ n ∈ (parse ts).1, n.ComesFrom P := by
  have hstart : Assembly.start.Holds P := ⟨by simp [Assembly.start], trivial, by simp⟩
  exact (hstart.feedAll hts).close

/-! ### Fresh nodes -/

/-- **Whether a node is fresh**: no node and no key in it has captured any bindings. -/
def Node.Fresh : Node → Prop := Node.ComesFrom fun o => o.context = []

/-- Nothing is bound at a token of a text. -/
theorem Piece.context_tokensFrom (file : String) (uniqueId : List Char) (p : Place)
    (run : Option OpenRun) (pieces : List Piece) :
    ∀ t ∈ tokensFrom file uniqueId p run pieces, t.origin.context = [] := by
  have hrun : ∀ run : Option OpenRun,
      ∀ t ∈ (run.map (OpenRun.token file)).toList, t.origin.context = [] := by
    intro run t ht
    obtain ⟨r, -, rfl⟩ := Option.map_eq_some_iff.mp (Option.mem_toList.mp ht)
    rfl
  induction pieces generalizing p run with
  | nil => exact hrun run
  | cons piece pieces ih =>
    cases piece with
    | symbol c =>
      exact List.forall_mem_append.mpr ⟨hrun run, List.forall_mem_cons.mpr ⟨rfl, ih _ _⟩⟩
    | blank c => exact ih _ _
    | lineComment body => exact ih _ _
    | blockComment body closed => exact ih _ _
    | quoted q body closed => exact ih _ _
    | plain body => exact ih _ _

/-- **What is read from a text is fresh.** -/
theorem fresh_parseText (text file uniqueId : String) :
    ∀ n ∈ (parseText text file uniqueId).1, n.Fresh :=
  comesFrom_parse (Piece.context_tokensFrom file uniqueId.toList .start none _)

end ContentLang
