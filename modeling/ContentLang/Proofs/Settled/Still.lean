import ContentLang.Proofs.Settled.Settled
import ContentLang.Proofs.Walk.Parts

/-!
# Settled nodes stay as they are

Reducing a settled node gives a node that is alike, in every context
(`ContentLang.Reduce.still_reduce`). It leaves nothing but remarks on the way, and neither draws
nor remembers anything; and it comes to an answer if walks may be nested as deep as the node is.

A call that rests is left in one of three ways: unknown and late calls without being looked at,
a call that waits after its function said so, `Include` and `If` after a parameter that had to
be a token turned out to be a call left for later. The parameters are reduced again each time.
-/

namespace ContentLang

open Walk

namespace Reduce

variable {limit : Nat} {rec : Reducer} {env : Surroundings}

/-- On what condition a node of the given depth comes to an answer. -/
def Ends (limit : Nat) (env : Surroundings) (depth : Nat) : Prop :=
  depth ≤ limit ∧ limit ≤ env.limit

/-- **Whether a way to reduce nodes leaves settled nodes as they are**, nested no deeper than a
limit. -/
def StillReducer (limit : Nat) (rec : Reducer) : Prop :=
  ∀ (env : Surroundings) (node : Node) (ctx : Context), node.Settled env.registry env.late →
    Still (Ends limit env node.depth) (Says node) (rec env node ctx)

/-- The settled nodes that are no deeper than a limit, if that matters. -/
def Kept (limit : Nat) (env : Surroundings) (ends : Prop) (n : Node) : Prop :=
  n.Settled env.registry env.late ∧ (ends → n.depth ≤ limit)

section

variable (hrec : StillReducer limit rec) {ends : Prop} (hends : ends → limit ≤ env.limit)
include hrec hends

/-- A kept node stays. -/
theorem still_visit {n : Node} (ctx : Context) (hn : Kept limit env ends n) :
    Still ends (Says n) (visit env rec n ctx) :=
  (hrec env n _ hn.1).mono (.refl _) (fun h => ⟨hn.2 h, hends h⟩) fun _ h => h

/-- **What a function may do keeps settled nodes.** -/
theorem keeps_evaluator : (evaluator env rec).Keeps ends (Kept limit env ends) where
  reduce ctx hn := still_visit hrec hends ctx hn
  items hn i hi := by
    refine ⟨Node.settled_array.mp hn.1 i hi, fun h => ?_⟩
    have hdepth := Node.depth_array_le.mp (Nat.le_succ_of_le (hn.2 h)) i hi
    exact hdepth
  alike hmn hm := ⟨hm.1.alike hmn, fun h => hmn.depth ▸ hm.2 h⟩
  depth hn h := Nat.le_trans (hn.2 h) (hends h)

/-! ### Parts -/

theorem still_param {p : Node} (ctx : Context) (hp : Kept limit env ends p) :
    Still ends (fun o => ∃ q, o.toNode? p.origin = some q ∧ ∃ r, [q] = [r] ∧ Alike p r)
      (visit env rec p ctx) :=
  (still_visit hrec hends ctx hp).imp fun _ ⟨q, ho, hpq⟩ => ⟨q, ho ▸ rfl, q, rfl, hpq⟩

theorem still_keepCall {f : String} {ps : List Node} (o : Origin) (ctx : Context)
    (hps : ∀ p ∈ ps, Kept limit env ends p) :
    Still ends (Says (.call f ps o)) (keepCall env rec ⟨f, ps, o⟩ none ctx) := by
  refine (meets_keepCall listwise_alike (fun p hp => still_param hrec hends ctx (hps p hp)) f o).imp
    fun out hout => ?_
  obtain ⟨qs, rfl, hqs⟩ := hout
  exact ⟨_, rfl, by simp [Alike, show bare ps = bare qs from hqs]⟩

theorem still_keepStatement {f : String} {ps : List Node} {data : Node} (o : Origin)
    (ctx : Context) (hps : ∀ p ∈ ps, Kept limit env ends p) (hdata : Kept limit env ends data) :
    Still ends (Says (.statement f ps o data)) (keepCall env rec ⟨f, ps, o⟩ (some data) ctx) := by
  have hvisit : Still ends (fun out => ∃ d, out.toNode? data.origin = some d ∧ Alike data d)
      (visit env rec data ctx) :=
    (still_visit hrec hends ctx hdata).imp fun _ ⟨d, hd, hdd⟩ => ⟨d, hd ▸ rfl, hdd⟩
  refine (meets_keepStatement listwise_alike
    (fun p hp => still_param hrec hends ctx (hps p hp)) f o hvisit).imp fun out hout => ?_
  obtain ⟨qs, d, rfl, hqs, hd⟩ := hout
  exact ⟨_, rfl, by
    simp [Alike, show bare ps = bare qs from hqs, show bare data = bare d from hd]⟩

/-- A parameter that is a call left for later is waited for. -/
theorem still_deferred {p : Node} (ctx : Context) (hp : Kept limit env ends p)
    (hdeferred : p.isDeferred (Registry.isKnown env.registry) = true) :
    Still ends (· = .error .pending) ((evaluator env rec).requireToken p ctx) := by
  have hread : tokenOf (Registry.isKnown env.registry) p = .error .waits := by
    cases p with
    | token t => exact absurd hdeferred (by simp [Node.isDeferred, Node.function?])
    | _ => simp [tokenOf, Node.stuck, hdeferred]
  have hrequire := Evaluator.reads_requireToken (keeps_evaluator hrec hends) ctx hp
  rw [show (evaluator env rec).isKnown = Registry.isKnown env.registry from rfl, hread] at hrequire
  refine hrequire.mono (Terms.quietIf_covers_quietIf fun _ => by simp) id fun x hx => ?_
  cases x with
  | ok t => exact hx.elim
  | error o =>
    cases o with
    | pending => rfl
    | _ => exact hx.elim

/-! ### Calls -/

omit hrec hends in
/-- A call of no construct is one of what may be a function. -/
theorem call_eq_callNamed {f : String} (hf : f ∉ constructs) (ps : List Node) (o : Origin)
    (data : Option Node) (ctx : Context) :
    call env rec ⟨f, ps, o⟩ data ctx = callNamed env rec ⟨f, ps, o⟩ data ctx := by
  obtain ⟨hinclude, hif, hset⟩ : f ≠ includeName ∧ f ≠ ifName ∧ f ≠ setName := by
    simpa [constructs] using hf
  simp only [call, hinclude, hif, hset, if_false]

omit hrec hends in
/-- A call of a function comes to what it does to that function. -/
theorem call_eq_callFunction {f : String} (hf : f ∉ constructs) {function : Function}
    (hget : Registry.get? env.registry f = some function) (ps : List Node) (o : Origin)
    (ctx : Context) :
    call env rec ⟨f, ps, o⟩ none ctx = callFunction env rec function ⟨f, ps, o⟩ ctx := by
  rw [call_eq_callNamed hf, callNamed]
  simp only [hget]
  exact bind_pure _

omit hrec hends in
/-- A call of a late function is consumed as the function says. -/
theorem inContext_late (hlate : env.late = true) {f : String} (hf : f ∉ constructs)
    {function : Function} (hget : Registry.get? env.registry f = some function)
    (hfunction : function.late = true) (ps : List Node) (o : Origin) {ctx : Context} :
    inContext (limit + 1) env (.call f ps o) ctx =
      function.reduce (evaluator env (inContext limit)) ⟨f, ps, o⟩ ctx := by
  show call env (inContext limit) ⟨f, ps, o⟩ none ctx = _
  rw [call_eq_callFunction hf hget, callFunction, if_pos hfunction, if_pos hlate]

theorem still_callNamed {f : String} {ps : List Node} (o : Origin) (ctx : Context)
    (hrests : Rests env.registry env.late f ps) (hf : f ∉ constructs)
    (hps : ∀ p ∈ ps, Kept limit env ends p) :
    Still ends (Says (.call f ps o)) (callNamed env rec ⟨f, ps, o⟩ none ctx) := by
  have hparams : Still ends
      (fun r => ∃ qs, r = some ⟨f, qs, { o with context := ctx }⟩ ∧ Alike ps qs)
      (reduceCallParams env rec ⟨f, ps, o⟩ ctx) :=
    meets_reduceCallParams listwise_alike (fun p hp => still_param hrec hends ctx (hps p hp)) f o
  have hstays : ∀ {qs : List Node}, Alike ps qs →
      Says (.call f ps o) (.value (.call f qs { o with context := ctx })) := fun hqs =>
    ⟨_, rfl, by simp [Alike, show bare ps = bare _ from hqs]⟩
  unfold callNamed
  cases hrests with
  | unknown hunknown =>
    simp only [Registry.get?_of_not_isKnown hunknown]
    exact meets_bind (meets_remarkAt (.refl _) _ _ _) fun _ _ =>
      still_keepCall hrec hends o ctx hps
  | @late _ function _ hpass _ hget hlate =>
    simp only [hget]
    have hcall : Still ends (Says (.call f ps o))
        (callFunction env rec function ⟨f, ps, o⟩ ctx) := by
      unfold callFunction
      simp only [hlate, if_true, hpass, Bool.false_eq_true, if_false]
      refine meets_bind (meets_remarkAt (.refl _) _ _ _) fun _ _ =>
        meets_bind hparams fun r hr => ?_
      obtain ⟨qs, rfl, hqs⟩ := hr
      exact meets_pure (hstays hqs)
    exact meets_bind hcall fun out hout => meets_pure hout
  | @waiting _ function _ hpass _ hget hlate hwaits _ =>
    simp only [hget]
    have hcall : Still ends (Says (.call f ps o))
        (callFunction env rec function ⟨f, ps, o⟩ ctx) := by
      unfold callFunction
      simp only [hlate, Bool.false_eq_true, if_false]
      refine meets_bind hparams fun r hr => ?_
      obtain ⟨qs, rfl, hqs⟩ := hr
      have hkept : ∀ q ∈ qs, Kept limit env ends q :=
        hqs.forall_mem fun p hp q hpq => (keeps_evaluator hrec hends).alike hpq (hps p hp)
      refine meets_bind (hwaits rfl (keeps_evaluator hrec hends) ⟨f, qs, _⟩ ctx hkept hqs)
        fun out hout => ?_
      subst hout
      simp only [Outcome.isPending, hpass, Bool.not_false, Bool.and_self, if_true]
      exact meets_bind (meets_remarkAt (.refl _) _ _ _) fun _ _ => meets_pure (hstays hqs)
    exact meets_bind hcall fun out hout => meets_pure hout
  | path => exact absurd hf (by simp [constructs])
  | condition => exact absurd hf (by simp [constructs])

/-- An `If` that waits stays, with its data. -/
theorem still_conditional {condition : Node} {data : Option Node} {P : Outcome → Prop}
    (o : Origin) (ctx : Context) (hpass : env.late = false)
    (hdeferred : condition.isDeferred (Registry.isKnown env.registry) = true)
    (hcondition : Kept limit env ends condition)
    (hkeep : Still ends P (keepCall env rec ⟨ifName, [condition], o⟩ data ctx)) :
    Still ends P (conditional env rec ⟨ifName, [condition], o⟩ data ctx) := by
  refine meets_bind (still_deferred hrec hends ctx hcondition hdeferred) fun x hx => ?_
  subst hx
  simp only [hpass, Bool.false_eq_true, if_false]
  exact meets_bind (meets_remarkAt (.refl _) _ _ _) fun _ _ => hkeep

/-- An `Include` that waits stays. -/
theorem still_includeCall {path : Node} {others : List Node} (o : Origin) (ctx : Context)
    (hpass : env.late = false)
    (hdeferred : path.isDeferred (Registry.isKnown env.registry) = true)
    (hothers : others.length ≤ 1) (hps : ∀ p ∈ path :: others, Kept limit env ends p) :
    Still ends (Says (.call includeName (path :: others) o))
      (includeCall env rec ⟨includeName, path :: others, o⟩ ctx) := by
  have harity : (Arity.either 1 2).accepts (path :: others).length = true := by
    have hlength : others.length = 0 ∨ others.length = 1 := by omega
    simpa [Arity.accepts] using hlength
  unfold includeCall
  simp only [harity, Bool.not_true, Bool.false_eq_true, if_false]
  refine meets_bind (still_deferred hrec hends ctx (hps path (by simp)) hdeferred) fun x hx => ?_
  subst hx
  simp only [hpass, Bool.false_eq_true, if_false]
  exact meets_bind (meets_remarkAt (.refl _) _ _ _) fun _ _ => still_keepCall hrec hends o ctx hps

/-- **A call that rests stays** as it is. -/
theorem still_call {f : String} {ps : List Node} (o : Origin) (ctx : Context)
    (hrests : Rests env.registry env.late f ps) (hps : ∀ p ∈ ps, Kept limit env ends p) :
    Still ends (Says (.call f ps o)) (call env rec ⟨f, ps, o⟩ none ctx) := by
  by_cases hf : f ∈ constructs
  · obtain ⟨hpass, ⟨rfl, path, others, rfl, hpath, hothers⟩ | ⟨rfl, condition, rfl, hdeferred⟩⟩ :=
      hrests.construct hf
    · exact meets_bind (still_includeCall hrec hends o ctx hpass hpath hothers hps)
        fun out hout => meets_pure hout
    · exact still_conditional hrec hends o ctx hpass hdeferred (hps condition (by simp))
        (still_keepCall hrec hends o ctx hps)
  · rw [call_eq_callNamed hf]
    exact still_callNamed hrec hends o ctx hrests hf hps

/-- A call that rests and keeps its data stays as it is, with the data. -/
theorem still_statement {f : String} {ps : List Node} {data : Node} (o : Origin) (ctx : Context)
    (hrests : Rests env.registry env.late f ps)
    (hkeeps : f ≠ includeName ∧ Registry.contains env.registry f = false)
    (hps : ∀ p ∈ ps, Kept limit env ends p) (hdata : Kept limit env ends data) :
    Still ends (Says (.statement f ps o data)) (call env rec ⟨f, ps, o⟩ (some data) ctx) := by
  have hkeep := still_keepStatement hrec hends (f := f) o ctx hps hdata
  by_cases hf : f ∈ constructs
  · obtain ⟨hpass, ⟨rfl, -⟩ | ⟨rfl, condition, rfl, hdeferred⟩⟩ := hrests.construct hf
    · exact absurd rfl hkeeps.1
    · exact still_conditional hrec hends o ctx hpass hdeferred (hps condition (by simp)) hkeep
  · rw [call_eq_callNamed hf]
    unfold callNamed
    simp only [Registry.get?_eq_none_iff.mpr hkeeps.2]
    exact meets_bind (meets_remarkAt (.refl _) _ _ _) fun _ _ => hkeep

/-! ### Sequences -/

/-- A settled element is neither a binding nor followed by data of its own. -/
theorem still_element {n : Node} (ctx : Context) (hn : Kept limit env ends n) :
    Still ends (fun r => ∃ l, r = (some l, ctx) ∧ ∃ m, l = [m] ∧ Alike n m)
      (element env rec ctx n) := by
  have hvisit : Still ends (fun o => ∃ l, o.toItems? = some l ∧ ∃ m, l = [m] ∧ Alike n m)
      (visit env rec n ctx) :=
    (still_visit hrec hends ctx hn).imp fun o ⟨m, ho, hm⟩ => ⟨[m], ho ▸ rfl, m, rfl, hm⟩
  have hplain := meets_plainElement hvisit
  cases n with
  | call f ps o =>
    obtain ⟨hrests, -⟩ := Node.settled_call.mp hn.1
    rw [element, if_neg hrests.ne_setName]
    exact hplain
  | statement f ps o data =>
    obtain ⟨hrests, ⟨hinclude, hcontains⟩, -⟩ := Node.settled_statement.mp hn.1
    have hdata : takesNoData env f = false := by simp [takesNoData, hinclude, hcontains]
    rw [element, if_neg hrests.ne_setName, hdata]
    exact hplain
  | token t => exact hplain
  | block es o => exact hplain
  | array is o => exact hplain

end

/-- One step leaves settled nodes as they are, if the steps within do. -/
theorem still_step (hrec : StillReducer limit rec) : StillReducer (limit + 1) (step rec) := by
  intro env node ctx hn
  have hends : Ends (limit + 1) env node.depth → limit ≤ env.limit := fun h => by
    exact Nat.le_of_succ_le h.2
  have hpart : ∀ m : Node, m.Settled env.registry env.late →
      (node.depth ≤ limit + 1 → m.depth ≤ limit) →
      Kept limit env (Ends (limit + 1) env node.depth) m := fun m hm hdepth =>
    ⟨hm, fun h => hdepth h.1⟩
  cases node with
  | token t => exact meets_pure ⟨_, rfl, rfl⟩
  | array is o =>
    have his := Node.settled_array.mp hn
    refine meets_bind (meets_elements listwise_alike fun i hi =>
      still_element hrec hends ctx (hpart i (his i hi) fun h => Node.depth_array_le.mp h i hi))
        fun r hr => ?_
    obtain ⟨ms, rfl, hms⟩ := hr
    exact meets_pure ⟨_, rfl, by simp [Alike, show bare is = bare ms from hms]⟩
  | block es o =>
    have hes := Node.settled_block.mp hn
    refine meets_bind (meets_entries listwise_alike fun e he => ?_) fun r hr => ?_
    · refine (still_visit hrec hends ctx (hpart e.2 (hes e he) fun h =>
        Node.depth_block_le.mp h e he)).imp fun out hout => ?_
      obtain ⟨m, rfl, hm⟩ := hout
      exact ⟨_, rfl, (e.1, m), rfl, congrArg (Prod.mk _) hm⟩
    · obtain ⟨fs, rfl, hfs⟩ := hr
      exact meets_pure ⟨_, rfl, by simp [Alike, show bare es = bare fs from hfs]⟩
  | call f ps o =>
    obtain ⟨hrests, hps⟩ := Node.settled_call.mp hn
    exact still_call hrec hends o ctx hrests fun p hp =>
      hpart p (hps p hp) fun h => Node.depth_call_le.mp h p hp
  | statement f ps o data =>
    obtain ⟨hrests, hkeeps, hps, hdata⟩ := Node.settled_statement.mp hn
    exact still_statement hrec hends o ctx hrests hkeeps
      (fun p hp => hpart p (hps p hp) fun h => (Node.depth_statement_le.mp h).1 p hp)
      (hpart data hdata fun h => (Node.depth_statement_le.mp h).2)

theorem still_inContext (limit : Nat) : StillReducer limit (inContext limit) := by
  induction limit with
  | zero =>
    intro env node ctx _
    exact meets_halt _ fun h => absurd node.depth_pos (by simpa using h.1)
  | succ limit ih => exact still_step ih

/-- **A settled node stays as it is**, in every context. -/
theorem still_reduce (env : Surroundings) {node : Node} (ctx : Context)
    (hn : node.Settled env.registry env.late) :
    Still (node.depth ≤ env.limit) (Says node) (reduce env node ctx) :=
  (still_inContext env.limit env node _ hn).mono (.refl _) (fun h => ⟨h, Nat.le_refl _⟩)
    fun _ h => h

/-- A run that reduces a settled node: it comes to a node that is the same, and leaves the state
and everything but the log as they were. -/
theorem still_run (env : Surroundings) {node : Node} (ctx : Context) (s : WalkState)
    (hn : node.Settled env.registry env.late) :
    (node.depth ≤ env.limit → ∃ out, (reduce env node ctx s).answer = .ok out) ∧
      (∀ out, (reduce env node ctx s).answer = .ok out →
        ∃ n, out = .value n ∧ node.same n = true) ∧
      (∀ note ∈ (reduce env node ctx s).notes, note.IsRemark) ∧
      (reduce env node ctx s).state = s := by
  obtain ⟨hstate, hnotes, hends, hanswer⟩ := still_reduce env ctx hn s fun _ _ => trivial
  refine ⟨hends, fun out hout => ?_, fun note hnote => hnotes note hnote trivial, hstate trivial⟩
  obtain ⟨n, rfl, hn⟩ := hanswer out hout
  exact ⟨n, rfl, hn.same⟩

end Reduce

end ContentLang
