import ContentLang.Proofs.Loading.Blind
import ContentLang.Proofs.Settled.Still

/-!
# The loading pass settles

What the loading pass makes of a node is settled (`ContentLang.Reduce.settles_reduce`): each call
that it keeps is one that it would keep again. Nothing is pending in it, and no outcome is.

Two things are followed through the pass beside that. Values that are bound are settled too,
since they are what the pass made of the nodes they were bound to. And calls of names that are
**shunned** are in the result only if they are in the tree or in an included file: the names in
files are relied on (`ContentLang.Reduce.Trusts`), and nothing else brings in calls. With no name
shunned this says nothing, and with the late functions shunned it is what tells files apart in
which nothing waits.

The pass reduces some nodes twice: the path of an `Include`, or the condition of an `If`, once
to look at it and once more if the call is kept. The second time it comes to the same, since
loading depends on nothing that changes (`ContentLang.Reduce.BlindReducer`).
-/

namespace ContentLang

open Walk

/-! ### Functions that go with the loading pass -/

/-- **What is asked of the functions** in a registry: none takes the name of a construct, what
they do while content is loaded depends on files and assets alone, and those that are not late
have a meaning. -/
structure Registry.Orderly (registry : Registry) : Prop where
  constructs : ∀ f ∈ constructs, registry.contains f = false
  blind : ∀ e ∈ registry, e.2.LoadsAlike
  meaning : ∀ e ∈ registry, e.2.late = true ∨ e.2.Meaningful

theorem Registry.orderly_builtin : Registry.builtin.Orderly where
  constructs := by decide
  blind _ he := Function.loadsAlike_builtin he
  meaning := Function.meaningful_builtin

/-! ### What the pass gives -/

/-- The condition on names by which none is shunned. -/
def noneShunned (_ : String) : Bool := false

theorem Node.inert_noneShunned (n : Node) : n.Inert noneShunned := fun _ _ => rfl

/-- What the loading pass gives: settled nodes, without calls of shunned names. -/
def Node.Laid (registry : Registry) (shunned : String → Bool) (n : Node) : Prop :=
  n.Settled registry false ∧ n.Inert shunned

section

variable {registry : Registry} {shunned : String → Bool}

theorem Node.Laid.alike {m n : Node} (hm : m.Laid registry shunned) (h : Alike m n) :
    n.Laid registry shunned :=
  ⟨hm.1.alike h, h.inert hm.2⟩

theorem Node.closed_laid : Node.Closed (Node.Laid registry shunned) where
  token t := ⟨.token t, Node.inert_token t⟩
  array {is o} := by
    simp only [Laid, settled_array, inert_array, forall_and]
  block {es o} := by
    simp only [Laid, settled_block, inert_block, forall_and]

/-- Whether an outcome is there, and made of nodes that the pass gives. -/
structure Outcome.Laid (registry : Registry) (shunned : String → Bool) (o : Outcome) : Prop where
  ready : o ≠ .pending
  nodes : ∀ n ∈ o.nodes, n.Laid registry shunned

namespace Outcome

theorem laid_value {n : Node} (h : n.Laid registry shunned) : (value n).Laid registry shunned :=
  ⟨fun h => (nomatch h), by simpa using h⟩

theorem laid_token (t : Token) : (value (.token t)).Laid registry shunned :=
  laid_value (Node.closed_laid.token t)

theorem laid_empty : empty.Laid registry shunned := ⟨fun h => (nomatch h), by simp⟩

theorem Laid.toNode {o : Outcome} (h : o.Laid registry shunned) (origin : Origin) :
    ∃ n, o.toNode? origin = some n ∧ n.Laid registry shunned := by
  cases o with
  | value n => exact ⟨n, rfl, h.nodes n (by simp)⟩
  | empty => exact ⟨_, rfl, Node.closed_laid.token _⟩
  | splice items => exact ⟨_, rfl, Node.closed_laid.array.mpr h.nodes⟩
  | pending => exact absurd rfl h.ready

theorem Laid.toItems {o : Outcome} (h : o.Laid registry shunned) :
    ∃ l, o.toItems? = some l ∧ ∀ n ∈ l, n.Laid registry shunned := by
  cases o with
  | value n => exact ⟨_, rfl, h.nodes⟩
  | empty => exact ⟨_, rfl, h.nodes⟩
  | splice items => exact ⟨_, rfl, h.nodes⟩
  | pending => exact absurd rfl h.ready

theorem laid_ofItems {items : List Node} (h : ∀ n ∈ items, n.Laid registry shunned) :
    (ofItems items).Laid registry shunned := by
  unfold ofItems
  split
  · exact laid_empty
  · exact laid_value (h _ (by simp))
  · exact ⟨fun h => (nomatch h), h⟩

end Outcome

/-- Whether the values that are bound are what the pass gives. -/
def Context.Laid (registry : Registry) (shunned : String → Bool) (ctx : Context) : Prop :=
  ∀ e ∈ ctx, e.2.Laid registry shunned

theorem Context.laid_bind {ctx : Context} {name : Token} {value : Node}
    (hctx : ctx.Laid registry shunned) (hvalue : value.Laid registry shunned) :
    (ctx.bind name value).Laid registry shunned :=
  Entries.forall_insert hctx hvalue

theorem Context.laid_overlay {ctx : Context} {es : List (Token × Node)}
    (hctx : ctx.Laid registry shunned) (hes : ∀ e ∈ es, e.2.Laid registry shunned) :
    (ctx.overlay es).Laid registry shunned := by
  refine Entries.forall_overlay hctx fun e he => ?_
  obtain ⟨e', he', rfl⟩ := List.mem_map.mp he
  exact hes e' he'

/-- Outcomes that are alike are made of nodes that are alike. -/
theorem Outcome.Laid.alike {o o' : Outcome} (h : o.Laid registry shunned) (ho : Alike o o') :
    o'.Laid registry shunned := by
  have hnodes : Alike o.nodes o'.nodes := by
    rw [Alike, ← Outcome.nodes_bare, ho, Outcome.nodes_bare]
  refine ⟨?_, hnodes.forall_mem fun n hn m hnm => (h.nodes n hn).alike hnm⟩
  rintro rfl
  exact h.ready (Outcome.alike_pending_iff.mp ho.symm)

/-- Whether surroundings are those of the loading pass, with functions that go with it. -/
structure Surroundings.Loads (env : Surroundings) : Prop where
  late : env.late = false
  orderly : Registry.Orderly env.registry

/-- The loading pass with the functions of the language. -/
theorem Surroundings.loads_builtin {env : Surroundings} (hlate : env.late = false)
    (hregistry : env.registry = .builtin) : env.Loads :=
  ⟨hlate, hregistry ▸ Registry.orderly_builtin⟩

end

namespace Reduce

/-! ### What is relied on -/

/-- The notes that are relied on: whatever file was asked for, no call in it is of a shunned
name. -/
def Trusts (env : Surroundings) (shunned : String → Bool) (note : Note) : Prop :=
  ∀ file text, note = .asked (.file file) → env.host.fileText file = some text →
    ∀ n ∈ (parseText text file env.settings.uniqueId).1, n.Inert shunned

/-- What a walk of the loading pass comes to, if it does. -/
abbrev Loading {α : Type} (env : Surroundings) (shunned : String → Bool) (P : α → Prop)
    (m : Walk α) : Prop :=
  Meets (.steadily (Trusts env shunned)) False P m

/-- **Whether a way to reduce nodes settles them** in the loading pass. -/
def SettlingReducer (shunned : String → Bool) (rec : Reducer) : Prop :=
  ∀ env : Surroundings, env.Loads → ∀ (node : Node) (ctx : Context), node.Inert shunned →
    ctx.Laid env.registry shunned →
      Loading env shunned (Outcome.Laid env.registry shunned) (rec env node ctx)

/-- Whether a way to reduce nodes comes to the same from every state, in the loading pass. -/
def BlindReducer (rec : Reducer) : Prop :=
  ∀ env : Surroundings, env.Loads → ∀ (node : Node) (ctx : Context) (s s' : WalkState),
    (rec env node ctx s).answer = (rec env node ctx s').answer

/-- A node is loaded alike from every state. -/
theorem loadAlike_inContext (limit : Nat) {env : Surroundings} (henv : env.Loads) (node : Node)
    (ctx : Context) : LoadAlike (inContext limit env node ctx) (inContext limit env node ctx) := by
  have hself : (⟨env.host, env.settings⟩ : World).LoadsAs ⟨env.host, env.settings⟩ := .refl _
  have hfits : (Congruence.loading hself).Fits env :=
    ⟨henv.late, fun e he => henv.orderly.blind e he _ _ hself⟩
  exact (Congruence.loading hself).inContext limit hfits node ctx

theorem blind_inContext (limit : Nat) : BlindReducer (inContext limit) :=
  fun _ henv node ctx s s' => (loadAlike_inContext limit henv node ctx s s').1

section

variable {shunned : String → Bool} {limit : Nat} {rec : Reducer}
  (hrec : SettlingReducer shunned rec) (hstill : StillReducer limit rec)
  (hblind : BlindReducer rec) {env : Surroundings} (henv : env.Loads) {ctx : Context}
  (hctx : ctx.Laid env.registry shunned)
include hrec henv hctx

/-! ### Parts -/

theorem settles_visit {n : Node} (hn : n.Inert shunned) :
    Loading env shunned (Outcome.Laid env.registry shunned) (visit env rec n ctx) := by
  rw [visit_loading henv.late]
  exact hrec env henv n ctx hn hctx

theorem settles_param {p : Node} (hp : p.Inert shunned) :
    Loading env shunned
      (fun o => ∃ q, o.toNode? p.origin = some q ∧ ∀ r ∈ [q], r.Laid env.registry shunned)
      (visit env rec p ctx) := by
  refine (settles_visit hrec henv hctx hp).imp fun o ho => ?_
  obtain ⟨q, hq, hlaid⟩ := ho.toNode p.origin
  exact ⟨q, hq, List.forall_mem_singleton.mpr hlaid⟩

theorem settles_reduceCallParams {f : String} {ps : List Node} (o : Origin)
    (hps : ∀ p ∈ ps, p.Inert shunned) :
    Loading env shunned
      (fun r => ∃ qs, r = some ⟨f, qs, { o with context := ctx }⟩ ∧
        ∀ q ∈ qs, q.Laid env.registry shunned)
      (reduceCallParams env rec ⟨f, ps, o⟩ ctx) :=
  meets_reduceCallParams (listwise_forall _)
    (fun p hp => settles_param hrec henv hctx (hps p hp)) f o

/-- A call of nothing that is known is kept, with its data. -/
theorem settles_keepUnknown {f : String} {ps : List Node} (o : Origin) {data : Option Node}
    (hf : Registry.isKnown env.registry f = false) (hshunned : shunned f = false)
    (hps : ∀ p ∈ ps, p.Inert shunned) (hdata : ∀ d ∈ data, d.Inert shunned) :
    Loading env shunned (Outcome.Laid env.registry shunned)
      (keepCall env rec ⟨f, ps, o⟩ data ctx) := by
  have hparams := fun p hp => settles_param hrec henv hctx (hps p hp)
  cases data with
  | none =>
    refine (meets_keepCall (listwise_forall _) hparams f o).imp fun out hout => ?_
    obtain ⟨qs, rfl, hqs⟩ := hout
    exact Outcome.laid_value ⟨.call (.unknown hf) fun q hq => (hqs q hq).1,
      Node.inert_call.mpr ⟨hshunned, fun q hq => (hqs q hq).2⟩⟩
  | some data =>
    have hvisit := (settles_visit hrec henv hctx (hdata data rfl)).imp fun o ho =>
      ho.toNode data.origin
    refine (meets_keepStatement (listwise_forall _) hparams f o hvisit).imp fun out hout => ?_
    obtain ⟨qs, d, rfl, hqs, hd⟩ := hout
    have hkeeps := Registry.ne_of_not_isKnown hf
    exact Outcome.laid_value ⟨.statement (.unknown hf)
        ⟨hkeeps.1, (Registry.not_isKnown_iff.mp hf).2⟩ (fun q hq => (hqs q hq).1) hd.1,
      Node.inert_statement.mpr ⟨hshunned, fun q hq => (hqs q hq).2, hd.2⟩⟩

/-- Data after a call is put behind what the call gives. -/
theorem settles_withTrailing {outcome : Outcome} {data : Option Node}
    (ho : outcome.Laid env.registry shunned) (hdata : ∀ d ∈ data, d.Inert shunned) :
    Loading env shunned (Outcome.Laid env.registry shunned)
      (withTrailing env rec outcome data ctx) := by
  cases data with
  | none => exact meets_pure ho
  | some data =>
    refine meets_bind (settles_visit hrec henv hctx (hdata data rfl)) fun trailing ht => ?_
    obtain ⟨items, hi, hitems⟩ := ho.toItems
    obtain ⟨more, hm, hmore⟩ := ht.toItems
    simp only [hi, hm]
    exact meets_pure (Outcome.laid_ofItems (List.forall_mem_append.mpr ⟨hitems, hmore⟩))

omit hrec henv hctx in
theorem settles_report (origin : Origin) (problem : Problem) :
    Loading env shunned (fun _ => True) (Walk.report origin problem) :=
  meets_leave fun _ _ => trivial

omit hrec henv hctx in
theorem settles_remarkAt (level : Level) (location : Location) (text : String) :
    Loading env shunned (fun _ => True) (Walk.remarkAt level location text) :=
  meets_leave fun _ _ => trivial

/-- What the loading pass knows of a node that had to be a token: the outcome in its place, or
that it comes to a call left for later whenever it is reduced. -/
def Required (env : Surroundings) (shunned : String → Bool) (again : Walk Outcome) (p : Node) :
    Except Outcome Token → Prop
  | .ok _ => True
  | .error .pending => Loading env shunned
    (fun o => ∃ q, o.toNode? p.origin = some q ∧ q.Laid env.registry shunned ∧
      q.isDeferred (Registry.isKnown env.registry) = true) again
  | .error o => o.Laid env.registry shunned

include hblind in
theorem settles_requireToken {p : Node} (hp : p.Inert shunned) :
    Loading env shunned (Required env shunned (visit env rec p ctx) p)
      ((evaluator env rec).requireToken p ctx) := by
  have hvisit := settles_visit hrec henv hctx hp
  have hblindvisit : ∀ s s', (visit env rec p ctx s).answer = (visit env rec p ctx s').answer :=
    hblind env henv p _
  have hfault : ∀ (origin : Origin) (problem : Problem),
      Loading env shunned (Required env shunned (visit env rec p ctx) p)
        (Walk.report origin problem >>= fun _ => pure (.error (.error p.origin))) :=
    fun origin problem => meets_map (settles_report origin problem) fun _ _ =>
      Outcome.laid_token _
  refine meets_bind hvisit.here fun o ho => ?_
  obtain ⟨ho, s, hs⟩ := ho
  -- What is found to be a call left for later is found to be one again.
  have hwaits : ∀ n, o = .value n → n.isDeferred (Registry.isKnown env.registry) = true →
      Required env shunned (visit env rec p ctx) p (.error .pending) := by
    rintro n rfl hn
    refine (hvisit.blind hblindvisit hs).imp fun o' ho' => ?_
    subst ho'
    exact ⟨n, rfl, ho.nodes n (by simp), hn⟩
  cases o with
  | pending => exact absurd rfl ho.ready
  | empty => exact hfault _ _
  | splice items => exact hfault _ _
  | value n =>
    cases n with
    | token t => exact meets_pure trivial
    | block es o => exact hfault _ _
    | array is o => exact hfault _ _
    | call f ps o =>
      exact meets_ite (fun hf => meets_pure (hwaits _ rfl hf)) fun _ => hfault _ _
    | statement f ps o data =>
      exact meets_ite (fun hf => meets_pure (hwaits _ rfl hf)) fun _ => hfault _ _

/-! ### Bindings -/

include hblind in
/-- A value that is bound is one that the pass gave. -/
theorem settles_bind {f : String} {ps : List Node} (o : Origin)
    (hps : ∀ p ∈ ps, p.Inert shunned) :
    Loading env shunned (Context.Laid env.registry shunned) (bind env rec ⟨f, ps, o⟩ ctx) := by
  have hunbound : ∀ note, Loading env shunned (Context.Laid env.registry shunned)
      (Walk.leave [note] >>= fun _ => pure ctx) := fun note =>
    meets_map (meets_leave fun _ _ => trivial) fun _ _ => hctx
  match ps, hps with
  | [], _ => exact meets_map (settles_report _ _) fun _ _ => hctx
  | [_], _ => exact meets_map (settles_report _ _) fun _ _ => hctx
  | _ :: _ :: _ :: _, _ => exact meets_map (settles_report _ _) fun _ _ => hctx
  | [name, value], hps =>
    refine meets_bind (settles_requireToken hrec hblind henv hctx (hps name (by simp)))
      fun key hkey => ?_
    cases key with
    | ok key =>
      refine meets_bind (settles_visit hrec henv hctx (hps value (by simp))) fun out hout => ?_
      obtain ⟨n, hn, hlaid⟩ := hout.toNode value.origin
      simp only [hn]
      exact meets_map (settles_remarkAt _ _ _) fun _ _ => Context.laid_bind hctx hlaid
    | error out =>
      cases out with
      | pending => exact meets_bind (settles_report _ _) fun _ _ => hunbound _
      | _ => exact meets_pure hctx

/-! ### Functions -/

omit hrec in
include hstill in
/-- A function that is not late either waits for a parameter, and would again, or gives what it
means. -/
theorem settles_function {f : String} {function : Function} {qs : List Node} {o : Origin}
    {P : Outcome → Prop} (hmeaning : function.Meaningful)
    (hqs : ∀ q ∈ qs, q.Laid env.registry shunned)
    (hwaits : function.Waits (Registry.isKnown env.registry) qs →
      (¬ ∀ q ∈ qs, q.Inert (Registry.isKnown env.registry)) → P .pending)
    (hgives : ∀ out : Outcome, out.Laid env.registry shunned → P out) :
    Loading env shunned P (function.reduce (evaluator env rec) ⟨f, qs, o⟩ ctx) := by
  have hkeeps : (evaluator env rec).Keeps False (Kept limit env False) :=
    keeps_evaluator hstill fun h => h.elim
  have hkept : ∀ {n : Node}, n.Laid env.registry shunned → Kept limit env False n := fun h =>
    ⟨henv.late ▸ h.1, fun h => h.elim⟩
  obtain ⟨α, m, hlawful, hmeans⟩ := hmeaning
  refine (hmeans hkeeps ⟨f, qs, o⟩ ctx (fun q hq => hkept (hqs q hq)) fun _ e he =>
    hkept (hctx e he)).mono (Terms.quietIf_covers_steadily _ _) id fun out hout => ?_
  have hmeant : Alike (m.outcome (Registry.isKnown env.registry) (evaluator env rec).world
      ⟨f, qs, o⟩ ctx) out := hout
  by_cases hread : m.read (Registry.isKnown env.registry) qs = .error .waits
  · rw [Meaning.outcome, hread] at hmeant
    obtain rfl := Outcome.alike_pending_iff.mp hmeant
    exact hwaits (hmeans.waits hlawful hread) fun hinert => hlawful.ready _ _ hinert hread
  · obtain ⟨hready, hnodes⟩ := hlawful.outcome Node.closed_laid _ ⟨f, qs, o⟩ hqs hctx hread
    exact hgives out (Outcome.Laid.alike ⟨hready, hnodes⟩ hmeant)

include hstill in
theorem settles_callFunction {f : String} {function : Function} {ps : List Node} (o : Origin)
    (hf : f ∉ constructs) (hshunned : shunned f = false)
    (hget : Registry.get? env.registry f = some function) (hps : ∀ p ∈ ps, p.Inert shunned) :
    Loading env shunned (Outcome.Laid env.registry shunned)
      (callFunction env rec function ⟨f, ps, o⟩ ctx) := by
  have hparams := settles_reduceCallParams hrec henv hctx (f := f) o hps
  have hkept : ∀ {qs : List Node}, (∀ q ∈ qs, q.Laid env.registry shunned) →
      Rests env.registry false f qs →
        (Outcome.value (.call f qs { o with context := ctx })).Laid env.registry shunned := by
    intro qs hqs hrests
    exact Outcome.laid_value ⟨.call hrests fun q hq => (hqs q hq).1,
      Node.inert_call.mpr ⟨hshunned, fun q hq => (hqs q hq).2⟩⟩
  unfold callFunction
  cases hlate : function.late with
  | true =>
    simp only [if_true, henv.late, Bool.false_eq_true, if_false]
    refine meets_bind (settles_remarkAt _ _ _) fun _ _ => meets_bind hparams fun r hr => ?_
    obtain ⟨qs, rfl, hqs⟩ := hr
    exact meets_pure (hkept hqs (.late rfl hf hget hlate))
  | false =>
    simp only [Bool.false_eq_true, if_false]
    refine meets_bind hparams fun r hr => ?_
    obtain ⟨qs, rfl, hqs⟩ := hr
    have hmeaning : function.Meaningful := by
      obtain ⟨e, he, rfl⟩ := Registry.mem_of_get? hget
      exact (henv.orderly.meaning _ he).resolve_left (by simp [hlate])
    refine meets_bind (settles_function (P := fun out => (out = .pending ∧
        Rests env.registry false f qs) ∨ out.Laid env.registry shunned) hstill henv hctx hmeaning
      hqs (fun hwaits hknown => .inl ⟨rfl, .waiting rfl hf hget hlate hwaits hknown⟩)
      fun out hout => .inr hout) fun out hout => ?_
    rcases hout with ⟨rfl, hrests⟩ | hout
    · simp only [Outcome.isPending, henv.late, Bool.not_false, Bool.and_self, if_true]
      exact meets_map (settles_remarkAt _ _ _) fun _ _ => hkept hqs hrests
    · have hready : out.isPending = false := by
        cases out with
        | pending => exact absurd rfl hout.ready
        | _ => rfl
      simp only [hready, Bool.false_and, Bool.false_eq_true, if_false]
      exact meets_pure hout

include hstill in
/-- What may be a function: a call of one, with data behind it, or of nothing known. -/
theorem settles_callNamed {f : String} {ps : List Node} (o : Origin) {data : Option Node}
    (hf : f ∉ constructs) (hshunned : shunned f = false) (hps : ∀ p ∈ ps, p.Inert shunned)
    (hdata : ∀ d ∈ data, d.Inert shunned) :
    Loading env shunned (Outcome.Laid env.registry shunned)
      (callNamed env rec ⟨f, ps, o⟩ data ctx) := by
  unfold callNamed
  cases hget : Registry.get? env.registry f with
  | none =>
    have hunknown : Registry.isKnown env.registry f = false :=
      Registry.not_isKnown_iff.mpr ⟨hf, Registry.get?_eq_none_iff.mp hget⟩
    exact meets_bind (settles_remarkAt _ _ _) fun _ _ =>
      settles_keepUnknown hrec henv hctx o hunknown hshunned hps hdata
  | some function =>
    refine meets_bind (settles_callFunction hrec hstill henv hctx o hf hshunned hget hps)
      fun out hout => ?_
    have htrailing := settles_withTrailing hrec henv hctx hout hdata
    cases data with
    | none => exact htrailing
    | some d => exact meets_bind (settles_remarkAt _ _ _) fun _ _ => htrailing

/-! ### What waits for a token -/

/-- Parameters one of which comes to a call left for later whenever it is reduced. -/
theorem settles_waitingParam {p : Node} {ps : List Node} (hps : ∀ p ∈ ps, p.Inert shunned)
    (hwaits : Required env shunned (visit env rec p ctx) p (.error .pending)) :
    ∀ q ∈ ps, Loading env shunned
      (fun o => ∃ r, o.toNode? q.origin = some r ∧ ∃ r', [r] = [r'] ∧
        r'.Laid env.registry shunned ∧
          (q = p → r'.isDeferred (Registry.isKnown env.registry) = true))
      (visit env rec q ctx) := by
  intro q hq
  by_cases hqp : q = p
  · subst hqp
    refine Meets.imp hwaits fun out hout => ?_
    obtain ⟨r, hr, hlaid, hdeferred⟩ := hout
    exact ⟨r, hr, r, rfl, hlaid, fun _ => hdeferred⟩
  · refine (settles_visit hrec henv hctx (hps q hq)).imp fun out hout => ?_
    obtain ⟨r, hr, hlaid⟩ := hout.toNode q.origin
    exact ⟨r, hr, r, rfl, hlaid, fun h => absurd h hqp⟩

/-- An `If` that waits for its condition stays. -/
theorem settles_keepConditional {condition : Node} (o : Origin) {data : Option Node}
    (hshunned : shunned ifName = false) (hcondition : condition.Inert shunned)
    (hdata : ∀ d ∈ data, d.Inert shunned)
    (hwaits : Required env shunned (visit env rec condition ctx) condition (.error .pending)) :
    Loading env shunned (Outcome.Laid env.registry shunned)
      (keepCall env rec ⟨ifName, [condition], o⟩ data ctx) := by
  have hparams := settles_waitingParam hrec henv hctx
    (List.forall_mem_singleton.mpr hcondition) hwaits
  -- What the condition came to is again a call left for later.
  have hrests : ∀ {qs : List Node}, ([condition].length = qs.length ∧ ∀ e ∈ [condition].zip qs,
      e.2.Laid env.registry shunned ∧
        (e.1 = condition → e.2.isDeferred (Registry.isKnown env.registry) = true)) →
      Rests env.registry false ifName qs ∧ ∀ q ∈ qs, q.Laid env.registry shunned := by
    rintro qs ⟨hlength, hqs⟩
    match qs, hlength, hqs with
    | [q], _, hqs =>
      obtain ⟨hlaid, hdeferred⟩ := hqs (condition, q) (by simp)
      exact ⟨.condition rfl (hdeferred rfl), List.forall_mem_singleton.mpr hlaid⟩
  cases data with
  | none =>
    refine (meets_keepCall (listwise_zip fun q r => r.Laid env.registry shunned ∧
      (q = condition → r.isDeferred (Registry.isKnown env.registry) = true)) hparams ifName o).imp
        fun out hout => ?_
    obtain ⟨qs, rfl, hqs⟩ := hout
    obtain ⟨hrests, hlaid⟩ := hrests hqs
    exact Outcome.laid_value ⟨.call hrests fun q hq => (hlaid q hq).1,
      Node.inert_call.mpr ⟨hshunned, fun q hq => (hlaid q hq).2⟩⟩
  | some data =>
    have hvisit := (settles_visit hrec henv hctx (hdata data rfl)).imp fun o ho =>
      ho.toNode data.origin
    refine (meets_keepStatement (listwise_zip fun q r => r.Laid env.registry shunned ∧
      (q = condition → r.isDeferred (Registry.isKnown env.registry) = true)) hparams ifName o
        hvisit).imp fun out hout => ?_
    obtain ⟨qs, d, rfl, hqs, hd⟩ := hout
    obtain ⟨hrests, hlaid⟩ := hrests hqs
    have hkeeps : ifName ≠ includeName ∧ Registry.contains env.registry ifName = false :=
      ⟨by decide, henv.orderly.constructs ifName (by simp [constructs])⟩
    exact Outcome.laid_value ⟨.statement hrests hkeeps (fun q hq => (hlaid q hq).1) hd.1,
      Node.inert_statement.mpr ⟨hshunned, fun q hq => (hlaid q hq).2, hd.2⟩⟩

include hblind in
theorem settles_conditional {ps : List Node} (o : Origin) {data : Option Node}
    (hshunned : shunned ifName = false) (hps : ∀ p ∈ ps, p.Inert shunned)
    (hdata : ∀ d ∈ data, d.Inert shunned) :
    Loading env shunned (Outcome.Laid env.registry shunned)
      (conditional env rec ⟨ifName, ps, o⟩ data ctx) := by
  match ps, hps with
  | [], _ => exact meets_map (settles_report _ _) fun _ _ => Outcome.laid_token _
  | _ :: _ :: _, _ => exact meets_map (settles_report _ _) fun _ _ => Outcome.laid_token _
  | [condition], hps =>
    have hcondition := List.forall_mem_singleton.mp hps
    refine meets_bind (settles_requireToken hrec hblind henv hctx hcondition) fun x hx => ?_
    cases x with
    | ok t =>
      refine meets_ite (fun _ => ?_) fun _ => meets_pure Outcome.laid_empty
      cases data with
      | none => exact meets_map (settles_report _ _) fun _ _ => Outcome.laid_empty
      | some data => exact settles_visit hrec henv hctx (hdata data rfl)
    | error out =>
      cases out with
      | pending =>
        simp only [henv.late, Bool.false_eq_true, if_false]
        exact meets_bind (settles_remarkAt _ _ _) fun _ _ =>
          settles_keepConditional hrec henv hctx o hshunned hcondition hdata hx
      | value n => exact meets_pure hx
      | empty => exact meets_pure hx
      | splice items => exact meets_pure hx

/-! ### Sequences -/

theorem settles_plainElement {n : Node} (hn : n.Inert shunned) :
    Loading env shunned
      (fun r => ∃ l, r.1 = some l ∧ (∀ m ∈ l, m.Laid env.registry shunned) ∧
        r.2.Laid env.registry shunned)
      (plainElement env rec ctx n) := by
  have hvisit := (settles_visit hrec henv hctx hn).imp fun o ho => ho.toItems
  refine (meets_plainElement hvisit).imp fun r hr => ?_
  obtain ⟨l, rfl, hl⟩ := hr
  exact ⟨l, rfl, hl, hctx⟩

include hblind in
/-- An element gives nodes that are settled, and a context that binds such nodes. -/
theorem settles_element {n : Node} (hn : n.Inert shunned) :
    Loading env shunned
      (fun r => ∃ l, r.1 = some l ∧ (∀ m ∈ l, m.Laid env.registry shunned) ∧
        r.2.Laid env.registry shunned)
      (element env rec ctx n) := by
  induction n generalizing ctx with
  | token t => exact settles_plainElement hrec henv hctx hn
  | block es o => exact settles_plainElement hrec henv hctx hn
  | array is o => exact settles_plainElement hrec henv hctx hn
  | call f ps o =>
    rw [element]
    refine meets_ite (fun _ => ?_) fun _ => settles_plainElement hrec henv hctx hn
    refine meets_map (settles_bind hrec hblind henv hctx o (Node.inert_call.mp hn).2)
      fun ctx' hctx' => ?_
    exact ⟨[], rfl, by simp, hctx'⟩
  | statement f ps o data _ ihdata =>
    obtain ⟨hf, hps, hdata⟩ := Node.inert_statement.mp hn
    have htail : Loading env shunned
        (fun r => ∃ l, r.1 = some l ∧ (∀ m ∈ l, m.Laid env.registry shunned) ∧
          r.2.Laid env.registry shunned)
        (elementAnd env rec ctx (.call f ps o) (element env rec ctx data)) := by
      refine meets_bind (hrec env henv (.call f ps o) ctx (Node.inert_call.mpr ⟨hf, hps⟩) hctx)
        fun out hout => ?_
      rw [orKept_of_ready hout.ready]
      obtain ⟨items, hitems, hlaid⟩ := hout.toItems
      simp only [Walk.pure_bind, hitems]
      refine meets_map (ihdata hctx hdata) fun r hr => ?_
      obtain ⟨more, hr, hmore, hctx'⟩ := hr
      exact ⟨items ++ more, by rw [hr]; rfl, List.forall_mem_append.mpr ⟨hlaid, hmore⟩, hctx'⟩
    rw [element_statement]
    refine meets_ite (fun _ => ?_) fun _ => meets_ite (fun _ => ?_) fun _ =>
      settles_plainElement hrec henv hctx hn
    · exact meets_bind (settles_bind hrec hblind henv hctx o hps) fun ctx' hctx' =>
        ihdata hctx' hdata
    · exact meets_ite (fun _ => meets_bind (settles_remarkAt _ _ _) fun _ _ => htail)
        fun _ => htail

include hblind in
theorem settles_elements {ns : List Node} (hns : ∀ n ∈ ns, n.Inert shunned) :
    Loading env shunned (fun r => ∃ ms, r = some ms ∧ ∀ m ∈ ms, m.Laid env.registry shunned)
      (elements env rec ctx ns) := by
  induction ns generalizing ctx with
  | nil => exact meets_pure ⟨[], rfl, by simp⟩
  | cons n ns ih =>
    obtain ⟨hn, hns⟩ := List.forall_mem_cons.mp hns
    refine meets_bind (settles_element hrec hblind henv hctx hn) fun r hr => ?_
    obtain ⟨items, ctx'⟩ := r
    obtain ⟨l, hl, hlaid, hctx'⟩ := hr
    obtain rfl : items = some l := hl
    refine meets_map (ih hctx' hns) fun r hr => ?_
    obtain ⟨ms, rfl, hms⟩ := hr
    exact ⟨l ++ ms, rfl, List.forall_mem_append.mpr ⟨hlaid, hms⟩⟩

theorem settles_entries {es : List (Token × Node)} (hes : ∀ e ∈ es, e.2.Inert shunned) :
    Loading env shunned
      (fun r => ∃ fs, r = some fs ∧ ∀ e ∈ fs, e.2.Laid env.registry shunned)
      (entries env rec ctx es) := by
  refine meets_entries (listwise_forall fun e => e.2.Laid env.registry shunned) fun e he => ?_
  refine (settles_visit hrec henv hctx (hes e he)).imp fun o ho => ?_
  cases o with
  | value n => exact ⟨_, rfl, by simpa using ho.nodes⟩
  | empty => exact ⟨_, rfl, by simp⟩
  | splice items => exact ⟨_, rfl, by simpa using Node.closed_laid.array.mpr ho.nodes⟩
  | pending => exact absurd rfl ho.ready

/-! ### Includes -/

omit hrec henv hctx in
theorem settles_notIncluded (call : Call) (problem : Problem) :
    Loading env shunned (Outcome.Laid env.registry shunned) (notIncluded call problem) :=
  meets_map (settles_report _ _) fun _ _ => Outcome.laid_token _

omit hrec henv hctx in
theorem laid_spliced {items : List Node} (h : ∀ n ∈ items, n.Laid env.registry shunned) :
    (spliced items).Laid env.registry shunned := by
  unfold spliced
  split
  next is o =>
    have harray : (Node.array is o).Laid env.registry shunned := h _ (by simp)
    exact ⟨fun h => (nomatch h), Node.closed_laid.array.mp harray⟩
  next => exact Outcome.laid_ofItems h

/-- What the pass gives for the overrides of an `Include`: values to bind, or an outcome. -/
def LaidBindings (env : Surroundings) (shunned : String → Bool) :
    Except Outcome (List (Token × Node)) → Prop
  | .ok es => ∀ e ∈ es, e.2.Laid env.registry shunned
  | .error out => out.Laid env.registry shunned

theorem settles_overrides (c : Call) {params : List Node}
    (hparams : ∀ p ∈ params, p.Inert shunned) :
    Loading env shunned (LaidBindings env shunned) (overrides env rec c ctx params) := by
  have hnone : LaidBindings env shunned (.ok []) := by simp [LaidBindings]
  have hwrong : ∀ param found, Loading env shunned (LaidBindings env shunned)
      (do return Except.error (← overrides.wrong c param found)) := fun param found =>
    meets_map (P := fun out => out.Laid env.registry shunned)
      (meets_map (settles_report _ _) fun _ _ => Outcome.laid_token _) fun _ h => h
  cases params with
  | nil => exact meets_pure hnone
  | cons param others =>
    refine meets_bind (settles_visit hrec henv hctx (hparams param (by simp))) fun out hout => ?_
    cases out with
    | pending => exact absurd rfl hout.ready
    | empty => exact hwrong param .nothing
    | splice items => exact hwrong param .array
    | value n =>
      have hnull := meets_ite (c := n.isNull = true) (fun _ => meets_pure hnone)
        fun _ => hwrong param n.kind
      cases n with
      | block es o =>
        have hblock : (Node.block es o).Laid env.registry shunned := hout.nodes _ (by simp)
        exact meets_pure (Node.closed_laid.block.mp hblock)
      | token t => exact hnull
      | call f ps o => exact hnull
      | statement f ps o d => exact hnull
      | array is o => exact hnull

include hblind in
/-- The elements of an included file are settled like those of the file that includes it. -/
theorem settles_includeText (c : Call) (file text : String)
    (hitems : ∀ n ∈ (parseText text file env.settings.uniqueId).1, n.Inert shunned) :
    Loading env shunned (Outcome.Laid env.registry shunned)
      (includeText env rec c file text ctx) := by
  have hwithin : (env.within file).Loads := ⟨henv.late, henv.orderly⟩
  have hmarked : ∀ n ∈ Node.markUids (c.origin.uid ++ ">")
      (parseText text file env.settings.uniqueId).1, n.Inert shunned :=
    (Node.alike_markUids _ _).forall_mem fun n hn m hnm => hnm.inert (hitems n hn)
  have helements : Loading env shunned
      (fun r => ∃ ms, r = some ms ∧ ∀ m ∈ ms, m.Laid env.registry shunned)
      (elements (env.within file) rec ctx _) :=
    settles_elements hrec hblind hwithin hctx hmarked
  refine meets_bind (settles_remarkAt _ _ _) fun _ _ =>
    meets_bind (meets_leave fun _ _ => trivial) fun _ _ => meets_bind helements fun r hr => ?_
  obtain ⟨ms, rfl, hms⟩ := hr
  exact meets_pure (laid_spliced hms)

omit hrec henv hctx in
/-- A file that was asked for is one that is relied on. -/
theorem trusted_askFile (file : String) :
    Loading env shunned
      (fun r => ∀ text, r = some text →
        ∀ n ∈ (parseText text file env.settings.uniqueId).1, n.Inert shunned)
      (Walk.askFile env.host file) := by
  refine fun s htrust => ⟨fun _ => rfl, fun _ _ => trivial, fun h => h.elim, fun r hr => ?_⟩
  intro text htext
  obtain rfl : env.host.fileText file = r := Except.ok.inj hr
  exact htrust (.asked (.file file)) (by simp [Walk.askFile, questionNotes]) file text rfl htext

include hblind in
theorem settles_includeFile (c : Call) (file : String) :
    Loading env shunned (Outcome.Laid env.registry shunned) (includeFile env rec c file ctx) := by
  refine meets_ite (fun _ => settles_notIncluded c _) fun _ =>
    meets_ite (fun _ => settles_notIncluded c _) fun _ =>
      meets_bind (trusted_askFile file) fun text htext => ?_
  cases text with
  | none => exact settles_notIncluded c _
  | some text => exact settles_includeText hrec hblind henv hctx c file text (htext text rfl)

/-- An `Include` that waits for its path stays. -/
theorem settles_keepInclude {path : Node} {others : List Node} (o : Origin)
    (hshunned : shunned includeName = false) (hps : ∀ p ∈ path :: others, p.Inert shunned)
    (hothers : others.length ≤ 1)
    (hwaits : Required env shunned (visit env rec path ctx) path (.error .pending)) :
    Loading env shunned (Outcome.Laid env.registry shunned)
      (keepCall env rec ⟨includeName, path :: others, o⟩ none ctx) := by
  refine (meets_keepCall (listwise_zip fun q r => r.Laid env.registry shunned ∧
    (q = path → r.isDeferred (Registry.isKnown env.registry) = true))
      (settles_waitingParam hrec henv hctx hps hwaits) includeName o).imp fun out hout => ?_
  obtain ⟨qs, rfl, hlength, hqs⟩ := hout
  have hlaid : ∀ q ∈ qs, q.Laid env.registry shunned := by
    intro q hq
    rw [← List.map_snd_zip (Nat.le_of_eq hlength.symm)] at hq
    obtain ⟨e, he, rfl⟩ := List.mem_map.mp hq
    exact (hqs e he).1
  match qs, hlength, hqs with
  | q :: qs, hlength, hqs =>
    have hdeferred := (hqs (path, q) (by simp)).2 rfl
    have hlength : qs.length ≤ 1 := by
      simp only [List.length_cons, Nat.add_right_cancel_iff] at hlength
      omega
    exact Outcome.laid_value ⟨.call (.path rfl hdeferred hlength) fun q hq => (hlaid q hq).1,
      Node.inert_call.mpr ⟨hshunned, fun q hq => (hlaid q hq).2⟩⟩

include hblind in
theorem settles_includeCall {ps : List Node} (o : Origin) (hshunned : shunned includeName = false)
    (hps : ∀ p ∈ ps, p.Inert shunned) :
    Loading env shunned (Outcome.Laid env.registry shunned)
      (includeCall env rec ⟨includeName, ps, o⟩ ctx) := by
  match ps, hps with
  | [], _ => exact settles_notIncluded _ _
  | path :: others, hps =>
    obtain ⟨hpath, hothers⟩ := List.forall_mem_cons.mp hps
    unfold includeCall
    dsimp only
    refine meets_ite (fun _ => settles_notIncluded _ _) fun harity =>
      meets_bind (settles_requireToken hrec hblind henv hctx hpath) fun x hx => ?_
    cases x with
    | ok t =>
      refine meets_bind (settles_overrides hrec henv hctx _ hothers) fun r hr => ?_
      cases r with
      | error out => exact meets_pure hr
      | ok es =>
        exact settles_includeFile hrec hblind henv (Context.laid_overlay hctx hr) _ _
    | error out =>
      cases out with
      | pending =>
        have hlength : others.length ≤ 1 := by
          simp only [Arity.accepts, List.length_cons, Bool.not_eq_true', Bool.not_eq_false,
            Bool.or_eq_true, beq_iff_eq] at harity
          omega
        simp only [henv.late, Bool.false_eq_true, if_false]
        exact meets_bind (settles_remarkAt _ _ _) fun _ _ =>
          settles_keepInclude hrec henv hctx o hshunned hps hlength hx
      | value n => exact meets_pure hx
      | empty => exact meets_pure hx
      | splice items => exact meets_pure hx

/-! ### One node -/

include hstill hblind in
theorem settles_call {f : String} {ps : List Node} (o : Origin) {data : Option Node}
    (hshunned : shunned f = false) (hps : ∀ p ∈ ps, p.Inert shunned)
    (hdata : ∀ d ∈ data, d.Inert shunned) :
    Loading env shunned (Outcome.Laid env.registry shunned) (call env rec ⟨f, ps, o⟩ data ctx) := by
  by_cases hf : f ∈ constructs
  · obtain rfl | rfl | rfl : f = includeName ∨ f = ifName ∨ f = setName := by
      simpa [constructs] using hf
    · exact meets_bind (settles_includeCall hrec hblind henv hctx o hshunned hps)
        fun out hout => settles_withTrailing hrec henv hctx hout hdata
    · exact settles_conditional hrec hblind henv hctx o hshunned hps hdata
    · refine meets_bind (settles_bind hrec hblind henv hctx o hps) fun ctx' hctx' => ?_
      cases data with
      | none => exact meets_pure Outcome.laid_empty
      | some data => exact settles_visit hrec henv hctx' (hdata data rfl)
  · rw [call_eq_callNamed hf]
    exact settles_callNamed hrec hstill henv hctx o hf hshunned hps hdata

end

/-- One step settles nodes, if the steps within do. -/
theorem settles_step {shunned : String → Bool} {limit : Nat} {rec : Reducer}
    (hrec : SettlingReducer shunned rec) (hstill : StillReducer limit rec)
    (hblind : BlindReducer rec) : SettlingReducer shunned (step rec) := by
  intro env henv node ctx hn hctx
  cases node with
  | token t => exact meets_pure (Outcome.laid_token _)
  | array is o =>
    refine meets_bind (settles_elements hrec hblind henv hctx (Node.inert_array.mp hn))
      fun r hr => ?_
    obtain ⟨ms, rfl, hms⟩ := hr
    exact meets_pure (Outcome.laid_value (Node.closed_laid.array.mpr hms))
  | block es o =>
    refine meets_bind (settles_entries hrec henv hctx (Node.inert_block.mp hn)) fun r hr => ?_
    obtain ⟨fs, rfl, hfs⟩ := hr
    exact meets_pure (Outcome.laid_value (Node.closed_laid.block.mpr hfs))
  | call f ps o =>
    obtain ⟨hf, hps⟩ := Node.inert_call.mp hn
    exact settles_call hrec hstill hblind henv hctx o hf hps (by simp)
  | statement f ps o data =>
    obtain ⟨hf, hps, hdata⟩ := Node.inert_statement.mp hn
    exact settles_call hrec hstill hblind henv hctx o hf hps (by simpa using hdata)

theorem settles_inContext (shunned : String → Bool) (limit : Nat) :
    SettlingReducer shunned (inContext limit) := by
  induction limit with
  | zero =>
    intro env _ node ctx _ _
    exact meets_halt _ fun h => h
  | succ limit ih => exact settles_step ih (still_inContext limit) (blind_inContext limit)

/-- **What the loading pass makes of a node is settled**, and calls nothing that is shunned
unless the node does, or a bound value or a file that was asked for. -/
theorem settles_reduce {env : Surroundings} (henv : env.Loads) {shunned : String → Bool}
    {node : Node} {ctx : Context} (hn : node.Inert shunned) (hctx : ctx.Laid env.registry shunned) :
    Loading env shunned (Outcome.Laid env.registry shunned) (reduce env node ctx) :=
  settles_visit (settles_inContext shunned env.limit) henv hctx hn

end Reduce

end ContentLang
