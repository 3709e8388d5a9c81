import ContentLang.Proofs.Identity.Apart
import ContentLang.Proofs.Memory.Functions
import ContentLang.Proofs.Readiness.Reduction

/-!
# What consumption remembers

One lemma for each part of a step of the reduction in the consumption pass, given that the
reduction of the nodes within remembers what is allowed, and one induction on how deep a walk may
be nested (`ContentLang.Reduce.records_inContext`).

What is allowed has to go with the calls that there are (`ContentLang.Reduce.Entitled`). A call of
the tree may remember what it is decided by. And whatever is remembered under an identity that is
marked with that of a call must be allowed, since that is what files that are included there and
values that are read there remember: their calls are not in the tree.
-/

namespace ContentLang

open Node Uid Walk

/-- Whether surroundings are those of the consumption pass, with functions that remember what is
allowed. -/
structure Surroundings.Recording (env : Surroundings) : Prop where
  faithful : env.Faithful
  functions : ∀ e ∈ env.registry, e.2.Recording

namespace Reduce

/-- **Whether some calls may remember what they are decided by**, and whatever is marked with them
may remember anything. -/
structure Entitled (host : Host) (allowed : String → String → List Bool → Prop)
    (among : Call → Prop) : Prop where
  own : ∀ {c : Call}, among c → ∀ answers, Library.Answered host c answers →
    allowed c.function c.origin.uid answers
  marked : ∀ {c : Call}, among c → ∀ function uid answers,
    allowed function (c.origin.uid ++ ">" ++ uid) answers

/-- The calls with identities that are marked. -/
def Marked (mark : String) (c : Call) : Prop := ∃ uid, c.origin.uid = mark ++ ">" ++ uid

/-- What is marked with a call that may remember is entitled itself. -/
theorem Entitled.copies {host : Host} {allowed : String → String → List Bool → Prop}
    {among : Call → Prop} (h : Entitled host allowed among) {c : Call} (hc : among c) :
    Entitled host allowed (Marked c.origin.uid) where
  own := by
    rintro d ⟨uid, hd⟩ answers -
    rw [hd]
    exact h.marked hc _ _ _
  marked := by
    rintro d ⟨uid, hd⟩ function uid' answers
    have hmark : d.origin.uid ++ ">" ++ uid' = c.origin.uid ++ ">" ++ (uid ++ ">" ++ uid') := by
      rw [hd]
      simp only [String.append_assoc]
    rw [hmark]
    exact h.marked hc _ _ _

/-- All calls in a marked node are marked. -/
theorem confined_markUid (known : String → Bool) (mark : String) (n : Node) :
    (n.markUid (mark ++ ">")).Confined known (Marked mark) := by
  intro c hc _
  have huid : c.origin.uid ∈ (n.markUid (mark ++ ">")).uids := List.mem_map_of_mem hc
  rw [uids_markUid] at huid
  obtain ⟨uid, -, hu⟩ := List.mem_map.mp huid
  exact ⟨uid, hu.symm⟩

/-- **Whether a way to reduce nodes remembers what is allowed**, in consumption, for nodes with
calls that are entitled to that. -/
def RecordingReducer (rec : Reducer) : Prop :=
  ∀ {env : Surroundings}, env.Recording →
    ∀ {allowed : String → String → List Bool → Prop} {among : Call → Prop},
      Entitled env.host allowed among → ∀ {node : Node},
        node.Confined (Registry.isKnown env.registry) among → ∀ ctx,
          Records allowed (rec env node ctx)

section

variable {limit : Nat} {rec : Reducer} (hrec : RecordingReducer rec)
  (hfaithful : FaithfulReducer rec) (hstill : StillReducer limit rec)
  {env : Surroundings} (henv : env.Recording)
  {allowed : String → String → List Bool → Prop} {among : Call → Prop}
  (hallowed : Entitled env.host allowed among)
include hrec henv hallowed

theorem records_visit {node : Node} (hn : node.Confined (Registry.isKnown env.registry) among)
    (ctx : Context) : Records allowed (visit env rec node ctx) :=
  hrec henv hallowed hn _

include hfaithful hstill in
/-- **What a function may do in consumption** remembers what is allowed. -/
theorem recording_evaluator : (evaluator env rec).Recording allowed among :=
  ⟨faithful_evaluator hfaithful hstill henv.faithful, fun hn ctx =>
    records_visit hrec henv hallowed hn ctx⟩

include hfaithful hstill in
theorem records_requireToken {node : Node}
    (hn : node.Confined (Registry.isKnown env.registry) among) (ctx : Context) :
    Records allowed ((evaluator env rec).requireToken node ctx) :=
  Evaluator.records_requireToken (recording_evaluator hrec hfaithful hstill henv hallowed) hn ctx

/-! ### Parameters -/

theorem records_reduceParams {params : List Node}
    (hps : ∀ p ∈ params, p.Confined (Registry.isKnown env.registry) among) (ctx : Context) :
    Records allowed (reduceParams env rec ctx params) := by
  induction params with
  | nil => exact records_pure _
  | cons p ps ih =>
    obtain ⟨hp, hps⟩ := List.forall_mem_cons.mp hps
    refine records_then (records_visit hrec henv hallowed hp ctx) fun o => ?_
    cases o.toNode? p.origin with
    | none => exact records_pure _
    | some n => exact records_map (ih hps)

theorem records_reduceCallParams {call : Call}
    (hps : ∀ p ∈ call.params, p.Confined (Registry.isKnown env.registry) among) (ctx : Context) :
    Records allowed (reduceCallParams env rec call ctx) :=
  records_map (records_reduceParams hrec henv hallowed hps ctx)

omit hrec hallowed in
include hfaithful in
/-- A call with its parameters reduced keeps its identity. -/
theorem gives_reduceCallParams (call : Call) (ctx : Context) :
    Gives (fun r => ∀ processed, r = some processed →
        processed.origin.uid = call.origin.uid ∧
          ∀ p ∈ processed.params, p.Inert (Registry.isKnown env.registry))
      (reduceCallParams env rec call ctx) := by
  refine meets_map (propagates_reduceParams hfaithful henv.faithful ctx call.params).gives
    fun r hr processed hprocessed => ?_
  obtain ⟨ps, rfl, rfl⟩ := Option.map_eq_some_iff.mp hprocessed
  exact ⟨rfl, hr ps rfl⟩

theorem records_keepCall {call : Call}
    (hps : ∀ p ∈ call.params, p.Confined (Registry.isKnown env.registry) among)
    {data : Option Node}
    (hdata : ∀ d, data = some d → d.Confined (Registry.isKnown env.registry) among)
    (ctx : Context) : Records allowed (keepCall env rec call data ctx) := by
  refine records_then (records_reduceCallParams hrec henv hallowed hps ctx) fun r => ?_
  cases r with
  | none => exact records_pure _
  | some processed =>
    cases data with
    | none => exact records_pure _
    | some d =>
      refine records_then (records_visit hrec henv hallowed (hdata d rfl) ctx) fun o => ?_
      split
      next => exact records_pure _
      next => exact records_pure _

theorem records_withTrailing (outcome : Outcome) {data : Option Node}
    (hdata : ∀ d, data = some d → d.Confined (Registry.isKnown env.registry) among)
    (ctx : Context) : Records allowed (withTrailing env rec outcome data ctx) := by
  cases data with
  | none => exact records_pure _
  | some d =>
    refine records_then (records_visit hrec henv hallowed (hdata d rfl) ctx) fun o => ?_
    split
    next => exact records_pure _
    next => exact records_pure _

/-! ### Bindings -/

include hfaithful hstill in
theorem records_bind_call {call : Call}
    (hps : ∀ p ∈ call.params, p.Confined (Registry.isKnown env.registry) among) (ctx : Context) :
    Records allowed (bind env rec call ctx) := by
  have hunbound : Records allowed (do Walk.leave [.unbound call]; return ctx) :=
    records_then (records_leave _) fun _ => records_pure _
  unfold bind
  split
  next name value hparams =>
    have hname := hps name (by simp [hparams])
    have hvalue := hps value (by simp [hparams])
    refine records_then (records_requireToken hrec hfaithful hstill henv hallowed hname ctx)
      fun r => ?_
    split
    next => exact records_then (records_report _ _) fun _ => hunbound
    next => exact records_pure _
    next key =>
      refine records_then (records_visit hrec henv hallowed hvalue ctx) fun o => ?_
      split
      next => exact hunbound
      next => exact records_then (records_remarkAt _ _ _) fun _ => records_pure _
  next => exact records_then (records_report _ _) fun _ => records_pure _

/-! ### Functions -/

include hfaithful hstill in
/-- A late function is reduced with its call as it stands, any other one with parameters that hold
nothing more to reduce. The value that `^` copies is marked in either case. -/
theorem records_callFunction {function : Function} (hf : function.Recording) {call : Call}
    (hcall : among call)
    (hps : ∀ p ∈ call.params, p.Confined (Registry.isKnown env.registry) among) (ctx : Context) :
    Records allowed (callFunction env rec function call ctx) := by
  have hev := recording_evaluator hrec hfaithful hstill henv hallowed
  have hcopies : ∀ value : Node,
      Records allowed (visit env rec (value.markUid (call.origin.uid ++ ">")) ctx) := fun value =>
    records_visit hrec henv (hallowed.copies hcall) (confined_markUid _ _ value) ctx
  unfold callFunction
  simp only [henv.faithful.1, if_true, Bool.not_true, Bool.and_false, Bool.false_eq_true, if_false]
  refine records_ite (fun _ => hf hev call ctx hps (fun _ => hallowed.own hcall) hcopies)
    fun hlate => ?_
  refine records_bind (records_reduceCallParams hrec henv hallowed hps ctx)
    (gives_reduceCallParams hfaithful henv call ctx) fun r hr => ?_
  cases r with
  | none => exact records_pure _
  | some processed =>
    obtain ⟨huid, hinert⟩ := hr processed rfl
    have hreduced : Records allowed (function.reduce (evaluator env rec) processed ctx) :=
      hf hev processed ctx (fun p hp => (hinert p hp).confined) (fun h => absurd h hlate)
        (huid ▸ hcopies)
    exact records_map hreduced

include hfaithful hstill in
theorem records_callNamed {call : Call}
    (hcall : (Node.ofCall call).Confined (Registry.isKnown env.registry) among)
    {data : Option Node}
    (hdata : ∀ d, data = some d → d.Confined (Registry.isKnown env.registry) among)
    (ctx : Context) : Records allowed (callNamed env rec call data ctx) := by
  obtain ⟨hamong, hps⟩ := confined_call.mp hcall
  unfold callNamed
  split
  next =>
    exact records_then (records_remarkAt _ _ _) fun _ =>
      records_keepCall hrec henv hallowed hps hdata ctx
  next function hget =>
    obtain ⟨e, he, rfl⟩ := Registry.mem_of_get? hget
    have hknown : Registry.isKnown env.registry call.function = true := by
      rw [← Bool.not_eq_false]
      intro h
      rw [Registry.get?_of_not_isKnown h] at hget
      exact nomatch hget
    have htrailing := fun outcome =>
      records_withTrailing hrec henv hallowed outcome hdata ctx
    refine records_then (records_callFunction hrec hfaithful hstill henv hallowed
      (henv.functions e he) (hamong hknown) hps ctx) fun outcome => ?_
    exact records_ite (fun _ => records_then (records_remarkAt _ _ _) fun _ => htrailing outcome)
      fun _ => htrailing outcome

/-! ### Conditions -/

include hfaithful hstill in
theorem records_conditional {call : Call}
    (hps : ∀ p ∈ call.params, p.Confined (Registry.isKnown env.registry) among)
    {data : Option Node}
    (hdata : ∀ d, data = some d → d.Confined (Registry.isKnown env.registry) among)
    (ctx : Context) : Records allowed (conditional env rec call data ctx) := by
  unfold conditional
  split
  next condition hparams =>
    refine records_then (records_requireToken hrec hfaithful hstill henv hallowed
      (hps condition (by simp [hparams])) ctx) fun r => ?_
    split
    next =>
      refine records_ite (fun _ => records_pure _) fun _ => ?_
      exact records_then (records_remarkAt _ _ _) fun _ =>
        records_keepCall hrec henv hallowed hps hdata ctx
    next => exact records_pure _
    next =>
      refine records_ite (fun _ => ?_) fun _ => records_pure _
      cases data with
      | some d => exact records_visit hrec henv hallowed (hdata d rfl) ctx
      | none => exact records_then (records_report _ _) fun _ => records_pure _
  next => exact records_then (records_report _ _) fun _ => records_pure _

/-! ### Sequences -/

theorem records_plainElement {node : Node}
    (hn : node.Confined (Registry.isKnown env.registry) among) (ctx : Context) :
    Records allowed (plainElement env rec ctx node) := by
  refine records_then (records_visit hrec henv hallowed hn ctx) fun o => ?_
  rw [orKept_eq henv.faithful]
  exact records_pure _

include hfaithful hstill in
theorem records_element {node : Node}
    (hn : node.Confined (Registry.isKnown env.registry) among) (ctx : Context) :
    Records allowed (element env rec ctx node) := by
  induction node generalizing ctx with
  | token t => exact records_plainElement hrec henv hallowed hn ctx
  | block es o => exact records_plainElement hrec henv hallowed hn ctx
  | array is o => exact records_plainElement hrec henv hallowed hn ctx
  | call f ps o =>
    rw [element]
    refine records_ite (fun _ => ?_) fun _ => records_plainElement hrec henv hallowed hn ctx
    exact records_map (records_bind_call hrec hfaithful hstill henv hallowed (confined_call.mp hn).2
      ctx)
  | statement f ps o data _ ihdata =>
    obtain ⟨hcall, hdata⟩ := confined_statement.mp hn
    have htail : Records allowed
        (elementAnd env rec ctx (.call f ps o) (element env rec ctx data)) := by
      refine records_then (hrec henv hallowed hcall ctx) fun out => ?_
      rw [orKept_eq henv.faithful, Walk.pure_bind]
      split
      next => exact records_pure _
      next => exact records_map (ihdata hdata ctx)
    rw [element_statement]
    refine records_ite (fun _ => ?_) fun _ => records_ite (fun _ => ?_) fun _ =>
      records_plainElement hrec henv hallowed hn ctx
    · exact records_then (records_bind_call hrec hfaithful hstill henv hallowed
        (confined_call.mp hcall).2 ctx) fun ctx' => ihdata hdata ctx'
    · exact records_ite (fun _ => records_then (records_remarkAt _ _ _) fun _ => htail)
        fun _ => htail

include hfaithful hstill in
theorem records_elements {nodes : List Node}
    (hns : ∀ n ∈ nodes, n.Confined (Registry.isKnown env.registry) among) (ctx : Context) :
    Records allowed (elements env rec ctx nodes) := by
  induction nodes generalizing ctx with
  | nil => exact records_pure _
  | cons n ns ih =>
    obtain ⟨hn, hns⟩ := List.forall_mem_cons.mp hns
    refine records_then (records_element hrec hfaithful hstill henv hallowed hn ctx) fun r => ?_
    obtain ⟨items, ctx'⟩ := r
    cases items with
    | none => exact records_pure _
    | some items => exact records_map (ih hns ctx')

theorem records_entries {es : List (Token × Node)}
    (hes : ∀ e ∈ es, e.2.Confined (Registry.isKnown env.registry) among) (ctx : Context) :
    Records allowed (entries env rec ctx es) := by
  induction es with
  | nil => exact records_pure _
  | cons e es ih =>
    obtain ⟨k, n⟩ := e
    obtain ⟨hn, hes⟩ := List.forall_mem_cons.mp hes
    refine records_then (records_visit hrec henv hallowed hn ctx) fun o => ?_
    rw [orKept_eq henv.faithful, Walk.pure_bind]
    cases o with
    | pending => exact records_pure _
    | empty => exact ih hes
    | value m => exact records_map (ih hes)
    | splice items => exact records_map (ih hes)

/-! ### Includes -/

omit hrec henv hallowed in
theorem records_notIncluded (call : Call) (problem : Problem) :
    Records allowed (notIncluded call problem) :=
  records_then (records_report _ _) fun _ => records_pure _

theorem records_overrides (call : Call) {params : List Node}
    (hps : ∀ p ∈ params, p.Confined (Registry.isKnown env.registry) among) (ctx : Context) :
    Records allowed (overrides env rec call ctx params) := by
  have hwrong : ∀ param found, Records allowed (do
      return Except.error (α := List (Token × Node)) (← overrides.wrong call param found)) :=
    fun param found => records_map (records_then (records_report _ _) fun _ => records_pure _)
  cases params with
  | nil => exact records_pure _
  | cons param others =>
    refine records_then (records_visit hrec henv hallowed (hps param (by simp)) ctx) fun o => ?_
    split
    next => exact records_pure _
    next =>
      rw [if_pos henv.faithful.1]
      exact records_pure _
    next => exact records_ite (fun _ => records_pure _) fun _ => hwrong _ _
    next => exact hwrong _ _
    next => exact hwrong _ _

omit hallowed in
include hfaithful hstill in
/-- **The calls of an included file are marked** with the call that includes it. -/
theorem records_includeText {call : Call}
    (hmarked : Entitled env.host allowed (Marked call.origin.uid)) (file text : String)
    (ctx : Context) : Records allowed (includeText env rec call file text ctx) := by
  have hwithin : (env.within file).Recording := ⟨henv.faithful, henv.functions⟩
  refine records_then (records_remarkAt _ _ _) fun _ => records_then (records_leave _) fun _ => ?_
  have hitems : ∀ n ∈ markUids (call.origin.uid ++ ">")
      (parseText text file env.settings.uniqueId).1,
      n.Confined (Registry.isKnown env.registry) (Marked call.origin.uid) := by
    rw [markUids_eq]
    intro n hn
    obtain ⟨m, -, rfl⟩ := List.mem_map.mp hn
    exact confined_markUid _ _ m
  have helements := records_elements hrec hfaithful hstill hwithin hmarked hitems ctx
  refine records_then helements fun r => ?_
  cases r with
  | none => exact records_pure _
  | some items => exact records_pure _

omit hallowed in
include hfaithful hstill in
theorem records_includeFile {call : Call}
    (hmarked : Entitled env.host allowed (Marked call.origin.uid)) (file : String)
    (ctx : Context) : Records allowed (includeFile env rec call file ctx) := by
  refine records_ite (fun _ => records_notIncluded call _) fun _ =>
    records_ite (fun _ => records_notIncluded call _) fun _ =>
      records_then (records_askFile _ _) fun text => ?_
  cases text with
  | none => exact records_notIncluded call _
  | some text => exact records_includeText hrec hfaithful hstill henv hmarked file text ctx

include hfaithful hstill in
theorem records_includeCall {call : Call} (hcall : among call)
    (hps : ∀ p ∈ call.params, p.Confined (Registry.isKnown env.registry) among) (ctx : Context) :
    Records allowed (includeCall env rec call ctx) := by
  unfold includeCall
  split
  next => exact records_notIncluded call _
  next path others hparams =>
    have hpath := hps path (by simp [hparams])
    have hothers : ∀ p ∈ others, p.Confined (Registry.isKnown env.registry) among := fun p hp =>
      hps p (by simp [hparams, hp])
    refine records_ite (fun _ => records_notIncluded call _) fun _ =>
      records_then (records_requireToken hrec hfaithful hstill henv hallowed hpath ctx) fun r => ?_
    split
    next =>
      rw [if_pos henv.faithful.1]
      exact records_pure _
    next => exact records_pure _
    next =>
      refine records_then (records_overrides hrec henv hallowed call hothers ctx) fun r => ?_
      split
      next => exact records_pure _
      next =>
        exact records_includeFile hrec hfaithful hstill henv (hallowed.copies hcall) _ _

/-! ### One node -/

include hfaithful hstill in
theorem records_call {c : Call}
    (hc : (Node.ofCall c).Confined (Registry.isKnown env.registry) among) {data : Option Node}
    (hdata : ∀ d, data = some d → d.Confined (Registry.isKnown env.registry) among)
    (ctx : Context) : Records allowed (call env rec c data ctx) := by
  obtain ⟨hamong, hps⟩ := confined_call.mp hc
  unfold call
  refine records_ite (fun hinclude => ?_) fun _ => records_ite (fun _ => ?_) fun _ =>
    records_ite (fun _ => ?_) fun _ => ?_
  · have hknown : Registry.isKnown env.registry c.function = true := by
      simp [Registry.isKnown, constructs, hinclude]
    exact records_then
      (records_includeCall hrec hfaithful hstill henv hallowed (hamong hknown) hps ctx)
      fun outcome => records_withTrailing hrec henv hallowed outcome hdata ctx
  · exact records_conditional hrec hfaithful hstill henv hallowed hps hdata ctx
  · refine records_then (records_bind_call hrec hfaithful hstill henv hallowed hps ctx)
      fun ctx' => ?_
    cases data with
    | none => exact records_pure _
    | some d => exact records_visit hrec henv hallowed (hdata d rfl) ctx'
  · exact records_callNamed hrec hfaithful hstill henv hallowed hc hdata ctx

end

/-- One step remembers what is allowed, if the steps within do. -/
theorem records_step {limit : Nat} {rec : Reducer} (hrec : RecordingReducer rec)
    (hfaithful : FaithfulReducer rec) (hstill : StillReducer limit rec) :
    RecordingReducer (step rec) := by
  intro env henv allowed among hallowed node hn ctx
  cases node with
  | token t => exact records_pure _
  | array is o =>
    refine records_then (records_elements hrec hfaithful hstill henv hallowed (confined_array hn)
      ctx) fun r => ?_
    cases r with
    | none => exact records_pure _
    | some items => exact records_pure _
  | block es o =>
    refine records_then (records_entries hrec henv hallowed (confined_block hn) ctx) fun r => ?_
    cases r with
    | none => exact records_pure _
    | some fs => exact records_pure _
  | call f ps o =>
    refine records_call hrec hfaithful hstill henv hallowed (c := ⟨f, ps, o⟩) hn
      (fun d hd => ?_) ctx
    exact nomatch hd
  | statement f ps o data =>
    obtain ⟨hcall, hdata⟩ := confined_statement.mp hn
    refine records_call hrec hfaithful hstill henv hallowed (c := ⟨f, ps, o⟩) hcall (fun d hd => ?_)
      ctx
    obtain rfl : data = d := Option.some.inj hd
    exact hdata

theorem records_inContext (limit : Nat) : RecordingReducer (inContext limit) := by
  induction limit with
  | zero => exact fun _ _ _ _ _ _ _ => records_halt _
  | succ limit ih => exact records_step ih (propagates_inContext limit) (still_inContext limit)

/-- **Consumption remembers what is allowed**: what the calls of a node are decided by, and anything
that is marked with one of them. -/
theorem records_reduce {env : Surroundings} (henv : env.Recording)
    {allowed : String → String → List Bool → Prop} {among : Call → Prop}
    (hallowed : Entitled env.host allowed among) {node : Node}
    (hn : node.Confined (Registry.isKnown env.registry) among) (ctx : Context) :
    Records allowed (reduce env node ctx) :=
  records_visit (records_inContext env.limit) henv hallowed hn ctx

end Reduce

end ContentLang
