import ContentLang.Proofs.Readiness.Functions
import ContentLang.Proofs.Settled.Still
import ContentLang.Proofs.Walk.Congruence

/-!
# Consumption propagates what is not ready

One lemma for each part of a step of the reduction, given that the reduction of the nodes
within propagates what is not ready, and one induction on how deep a walk may be nested
(`ContentLang.Reduce.propagates_inContext`). All of it is about the consumption pass, in
which nothing is kept for later.

The only part that does not pass on what waits is a binding: it is dropped
(`ContentLang.Reduce.propagates_bind_call`).
-/

namespace ContentLang

/-- Whether surroundings are those of the consumption pass, with functions that propagate
what is not ready. -/
def Surroundings.Faithful (env : Surroundings) : Prop :=
  env.late = true ∧ ∀ e ∈ env.registry, e.2.Faithful

/-- Whether a walk gives several inert nodes, unless it waits. -/
abbrev PropagatesNodes (host : Host) (known : String → Bool) (m : Walk (Option (List Node))) :
    Prop :=
  Propagates host (· = none) (fun r => ∀ ns, r = some ns → ∀ n ∈ ns, n.Inert known) m

/-- Whether a walk gives the inert nodes of an element, unless it waits, and a context. -/
abbrev PropagatesElement (host : Host) (known : String → Bool)
    (m : Walk (Option (List Node) × Context)) : Prop :=
  Propagates host (fun r => r.1 = none) (fun r => ∀ ns, r.1 = some ns → ∀ n ∈ ns, n.Inert known) m

/-- A few inert nodes. -/
theorem propagates_nodes {host : Host} {known : String → Bool} {ns : List Node}
    (h : ∀ n ∈ ns, n.Inert known) :
    PropagatesNodes host known (pure (some ns) : Walk (Option (List Node))) :=
  propagates_pure (fun _ hms => Option.some.inj hms ▸ h) (by simp)

/-- Nodes before those of a walk. -/
theorem propagates_append {host : Host} {known : String → Bool} {m : Walk (Option (List Node))}
    {items : List Node} (hi : ∀ n ∈ items, n.Inert known) (hm : PropagatesNodes host known m) :
    PropagatesNodes host known (m >>= fun r => pure (r.map (items ++ ·))) := by
  refine propagates_map hm fun r hr => ⟨fun ns hns n hn => ?_, Option.map_eq_none_iff⟩
  obtain ⟨more, rfl, rfl⟩ := Option.map_eq_some_iff.mp hns
  rcases List.mem_append.mp hn with hn | hn
  · exact hi n hn
  · exact hr more rfl n hn

namespace Reduce

open Walk

/-- Whether a way to reduce nodes propagates what is not ready in consumption. -/
def FaithfulReducer (rec : Reducer) : Prop :=
  ∀ env : Surroundings, env.Faithful → ∀ node ctx,
    PropagatesOutcome env.host (Registry.isKnown env.registry) (rec env node ctx)

/-- What is put in place of a file is inert if its elements are. -/
theorem inert_spliced {known : String → Bool} {items : List Node}
    (h : ∀ n ∈ items, n.Inert known) : (spliced items).Inert known ∧ spliced items ≠ .pending := by
  unfold spliced
  split
  next is o => exact ⟨Node.inert_array.mp (h (.array is o) (by simp)), by simp⟩
  next => exact ⟨Outcome.inert_ofItems h, Outcome.ofItems_ne_pending _⟩

section

variable {limit : Nat} {rec : Reducer} (hrec : FaithfulReducer rec)
  (hstill : StillReducer limit rec)
  {env : Surroundings} (henv : env.Faithful)
include hrec henv

theorem propagates_visit (node : Node) (ctx : Context) :
    PropagatesOutcome env.host (Registry.isKnown env.registry) (visit env rec node ctx) :=
  hrec env henv node (contextOf env node ctx)

omit hrec in
/-- In consumption nothing is kept. -/
theorem orKept_eq (outcome : Outcome) (node : Node) (ctx : Context) :
    orKept env outcome node ctx = pure outcome := by
  simp [orKept, henv.1]

include hstill in
/-- **What a function may do in consumption is faithful.** -/
theorem faithful_evaluator : (evaluator env rec).Faithful :=
  ⟨fun node ctx => propagates_visit hrec henv node ctx, fun node _ hn =>
    (hstill env node _ hn.settled).mono (.refl _) False.elim fun _ h => h⟩

/-! ### Parameters -/

theorem propagates_reduceParams (ctx : Context) (params : List Node) :
    PropagatesNodes env.host (Registry.isKnown env.registry) (reduceParams env rec ctx params) := by
  induction params with
  | nil => exact propagates_nodes (by simp)
  | cons p ps ih =>
    refine propagates_bind_of_eq (propagates_visit hrec henv p ctx)
      (fun _ => withholds_pure (by simp) rfl) fun o ho hw => ?_
    cases hn : o.toNode? p.origin with
    | none => exact absurd (Outcome.toNode?_eq_none.mp hn) hw
    | some n => exact propagates_append (List.forall_mem_singleton.mpr (ho.toNode hn)) ih

/-- The call that parameters are reduced in keeps its name. -/
theorem propagates_reduceCallParams (call : Call) (ctx : Context) :
    Propagates env.host (· = none)
      (fun r => ∀ c, r = some c → c.function = call.function ∧
        ∀ p ∈ c.params, p.Inert (Registry.isKnown env.registry))
      (reduceCallParams env rec call ctx) := by
  refine propagates_map (propagates_reduceParams hrec henv ctx call.params) fun r hr =>
    ⟨fun c hc => ?_, Option.map_eq_none_iff⟩
  obtain ⟨ps, rfl, rfl⟩ := Option.map_eq_some_iff.mp hc
  exact ⟨rfl, hr ps rfl⟩

/-- A call that is kept, of what is not known. -/
theorem propagates_keepCall (call : Call) (data : Option Node) (ctx : Context)
    (hf : Registry.isKnown env.registry call.function = false) :
    PropagatesOutcome env.host (Registry.isKnown env.registry)
      (keepCall env rec call data ctx) := by
  refine propagates_bind_of_eq (propagates_reduceCallParams hrec henv call ctx)
    (fun _ => withholds_pure trivial rfl) fun r hr hw => ?_
  cases r with
  | none => exact absurd rfl hw
  | some processed =>
    -- The name was not known, and reducing the parameters does not change it.
    obtain ⟨hname, hps⟩ := hr processed rfl
    have hp : Registry.isKnown env.registry processed.function = false := hname ▸ hf
    cases data with
    | none => exact propagates_value (Node.inert_call.mpr ⟨hp, hps⟩)
    | some data =>
      refine propagates_bind_of_eq (propagates_visit hrec henv data ctx)
        (fun _ => withholds_pure trivial rfl) fun o ho hw => ?_
      cases hn : o.toNode? data.origin with
      | none => exact absurd (Outcome.toNode?_eq_none.mp hn) hw
      | some n => exact propagates_value (Node.inert_statement.mpr ⟨hp, hps, ho.toNode hn⟩)

/-- Data after a call waits with the call, and the call with the data. -/
theorem propagates_withTrailing {outcome : Outcome} (data : Option Node) (ctx : Context)
    (ho : outcome.Inert (Registry.isKnown env.registry)) (hw : outcome ≠ .pending) :
    PropagatesOutcome env.host (Registry.isKnown env.registry)
      (withTrailing env rec outcome data ctx) := by
  cases data with
  | none => exact propagates_pure ho hw
  | some data =>
    cases hi : outcome.toItems? with
    | none => exact absurd (Outcome.toItems?_eq_none.mp hi) hw
    | some items =>
      simp only [withTrailing, hi]
      refine propagates_bind_of_eq (propagates_visit hrec henv data ctx)
        (fun _ => withholds_pure trivial rfl) fun o' ho' hw' => ?_
      cases hi' : o'.toItems? with
      | none => exact absurd (Outcome.toItems?_eq_none.mp hi') hw'
      | some more =>
        refine propagates_pure (Outcome.inert_ofItems fun n hn => ?_)
          (Outcome.ofItems_ne_pending _)
        rcases List.mem_append.mp hn with hn | hn
        · exact ho.toItems hi n hn
        · exact ho'.toItems hi' n hn

omit hrec henv in
/-- Data after a call that waits is reduced, and the result waits. -/
theorem withholds_withTrailing (data : Option Node) (ctx : Context) {known : String → Bool} :
    Withholds (· = .pending) (Outcome.Inert known) (withTrailing env rec .pending data ctx) := by
  cases data with
  | none => exact withholds_pure trivial rfl
  | some data => exact withholds_bind fun o => withholds_pure trivial rfl

/-! ### Bindings -/

omit hrec henv in
/-- A walk that drops a binding last. -/
theorem withholds_unbound {α : Type} (call : Call) (a : α) :
    Withholds (fun _ => False) (fun _ : α => True)
      (Walk.leave [.unbound call] >>= fun _ => (pure a : Walk α)) := by
  intro s b _
  refine ⟨trivial, .inr ⟨call, ?_⟩⟩
  rw [bind_ok (a := ()) rfl]
  simp [Walk.leave]

include hstill in
/-- **A binding never waits**: where its name or its value does, it is dropped. -/
theorem propagates_bind_call (call : Call) (ctx : Context) :
    Propagates env.host (fun _ => False) (fun _ => True) (bind env rec call ctx) := by
  unfold bind
  split
  · refine propagates_bind_of_eq
      (Evaluator.propagates_requireToken (faithful_evaluator hrec hstill henv) _ ctx)
      (fun _ => withholds_bind fun _ => withholds_unbound call ctx) fun key _ hw => ?_
    cases key with
    | ok key =>
      refine propagates_bind_of_eq (propagates_visit hrec henv _ ctx)
        (fun _ => withholds_unbound call ctx) fun o _ hw => ?_
      cases hn : o.toNode? _ with
      | none => exact absurd (Outcome.toNode?_eq_none.mp hn) hw
      | some value =>
        exact propagates_silent_bind (silent_remarkAt _ _ _) fun _ => propagates_pure trivial id
    | error o =>
      cases o with
      | pending => exact absurd rfl hw
      | value n => exact propagates_pure trivial id
      | empty => exact propagates_pure trivial id
      | splice items => exact propagates_pure trivial id
  · exact propagates_silent_bind (silent_report _ _) fun _ => propagates_pure trivial id

/-! ### Functions -/

include hstill in
theorem propagates_callFunction {function : Function} (hf : function.Faithful) (call : Call)
    (ctx : Context) :
    PropagatesOutcome env.host (Registry.isKnown env.registry)
      (callFunction env rec function call ctx) := by
  have hreduce : ∀ c, PropagatesOutcome env.host (Registry.isKnown env.registry)
      (function.reduce (evaluator env rec) c ctx) := fun c =>
    hf _ (faithful_evaluator hrec hstill henv) c ctx
  unfold callFunction
  simp only [henv.1, if_true, Bool.not_true, Bool.and_false, Bool.false_eq_true, if_false]
  refine propagates_ite _ (hreduce call) ?_
  refine propagates_bind_of_eq (propagates_reduceCallParams hrec henv call ctx)
    (fun _ => withholds_pure trivial rfl) fun r _ hw => ?_
  cases r with
  | none => exact absurd rfl hw
  | some processed => exact propagates_map (hreduce processed) fun _ ho => ⟨ho, Iff.rfl⟩

include hstill in
theorem propagates_callNamed (call : Call) (data : Option Node) (ctx : Context)
    (hc : call.function ∉ constructs) :
    PropagatesOutcome env.host (Registry.isKnown env.registry)
      (callNamed env rec call data ctx) := by
  unfold callNamed
  cases hget : Registry.get? env.registry call.function with
  | none =>
    have hf : Registry.isKnown env.registry call.function = false :=
      Registry.not_isKnown_iff.mpr ⟨hc, Registry.get?_eq_none_iff.mp hget⟩
    exact propagates_silent_bind (silent_remarkAt _ _ _) fun _ =>
      propagates_keepCall hrec henv call data ctx hf
  | some function =>
    obtain ⟨e, he, rfl⟩ := Registry.mem_of_get? hget
    -- Data after a call that waits is reduced all the same, and then thrown away.
    refine propagates_bind_of_eq (propagates_callFunction hrec hstill henv (henv.2 e he) call ctx)
      (fun _ => ?_) fun o ho hw => ?_
    · split
      · exact withholds_bind fun _ => withholds_withTrailing data ctx
      · exact withholds_withTrailing data ctx
    · refine propagates_ite _ (propagates_silent_bind (silent_remarkAt _ _ _) fun _ => ?_) ?_
      · exact propagates_withTrailing hrec henv data ctx ho hw
      · exact propagates_withTrailing hrec henv data ctx ho hw

/-! ### Conditions -/

include hstill in
theorem propagates_conditional (call : Call) (data : Option Node) (ctx : Context) :
    PropagatesOutcome env.host (Registry.isKnown env.registry)
      (conditional env rec call data ctx) := by
  unfold conditional
  split
  · refine propagates_bind_of_eq
      (Evaluator.propagates_requireToken (faithful_evaluator hrec hstill henv) _ ctx)
      (fun _ => ?_) fun condition ho hw => ?_
    · simp only [henv.1, if_true]
      exact withholds_pure trivial rfl
    · cases condition with
      | error o =>
        cases o with
        | pending => exact absurd rfl hw
        | value n => exact propagates_value ho
        | empty => exact propagates_pure trivial (by simp)
        | splice items => exact propagates_pure ho (by simp)
      | ok condition =>
        refine propagates_ite _ ?_ (propagates_pure trivial (by simp))
        cases data with
        | some data => exact propagates_visit hrec henv data ctx
        | none =>
          exact propagates_silent_bind (silent_report _ _) fun _ =>
            propagates_pure trivial (by simp)
  · exact propagates_reported _ _ (Node.inert_token _)

/-! ### Sequences -/

theorem propagates_plainElement (ctx : Context) (node : Node) :
    PropagatesElement env.host (Registry.isKnown env.registry)
      (plainElement env rec ctx node) := by
  refine propagates_bind_of_eq (propagates_visit hrec henv node ctx) (fun _ => ?_) fun o ho hw => ?_
  · rw [orKept_eq henv]
    exact withholds_pure (by simp [Outcome.toItems?]) rfl
  · rw [orKept_eq henv]
    exact propagates_pure (fun ns hns => ho.toItems hns)
      fun h => hw (Outcome.toItems?_eq_none.mp h)

include hstill in
/-- An element of a sequence waits with any of the nodes it is read as. -/
theorem propagates_element (ctx : Context) (node : Node) :
    PropagatesElement env.host (Registry.isKnown env.registry) (element env rec ctx node) := by
  match node with
  | .call f ps o =>
    rw [element]
    refine propagates_ite _ ?_ (propagates_plainElement hrec henv ctx _)
    exact propagates_map (propagates_bind_call hrec hstill henv _ ctx) fun ctx _ =>
      ⟨by simp, by simp⟩
  | .statement f ps o data =>
    have hdata := fun ctx => propagates_element ctx data
    rw [element]
    refine propagates_ite _ ?_ (propagates_ite (takesNoData env f = true)
      (propagates_ite _ (propagates_silent_bind (silent_remarkAt _ _ _) fun _ => ?_) ?_)
      (propagates_plainElement hrec henv ctx _))
    · exact propagates_bind (propagates_bind_call hrec hstill henv _ ctx) (fun _ _ h => h.elim)
        fun ctx _ _ => hdata ctx
    all_goals
      refine propagates_bind_of_eq (hrec env henv _ ctx) (fun _ => ?_) fun o ho hw => ?_
      · rw [orKept_eq henv]
        exact withholds_pure (by simp) rfl
      · -- Nothing is kept in consumption, so the outcome is used as it is.
        rw [orKept_eq henv, Walk.pure_bind]
        cases hi : o.toItems? with
        | none => exact absurd (Outcome.toItems?_eq_none.mp hi) hw
        | some items =>
          refine propagates_map (hdata ctx) fun r hr => ⟨fun ns hns n hn => ?_, ?_⟩
          · obtain ⟨more, hmore, rfl⟩ := Option.map_eq_some_iff.mp hns
            rcases List.mem_append.mp hn with hn | hn
            · exact ho.toItems hi n hn
            · exact hr more hmore n hn
          · exact Option.map_eq_none_iff
  | .token t => exact propagates_plainElement hrec henv ctx _
  | .block es o => exact propagates_plainElement hrec henv ctx _
  | .array is o => exact propagates_plainElement hrec henv ctx _

include hstill in
theorem propagates_elements (ctx : Context) (nodes : List Node) :
    PropagatesNodes env.host (Registry.isKnown env.registry) (elements env rec ctx nodes) := by
  induction nodes generalizing ctx with
  | nil => exact propagates_nodes (by simp)
  | cons n ns ih =>
    refine propagates_bind (propagates_element hrec hstill henv ctx n) (fun r _ hw => ?_)
      fun r hr hw => ?_
    · obtain ⟨items, ctx⟩ := r
      obtain rfl : items = none := hw
      exact withholds_pure (by simp) rfl
    · obtain ⟨items, ctx⟩ := r
      cases items with
      | none => exact absurd rfl hw
      | some items => exact propagates_append (hr items rfl) (ih ctx)

theorem propagates_entries (ctx : Context) (es : List (Token × Node)) :
    Propagates env.host (· = none)
      (fun r => ∀ fs, r = some fs → ∀ e ∈ fs, e.2.Inert (Registry.isKnown env.registry))
      (entries env rec ctx es) := by
  induction es with
  | nil => exact propagates_pure (by simp) (by simp)
  | cons e es ih =>
    obtain ⟨k, n⟩ := e
    have hmore : ∀ m : Node, m.Inert (Registry.isKnown env.registry) →
        Propagates env.host (· = none)
          (fun r => ∀ fs, r = some fs → ∀ e ∈ fs, e.2.Inert (Registry.isKnown env.registry))
          (entries env rec ctx es >>= fun r => pure (r.map ((k, m) :: ·))) := by
      intro m hm
      refine propagates_map ih fun r hr => ⟨fun fs hfs => ?_, Option.map_eq_none_iff⟩
      obtain ⟨more, rfl, rfl⟩ := Option.map_eq_some_iff.mp hfs
      exact List.forall_mem_cons.mpr ⟨hm, hr more rfl⟩
    refine propagates_bind_of_eq (propagates_visit hrec henv n ctx) (fun _ => ?_) fun o ho hw => ?_
    · rw [orKept_eq henv]
      exact withholds_pure (by simp) rfl
    · rw [orKept_eq henv, Walk.pure_bind]
      cases o with
      | pending => exact absurd rfl hw
      | empty => exact ih
      | value m => exact hmore m ho
      | splice items => exact hmore _ (Node.inert_array.mpr ho)

/-! ### Includes -/

omit hrec henv in
theorem propagates_notIncluded (call : Call) (problem : Problem) :
    PropagatesOutcome env.host (Registry.isKnown env.registry) (notIncluded call problem) :=
  propagates_reported _ _ (Node.inert_token _)

theorem propagates_overrides (call : Call) (ctx : Context) (params : List Node) :
    PropagatesAnswer env.host (Registry.isKnown env.registry) (fun _ => True)
      (overrides env rec call ctx params) := by
  have hwrong : ∀ param found, PropagatesAnswer env.host (Registry.isKnown env.registry)
      (fun _ : List (Token × Node) => True)
      (do return Except.error (← overrides.wrong call param found)) := fun param found =>
    propagates_error (propagates_reported _ _ (Node.inert_token _))
  cases params with
  | nil => exact propagates_ok trivial
  | cons param others =>
    refine propagates_bind_of_eq (propagates_visit hrec henv param ctx) (fun _ => ?_)
      fun o ho hw => ?_
    · simp only [henv.1, if_true]
      exact withholds_pure trivial rfl
    · cases o with
      | pending => exact absurd rfl hw
      | empty => exact hwrong param .nothing
      | splice items => exact hwrong param .array
      | value n =>
        cases n with
        | block es o => exact propagates_ok trivial
        | token t => exact propagates_ite _ (propagates_ok trivial) (hwrong param _)
        | call f ps o => exact propagates_ite _ (propagates_ok trivial) (hwrong param _)
        | statement f ps o d => exact propagates_ite _ (propagates_ok trivial) (hwrong param _)
        | array is o => exact propagates_ite _ (propagates_ok trivial) (hwrong param _)

include hstill in
theorem propagates_includeText (call : Call) (file text : String) (ctx : Context) :
    PropagatesOutcome env.host (Registry.isKnown env.registry)
      (includeText env rec call file text ctx) := by
  -- One more file changes neither the pass nor the functions.
  have hwithin : (env.within file).Faithful := henv
  have helements : ∀ items, PropagatesNodes env.host (Registry.isKnown env.registry)
      (elements (env.within file) rec ctx items) := fun items =>
    propagates_elements hrec hstill hwithin ctx items
  refine propagates_silent_bind (silent_remarkAt _ _ _) fun _ =>
    propagates_silent_bind (silent_reportAll _) fun _ =>
      propagates_bind_of_eq (helements _) (fun _ => withholds_pure trivial rfl)
        fun items hi hw => ?_
  cases items with
  | none => exact absurd rfl hw
  | some items =>
    obtain ⟨hinert, hpending⟩ := inert_spliced (hi items rfl)
    exact propagates_pure hinert hpending

include hstill in
theorem propagates_includeFile (call : Call) (file : String) (ctx : Context) :
    PropagatesOutcome env.host (Registry.isKnown env.registry)
      (includeFile env rec call file ctx) := by
  refine propagates_ite _ (propagates_notIncluded call _)
    (propagates_ite _ (propagates_notIncluded call _)
      (propagates_silent_bind (silent_askFile file) fun text => ?_))
  cases text with
  | none => exact propagates_notIncluded call _
  | some text => exact propagates_includeText hrec hstill henv call file text ctx

include hstill in
theorem propagates_includeCall (call : Call) (ctx : Context) :
    PropagatesOutcome env.host (Registry.isKnown env.registry) (includeCall env rec call ctx) := by
  unfold includeCall
  dsimp only
  split
  · exact propagates_notIncluded call _
  · refine propagates_ite _ (propagates_notIncluded call _) ?_
    refine propagates_bind_of_eq
      (Evaluator.propagates_requireToken (faithful_evaluator hrec hstill henv) _ ctx)
      (fun _ => ?_) fun path ho hw => ?_
    · simp only [henv.1, if_true]
      exact withholds_pure trivial rfl
    · cases path with
      | error o =>
        cases o with
        | pending => exact absurd rfl hw
        | value n => exact propagates_value ho
        | empty => exact propagates_pure trivial (by simp)
        | splice items => exact propagates_pure ho (by simp)
      | ok path =>
        refine propagates_bind_of_eq (propagates_overrides hrec henv call ctx _)
          (fun _ => withholds_pure trivial rfl) fun bindings hb hw => ?_
        cases bindings with
        | error outcome => exact propagates_pure hb fun h => hw (by rw [h])
        | ok bindings => exact propagates_includeFile hrec hstill henv call _ _

/-! ### One node -/

include hstill in
theorem propagates_call (c : Call) (data : Option Node) (ctx : Context) :
    PropagatesOutcome env.host (Registry.isKnown env.registry) (call env rec c data ctx) := by
  unfold call
  split
  next =>
    exact propagates_bind_of_eq (propagates_includeCall hrec hstill henv c ctx)
      (fun _ => withholds_withTrailing data ctx) fun o ho hw =>
        propagates_withTrailing hrec henv data ctx ho hw
  next hinclude =>
    split
    next => exact propagates_conditional hrec hstill henv c data ctx
    next hif =>
      split
      next =>
        refine propagates_bind (propagates_bind_call hrec hstill henv c ctx) (fun _ _ h => h.elim)
          fun ctx _ _ => ?_
        cases data with
        | none => exact propagates_pure trivial (by simp)
        | some data => exact propagates_visit hrec henv data ctx
      next hset =>
        exact propagates_callNamed hrec hstill henv c data ctx
          (by simp [constructs, hinclude, hif, hset])

end

/-- **One step propagates what is not ready**, if the steps within do. -/
theorem propagates_step {limit : Nat} {rec : Reducer} (hrec : FaithfulReducer rec)
    (hstill : StillReducer limit rec) : FaithfulReducer (step rec) := by
  intro env henv node ctx
  cases node with
  | token t => exact propagates_value (Node.inert_token _)
  | array is o =>
    refine propagates_bind_of_eq (propagates_elements hrec hstill henv ctx is)
      (fun _ => withholds_pure trivial rfl) fun items hi hw => ?_
    cases items with
    | none => exact absurd rfl hw
    | some items => exact propagates_value (Node.inert_array.mpr (hi items rfl))
  | block es o =>
    refine propagates_bind_of_eq (propagates_entries hrec henv ctx es)
      (fun _ => withholds_pure trivial rfl) fun fs hfs hw => ?_
    cases fs with
    | none => exact absurd rfl hw
    | some fs => exact propagates_value (Node.inert_block.mpr (hfs fs rfl))
  | call f ps o => exact propagates_call hrec hstill henv ⟨f, ps, o⟩ none ctx
  | statement f ps o data => exact propagates_call hrec hstill henv ⟨f, ps, o⟩ (some data) ctx

theorem propagates_inContext (limit : Nat) : FaithfulReducer (inContext limit) := by
  induction limit with
  | zero => exact fun _ _ _ _ => propagates_halt _
  | succ limit ih => exact propagates_step ih (still_inContext limit)

/-- **Consumption propagates what is not ready**: in a run that comes to an answer a condition
without an answer was asked for exactly if the outcome is pending or a binding was dropped. What
is delivered holds no call of anything known. -/
theorem propagates_reduce {env : Surroundings} (henv : env.Faithful) (node : Node)
    (ctx : Context) :
    PropagatesOutcome env.host (Registry.isKnown env.registry) (reduce env node ctx) :=
  propagates_visit (propagates_inContext env.limit) henv node ctx

end Reduce

end ContentLang
