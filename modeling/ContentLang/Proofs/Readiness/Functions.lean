import ContentLang.Proofs.Meaning.Walks
import ContentLang.Proofs.Readiness.Propagation

/-!
# The functions of the language propagate what is not ready

A function that is given a faithful way to reduce nodes (`ContentLang.Evaluator.Faithful`)
propagates what is not ready, and gives inert nodes. That holds of every function of the
language (`ContentLang.Function.faithful_builtin`). `FilterByCondition` is the one that asks
the host, and it is pending as soon as a condition has no answer.

Inert nodes matter, since a call of something known that is left over would be taken for
pending without any condition, and `Remove` passes over a member that is pending.
-/

namespace ContentLang

open Walk

/-- **Whether an evaluator's way to reduce nodes is faithful**: it propagates what is not
ready, gives inert nodes, and leaves those as they are. -/
structure Evaluator.Faithful (ev : Evaluator) : Prop where
  reduce : ∀ node ctx, PropagatesOutcome ev.host ev.isKnown (ev.reduce node ctx)
  still : ∀ node ctx, node.Inert ev.isKnown → Still False (Reduce.Says node) (ev.reduce node ctx)

/-- **Whether a function propagates what is not ready**, beside every evaluator that does. -/
def Function.Faithful (f : Function) : Prop :=
  ∀ ev : Evaluator, ev.Faithful → ∀ call ctx,
    PropagatesOutcome ev.host ev.isKnown (f.reduce ev call ctx)

namespace Evaluator

variable {ev : Evaluator}

/-- An inert node is not left for later. -/
theorem isDeferred_of_inert {n : Node} (h : n.Inert ev.isKnown) : ev.isDeferred n = false := by
  unfold isDeferred
  split
  next f hf => exact h.function? hf
  next => rfl

theorem propagates_wrongArity (call : Call) (expected : Arity) :
    PropagatesOutcome ev.host ev.isKnown (wrongArity call expected) :=
  propagates_reported _ _ (Node.inert_token _)

theorem propagates_invalidArgument (call : Call) (node : Node) (fault : Fault) :
    PropagatesOutcome ev.host ev.isKnown (invalidArgument call node fault) :=
  propagates_reported _ _ (Node.inert_token _)

theorem propagates_withArity (call : Call) (expected : Arity) {f : Walk Outcome}
    (h : PropagatesOutcome ev.host ev.isKnown f) :
    PropagatesOutcome ev.host ev.isKnown (withArity call expected f) :=
  propagates_ite (expected.accepts call.params.length = true) h
    (propagates_wrongArity call expected)

theorem propagates_withFirst (call : Call) (expected : Arity)
    {f : Node → List Node → Walk Outcome}
    (h : ∀ n ns, PropagatesOutcome ev.host ev.isKnown (f n ns)) :
    PropagatesOutcome ev.host ev.isKnown (withFirst call expected f) := by
  unfold withFirst
  cases call.params with
  | nil => exact propagates_wrongArity call expected
  | cons n ns => exact propagates_ite _ (h n ns) (propagates_wrongArity call expected)

/-- An evaluator's sample never meets what is not ready. -/
theorem silent_sample {α : Type} (seed : Option UInt64) (isStatic : Bool)
    (f : Generator → Option (α × Generator)) : Silent (ev.sample seed isStatic f) := by
  cases seed with
  | none => exact silent_draw f
  | some seed =>
    refine silent_bind (silent_askRandom seed isStatic) fun g => ?_
    cases f g with
    | some a => exact silent_pure _
    | none => exact silent_halt _

section

variable (hev : ev.Faithful)
include hev

/-- A token that is required. No call that is left over is of anything known, so that none is
taken for pending. -/
theorem propagates_requireToken (node : Node) (ctx : Context) :
    PropagatesAnswer ev.host ev.isKnown (fun _ => True) (ev.requireToken node ctx) := by
  have hexpected : ∀ found, PropagatesAnswer ev.host ev.isKnown (fun _ : Token => True)
      (expectedValue node found) := fun found =>
    propagates_silent_bind (silent_report _ _) fun _ =>
      propagates_pure (Node.inert_token _) (by simp [Outcome.error])
  have hunknown : ∀ f, ev.isKnown f = false →
      PropagatesAnswer ev.host ev.isKnown (fun _ : Token => True)
        (if ev.isKnown f then return .error .pending
        else do
          Walk.report node.origin (.unknownFunction f (closestName f ev.knownNames))
          return .error (.error node.origin)) := by
    intro f hf
    rw [hf]
    exact propagates_silent_bind (silent_report _ _) fun _ =>
      propagates_pure (Node.inert_token _) (by simp [Outcome.error])
  refine propagates_bind_of_eq (hev.reduce node ctx) (fun _ => withholds_pure trivial rfl)
    fun o ho hw => ?_
  cases o with
  | pending => exact absurd rfl hw
  | empty => exact hexpected .nothing
  | splice items => exact hexpected .array
  | value n =>
    cases n with
    | token t => exact propagates_ok trivial
    | block es o => exact hexpected _
    | array is o => exact hexpected _
    | call f ps o => exact hunknown f (Node.inert_call.mp ho).1
    | statement f ps o d => exact hunknown f (Node.inert_statement.mp ho).1

theorem propagates_requireTokens (ctx : Context) (nodes : List Node) :
    PropagatesAnswer ev.host ev.isKnown (fun _ => True) (ev.requireTokens ctx nodes) := by
  induction nodes with
  | nil => exact propagates_ok trivial
  | cons n ns ih =>
    exact propagates_also (propagates_requireToken hev n ctx) fun t _ =>
      propagates_also ih fun ts _ => propagates_ok trivial

theorem propagates_members (call : Call) (node : Node) (ctx : Context) :
    PropagatesAnswer ev.host ev.isKnown (fun _ => True) (ev.members call node ctx) := by
  cases node
  case array items o => exact propagates_ok trivial
  all_goals
    refine propagates_bind_of_eq (hev.reduce _ ctx) (fun _ => withholds_pure trivial rfl)
      fun o ho hw => ?_
    cases o with
    | pending => exact absurd rfl hw
    | empty => exact propagates_error (propagates_invalidArgument call _ _)
    | splice items => exact propagates_ok trivial
    | value n =>
      cases n
      case array items o => exact propagates_ok trivial
      all_goals
        simp only [isDeferred_of_inert ho]
        exact propagates_error (propagates_invalidArgument call _ _)

/-- The token that an inert node is, if it is one: nothing is asked for. -/
theorem silent_token? {node : Node} (ctx : Context) (hn : node.Inert ev.isKnown) :
    Silent (ev.token? node ctx) := by
  refine silent_bind (hev.still node ctx hn).silent fun o => ?_
  split <;> exact silent_pure _

end

end Evaluator

/-! ### Assets and texts -/

namespace Library

open Evaluator

theorem faithful_assetWith {f : Evaluator → String → Walk String}
    (hf : ∀ ev path, Silent (f ev path)) : (assetWith f).Faithful := by
  intro ev hev call ctx
  refine propagates_withFirst _ _ fun path _ =>
    propagates_given (propagates_requireToken hev path ctx) fun path _ => ?_
  exact propagates_silent_bind (hf ev _) fun _ => propagates_value (Node.inert_token _)

theorem faithful_concatenate : concatenate.Faithful := by
  intro ev hev call ctx
  exact propagates_given (propagates_requireTokens hev ctx call.params) fun ts _ =>
    propagates_value (Node.inert_token _)

theorem propagates_collectAll {host : Host} {known : String → Bool}
    {f : Node → Walk (Except Outcome (List String))} (nodes : List Node)
    (h : ∀ n, PropagatesAnswer host known (fun _ => True) (f n)) :
    PropagatesAnswer host known (fun _ => True) (collectAll f nodes) := by
  induction nodes with
  | nil => exact propagates_ok trivial
  | cons n ns ih =>
    exact propagates_also (h n) fun xs _ => propagates_also ih fun ys _ => propagates_ok trivial

theorem propagates_collect {ev : Evaluator} (hev : ev.Faithful) (ctx : Context) (fuel : Nat)
    (node : Node) :
    PropagatesAnswer ev.host ev.isKnown (fun _ => True) (collect ev ctx fuel node) := by
  induction fuel generalizing node with
  | zero => exact propagates_halt _
  | succ fuel ih =>
    cases node
    case array items o => exact propagates_collectAll items ih
    all_goals
      refine propagates_bind_of_eq (hev.reduce _ ctx) (fun _ => withholds_pure trivial rfl)
        fun o ho hw => ?_
      cases o with
      | pending => exact absurd rfl hw
      | empty => exact propagates_ok trivial
      | splice items => exact propagates_collectAll items ih
      | value n =>
        cases n
        case array items o => exact propagates_collectAll items ih
        case token t => exact propagates_ok trivial
        all_goals
          exact propagates_also (propagates_requireToken hev _ ctx) fun t _ =>
            propagates_ok trivial

theorem faithful_join : join.Faithful := by
  intro ev hev call ctx
  refine propagates_withFirst _ _ fun separator items =>
    propagates_given (propagates_requireToken hev separator ctx) fun separator _ => ?_
  exact propagates_given (propagates_collectAll items (propagates_collect hev ctx ev.limit))
    fun texts _ => propagates_value (Node.inert_token _)

/-! ### Collections -/

theorem propagates_mergeEntries {host : Host} {known : String → Bool} (location : Location)
    (function : String) {m es : Entries Token Node} (hm : ∀ e ∈ m, e.2.Inert known)
    (hes : ∀ e ∈ es, e.2.Inert known) :
    Propagates host (fun _ => False) (fun r => ∀ e ∈ r, e.2.Inert known)
      (mergeEntries location function m es) := by
  induction es generalizing m with
  | nil => exact propagates_pure hm id
  | cons e es ih =>
    obtain ⟨k, n⟩ := e
    obtain ⟨hn, hes⟩ := List.forall_mem_cons.mp hes
    have hrest := ih (Entries.forall_insert (k := k) hm hn) hes
    exact propagates_ite (Entries.contains m k = true)
      (propagates_silent_bind (silent_remarkAt _ _ _) fun _ => hrest) hrest

/-- Whether what has been combined is inert. -/
def Combined.Inert (known : String → Bool) : Combined → Prop
  | .nothing => True
  | .items ns => ∀ n ∈ ns, n.Inert known
  | .entries es => ∀ e ∈ es, e.2.Inert known

theorem propagates_combineNode {ev : Evaluator} (call : Call) (param : Node) {acc : Combined}
    {node : Node} (hacc : acc.Inert ev.isKnown) (hn : node.Inert ev.isKnown) :
    PropagatesAnswer ev.host ev.isKnown (Combined.Inert ev.isKnown)
      (combineNode ev call param acc node) := by
  unfold combineNode
  split
  · exact propagates_ok (Node.inert_array.mp hn)
  · refine propagates_ok fun n hmem => ?_
    rcases List.mem_append.mp hmem with hmem | hmem
    · exact hacc n hmem
    · exact Node.inert_array.mp hn n hmem
  · exact propagates_map
      (propagates_mergeEntries _ _ (m := []) (by simp) (Node.inert_block.mp hn))
      fun _ h => ⟨h, by simp⟩
  · exact propagates_map (propagates_mergeEntries _ _ hacc (Node.inert_block.mp hn))
      fun _ h => ⟨h, by simp⟩
  · exact propagates_error (propagates_invalidArgument call _ _)
  · exact propagates_error (propagates_invalidArgument call _ _)
  · rw [isDeferred_of_inert hn]
    exact propagates_error (propagates_invalidArgument call _ _)

theorem propagates_combineAll {ev : Evaluator} (hev : ev.Faithful) (call : Call) (ctx : Context)
    {acc : Combined} (params : List Node) (hacc : acc.Inert ev.isKnown) :
    PropagatesAnswer ev.host ev.isKnown (Combined.Inert ev.isKnown)
      (combineAll ev call ctx acc params) := by
  induction params generalizing acc with
  | nil => exact propagates_ok hacc
  | cons param params ih =>
    refine propagates_bind_of_eq (hev.reduce param ctx) (fun _ => withholds_pure trivial rfl)
      fun o ho hw => ?_
    cases o with
    | pending => exact absurd rfl hw
    | empty => exact ih hacc
    | splice items =>
      exact propagates_also (propagates_combineNode call param hacc (Node.inert_array.mpr ho))
        fun acc hacc => ih hacc
    | value n =>
      exact propagates_ite (n.isNull = true) (ih hacc)
        (propagates_also (propagates_combineNode call param hacc ho) fun acc hacc => ih hacc)

theorem faithful_combine : combine.Faithful := by
  intro ev hev call ctx
  refine propagates_given (propagates_combineAll hev call ctx call.params trivial)
    fun acc hacc => ?_
  cases acc with
  | nothing => exact propagates_pure trivial (by simp)
  | items ns => exact propagates_value (Node.inert_array.mpr hacc)
  | entries es => exact propagates_value (Node.inert_block.mpr hacc)

/-- Elements are taken out of an inert array in silence, and none is added. -/
theorem propagates_withoutElements {ev : Evaluator} (hev : ev.Faithful) (ctx : Context)
    (removed : List Token) {nodes : List Node} (hns : ∀ n ∈ nodes, n.Inert ev.isKnown) :
    Propagates ev.host (fun _ => False) (fun r => ∀ n ∈ r, n.Inert ev.isKnown)
      (withoutElements ev ctx removed nodes) := by
  induction nodes with
  | nil => exact propagates_pure (by simp) id
  | cons n ns ih =>
    obtain ⟨hn, hns⟩ := List.forall_mem_cons.mp hns
    -- A member that is pending would be passed over; an inert one never is.
    refine propagates_silent_bind (silent_token? hev ctx hn) fun t =>
      propagates_bind (ih hns) (fun _ _ h => h.elim) fun rest hrest _ => ?_
    have hall : ∀ m ∈ n :: rest, m.Inert ev.isKnown := List.forall_mem_cons.mpr ⟨hn, hrest⟩
    cases t with
    | none => exact propagates_pure hall id
    | some t =>
      refine propagates_pure ?_ id
      split
      · exact hrest
      · exact hall

theorem faithful_remove : remove.Faithful := by
  intro ev hev call ctx
  refine propagates_withFirst _ _ fun collection tokens =>
    propagates_given (propagates_requireTokens hev ctx tokens) fun removed _ =>
      propagates_bind_of_eq (hev.reduce collection ctx) (fun _ => withholds_pure trivial rfl)
        fun o ho hw => ?_
  cases o with
  | pending => exact absurd rfl hw
  | empty => exact propagates_invalidArgument call _ _
  | splice items => exact propagates_invalidArgument call _ _
  | value n =>
    have hother : PropagatesOutcome ev.host ev.isKnown
        (if ev.isDeferred n then return .pending
        else invalidArgument call collection (.notACollection n.kind)) := by
      rw [isDeferred_of_inert ho]
      exact propagates_invalidArgument call _ _
    cases n with
    | array is o =>
      exact propagates_map (propagates_withoutElements hev ctx removed (Node.inert_array.mp ho))
        fun _ h => ⟨Node.inert_array.mpr h, by simp⟩
    | block es o =>
      exact propagates_value (Node.inert_block.mpr fun e he =>
        Node.inert_block.mp ho e (mem_of_withoutKeys he))
    | token t => exact hother
    | call f ps o => exact hother
    | statement f ps o d => exact hother

/-! ### Records -/

theorem propagates_recordEntries {ev : Evaluator} (hev : ev.Faithful) (call : Call)
    (ctx : Context) (component : Component) (fields : List (String × Option String))
    (params : List Node) :
    PropagatesAnswer ev.host ev.isKnown (fun es => ∀ e ∈ es, e.2.Inert ev.isKnown)
      (recordEntries ev call ctx component fields params) := by
  induction fields generalizing params with
  | nil => exact propagates_ok (by simp)
  | cons field fields ih =>
    obtain ⟨key, fallback⟩ := field
    cases params with
    | nil =>
      cases fallback with
      | none => exact propagates_pure (Node.inert_token _) (by simp [Outcome.error])
      | some fallback =>
        exact propagates_also (ih []) fun es hes =>
          propagates_ok (List.forall_mem_cons.mpr ⟨Node.inert_token _, hes⟩)
    | cons param params =>
      refine propagates_also (propagates_requireToken hev param ctx) fun t _ => ?_
      cases component.fault? t.value with
      | none =>
        exact propagates_also (ih params) fun es hes =>
          propagates_ok (List.forall_mem_cons.mpr ⟨Node.inert_token _, hes⟩)
      | some fault => exact propagates_error (propagates_invalidArgument call _ _)

theorem faithful_record (k : RecordKind) : (record k).Faithful := by
  intro ev hev call ctx
  exact propagates_withArity _ _
    (propagates_given (propagates_recordEntries hev call ctx k.component k.fields call.params)
      fun es hes => propagates_value (Node.inert_block.mpr hes))

/-! ### Bindings -/

theorem faithful_readBinding : readBinding.Faithful := by
  intro ev hev call ctx
  refine propagates_withFirst _ _ fun name others =>
    propagates_given (propagates_requireToken hev name ctx) fun name _ => ?_
  cases Context.get? ctx name with
  | some value => exact hev.reduce _ ctx
  | none =>
    cases others with
    | nil => exact propagates_reported _ _ (Node.inert_token _)
    | cons fallback others => exact hev.reduce fallback ctx

/-! ### Choices -/

theorem propagates_withMembers {ev : Evaluator} (hev : ev.Faithful) (call : Call) (ctx : Context)
    {f : Node → List Node → ChoiceOptions → Walk Outcome}
    (h : ∀ n ns o, PropagatesOutcome ev.host ev.isKnown (f n ns o)) :
    PropagatesOutcome ev.host ev.isKnown (withMembers ev call ctx f) := by
  refine propagates_withFirst _ _ fun list options =>
    propagates_given (propagates_members hev call list ctx) fun ms _ =>
      propagates_given (propagates_requireTokens hev ctx options) fun tokens _ => ?_
  cases ms with
  | nil => exact propagates_invalidArgument call _ _
  | cons m ms => exact h _ _ _

theorem faithful_choose : choose.Faithful := by
  intro ev hev call ctx
  refine propagates_withMembers hev call ctx fun list members options =>
    propagates_silent_bind (silent_sample _ _ _) fun i => ?_
  cases members[i]? with
  | none => exact propagates_value (Node.inert_token _)
  | some member => exact hev.reduce member ctx

theorem silent_weightOf (t : Token) : Silent (weightOf t) := by
  unfold weightOf
  split
  · exact silent_pure _
  · exact silent_bind (silent_remarkAt _ _ _) fun _ => silent_pure _

theorem propagates_weights {ev : Evaluator} (hev : ev.Faithful) (ctx : Context)
    (nodes : List Node) :
    PropagatesAnswer ev.host ev.isKnown (fun _ => True) (weights ev ctx nodes) := by
  induction nodes with
  | nil => exact propagates_ok trivial
  | cons n ns ih =>
    have hmore : ∀ x : Float, PropagatesAnswer ev.host ev.isKnown (fun _ : List Float => True)
        ((weights ev ctx ns).also fun xs => return .ok (x :: xs)) := fun x =>
      propagates_also ih fun xs _ => propagates_ok trivial
    unfold weights
    cases memberEntry weightKey n with
    | none => exact hmore 1.0
    | some node =>
      refine propagates_bind_of_eq (propagates_requireToken hev node ctx)
        (fun _ => withholds_pure trivial rfl) fun t _ hw => ?_
      cases t with
      | ok t => exact propagates_silent_bind (silent_weightOf t) hmore
      | error o =>
        cases o with
        | pending => exact absurd rfl hw
        | value n => exact hmore 1.0
        | empty => exact hmore 1.0
        | splice items => exact hmore 1.0

theorem faithful_chooseWeighted : chooseWeighted.Faithful := by
  intro ev hev call ctx
  simp only [chooseWeighted, Function.forgetful]
  refine propagates_withMembers hev call ctx fun list members options =>
    propagates_given (propagates_weights hev ctx members) fun xs _ => ?_
  cases xs with
  | nil => exact propagates_invalidArgument call _ _
  | cons x xs =>
    refine propagates_ite _ (propagates_invalidArgument call _ _)
      (propagates_ite _ (propagates_halt _) ?_)
    refine propagates_silent_bind (silent_sample _ _ _) fun i => ?_
    cases members[i]? with
    | none => exact propagates_value (Node.inert_token _)
    | some member => exact hev.reduce _ ctx

/-! ### Filters -/

/-- **The one place where a condition is asked for**: without an answer the member waits. -/
theorem propagates_admits {ev : Evaluator} (hev : ev.Faithful) (ctx : Context) (member : Node) :
    PropagatesAnswer ev.host ev.isKnown (fun _ => True) (admits ev ctx member) := by
  unfold admits
  cases memberEntry conditionKey member with
  | none => exact propagates_ok trivial
  | some node =>
    refine propagates_also (propagates_requireToken hev node ctx) fun condition _ =>
      propagates_bind_of_eq (propagates_askCondition condition.value)
        (fun _ => withholds_pure trivial rfl) fun answer _ hw => ?_
    cases answer with
    | none => exact absurd rfl hw
    | some answer => exact propagates_ok trivial

theorem propagates_keepMembers {ev : Evaluator} (hev : ev.Faithful) (ctx : Context)
    (flatten : Bool) (nodes : List Node) :
    PropagatesAnswer ev.host ev.isKnown (fun r => ∀ n ∈ r.1, n.Inert ev.isKnown)
      (keepMembers ev ctx flatten nodes) := by
  induction nodes with
  | nil => exact propagates_ok (by simp)
  | cons n ns ih =>
    refine propagates_also (propagates_admits hev ctx n) fun answer _ => propagates_ite _ ?_ ?_
    · exact propagates_also ih fun r hr => propagates_ok hr
    · refine propagates_bind_of_eq (hev.reduce _ ctx) (fun _ => withholds_pure trivial rfl)
        fun o ho hw => ?_
      cases hitems : o.toItems? with
      | none => exact absurd (Outcome.toItems?_eq_none.mp hitems) hw
      | some items =>
        refine propagates_also ih fun r hr => propagates_ok fun m hm => ?_
        rcases List.mem_append.mp hm with hm | hm
        · exact ho.toItems hitems m hm
        · exact hr m hm

theorem faithful_filter : filter.Faithful := by
  intro ev hev call ctx
  refine propagates_withFirst _ _ fun list options =>
    propagates_given (propagates_members hev call list ctx) fun ms _ =>
      propagates_given (propagates_requireTokens hev ctx options) fun tokens _ =>
        propagates_given (propagates_keepMembers hev ctx _ ms) fun r hr => ?_
  exact propagates_silent_bind (silent_remember _ _ _) fun _ =>
    propagates_value (Node.inert_array.mpr hr)

end Library

/-! ### All functions -/

/-- **The functions of the language propagate what is not ready.** -/
theorem Function.faithful_builtin : ∀ e ∈ Registry.builtin, e.2.Faithful := by
  open Library in
  simp only [Registry.builtin, List.forall_mem_cons]
  exact ⟨faithful_assetWith fun ev path => silent_askAsset path,
    faithful_assetWith fun ev path => silent_pure _, faithful_concatenate, faithful_join,
    faithful_choose, faithful_chooseWeighted, faithful_filter, faithful_combine, faithful_remove,
    faithful_record _, faithful_record _, faithful_record _, faithful_record _,
    faithful_readBinding, by simp⟩

end ContentLang
