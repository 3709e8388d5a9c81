import ContentLang.Proofs.Meaning.Laws
import ContentLang.Proofs.Walk.Meets

/-!
# Functions build their results

What a pure function gives is made of its parameters: a token, one of the parameters, or a
collection that stands where the call does and whose members come from the parameters
(`ContentLang.Function.Builds`). Meanings say what a function gives only up to where it stands;
this says what the origins are, and how deep the result is.

It is stated for two conditions on nodes at once, one on what is reduced and one on the members
of collections, and one on origins (`ContentLang.Node.Layered`).
-/

namespace ContentLang

open Walk

/-- Whether `N` holds of tokens, and exactly of the collections that come from where `P` holds
and have members of which `M` holds. -/
structure Node.Layered (P : Origin → Prop) (M N : Node → Prop) : Prop where
  token : ∀ t, N (.token t)
  array : ∀ {is : List Node} {o : Origin}, N (.array is o) ↔ P o ∧ ∀ i ∈ is, M i
  block : ∀ {es : List (Token × Node)} {o : Origin}, N (.block es o) ↔ P o ∧ ∀ e ∈ es, M e.2

/-- Whether an outcome is a node with `N`, if it is there and not nothing. -/
def Outcome.One (N : Node → Prop) : Outcome → Prop
  | .value n => N n
  | .empty => True
  | .splice _ => False
  | .pending => True

/-- Whether every answer that a walk comes to satisfies a condition. -/
abbrev Walk.Always {α : Type} (Q : α → Prop) (m : Walk α) : Prop := Meets .any False Q m

/-- **Whether a function builds its result** of its parameters, where nothing is bound. Where there
are parameters, tokens are members. -/
def Function.Builds (f : Function) : Prop :=
  ∀ {ev : Evaluator} {P : Origin → Prop} {M N : Node → Prop}, Node.Layered P M N →
    (∀ n, N n → Always (Outcome.One N) (ev.reduce n [])) →
      ∀ call : Call, P call.origin → (∀ p ∈ call.params, N p) →
        (call.params ≠ [] → ∀ t, M (.token t)) → Always (Outcome.One N) (f.reduce ev call [])

/-- What a function has on the way: an outcome that ends it, or what `Q` holds of. -/
def Gathers {α : Type} (N : Node → Prop) (Q : α → Prop) : Except Outcome α → Prop
  | .ok a => Q a
  | .error o => o.One N

section

variable {α β : Type} {P : Origin → Prop} {M N : Node → Prop} {Q : α → Prop} {R : β → Prop}

theorem always_true (m : Walk α) : Always (fun _ => True) m :=
  fun _ _ => ⟨fun h => h.elim, fun _ _ => trivial, fun h => h.elim, fun _ _ => trivial⟩

/-- What comes after a walk of which nothing matters. -/
theorem always_after {m : Walk α} {f : α → Walk β} (hf : ∀ a, Always R (f a)) :
    Always R (m >>= f) :=
  meets_bind (always_true m) fun a _ => hf a

theorem always_given {m : Walk (Except Outcome α)} {f : α → Walk Outcome}
    (hm : Always (Gathers N Q) m) (hf : ∀ a, Q a → Always (Outcome.One N) (f a)) :
    Always (Outcome.One N) (m.given f) := by
  refine meets_bind hm fun r hr => ?_
  cases r with
  | ok a => exact hf a hr
  | error o => exact meets_pure hr

theorem always_also {m : Walk (Except Outcome α)} {f : α → Walk (Except Outcome β)}
    (hm : Always (Gathers N Q) m) (hf : ∀ a, Q a → Always (Gathers N R) (f a)) :
    Always (Gathers N R) (m.also f) := by
  refine meets_bind hm fun r hr => ?_
  cases r with
  | ok a => exact hf a hr
  | error o => exact meets_pure hr

variable (hN : Node.Layered P M N)
include hN

namespace Evaluator

theorem always_wrongArity (call : Call) (expected : Arity) :
    Always (Outcome.One N) (wrongArity call expected) :=
  always_after fun _ => meets_pure (hN.token _)

theorem always_invalidArgument (call : Call) (node : Node) (fault : Fault) :
    Always (Outcome.One N) (invalidArgument call node fault) :=
  always_after fun _ => meets_pure (hN.token _)

theorem always_fault (call : Call) (node : Node) (fault : Fault) :
    Always (Gathers N Q) (do return Except.error (← invalidArgument call node fault)) :=
  meets_map (always_invalidArgument hN call node fault) fun _ h => h

theorem always_withFirst {call : Call} {expected : Arity} {f : Node → List Node → Walk Outcome}
    (hf : ∀ first others, call.params = first :: others →
      Always (Outcome.One N) (f first others)) :
    Always (Outcome.One N) (withFirst call expected f) := by
  unfold withFirst
  split
  next first others hparams =>
    exact meets_ite (fun _ => hf first others hparams) fun _ => always_wrongArity hN call expected
  next => exact always_wrongArity hN call expected

/-- A node that is required to be a token, whatever it is reduced to. -/
theorem always_requireToken (ev : Evaluator) (n : Node) (ctx : Context) :
    Always (Gathers N fun _ : Token => True) (ev.requireToken n ctx) := by
  have hfault : ∀ (origin : Origin) (problem : Problem),
      Always (Gathers N fun _ : Token => True)
        (Walk.report origin problem >>= fun _ => pure (.error (.error n.origin))) :=
    fun origin problem => always_after fun _ => meets_pure (hN.token _)
  refine always_after fun o => ?_
  cases o with
  | pending => exact meets_pure trivial
  | empty => exact hfault _ _
  | splice items => exact hfault _ _
  | value m =>
    cases m with
    | token t => exact meets_pure trivial
    | block es o => exact hfault _ _
    | array is o => exact hfault _ _
    | call f ps o => exact meets_ite (fun _ => meets_pure trivial) fun _ => hfault _ _
    | statement f ps o d => exact meets_ite (fun _ => meets_pure trivial) fun _ => hfault _ _

theorem always_requireTokens (ev : Evaluator) (ns : List Node) (ctx : Context) :
    Always (Gathers N fun _ : List Token => True) (ev.requireTokens ctx ns) := by
  induction ns with
  | nil => exact meets_pure trivial
  | cons n ns ih =>
    exact always_also (always_requireToken hN ev n ctx) fun _ _ =>
      always_also ih fun _ _ => meets_pure trivial

end Evaluator

end

namespace Library

/-! ### Texts -/

theorem builds_assetWith (f : Evaluator → String → Walk String) : (assetWith f).Builds :=
  fun hN _ _ _ _ _ => Evaluator.always_withFirst hN fun path _ _ =>
    always_given (Evaluator.always_requireToken hN _ path []) fun _ _ =>
      always_after fun _ => meets_pure (hN.token _)

theorem builds_concatenate : concatenate.Builds :=
  fun hN _ call _ _ _ =>
    always_given (Evaluator.always_requireTokens hN _ call.params []) fun _ _ =>
      meets_pure (hN.token _)

section

variable {P : Origin → Prop} {M N : Node → Prop} (hN : Node.Layered P M N)
include hN

omit hN in
theorem always_collectAll {f : Node → Walk (Except Outcome (List String))}
    (hf : ∀ n, Always (Gathers N fun _ : List String => True) (f n)) (ns : List Node) :
    Always (Gathers N fun _ : List String => True) (collectAll f ns) := by
  induction ns with
  | nil => exact meets_pure trivial
  | cons n ns ih =>
    exact always_also (hf n) fun _ _ => always_also ih fun _ _ => meets_pure trivial

theorem always_collect (ev : Evaluator) (ctx : Context) (fuel : Nat) (n : Node) :
    Always (Gathers N fun _ : List String => True) (collect ev ctx fuel n) := by
  induction fuel generalizing n with
  | zero => exact meets_halt _ fun h => h
  | succ fuel ih =>
    have hitems := fun is => always_collectAll ih is
    have htoken : Always (Gathers N fun _ : List String => True)
        ((ev.requireToken n ctx).also fun t => pure (.ok [t.value])) :=
      always_also (Evaluator.always_requireToken hN ev n ctx) fun _ _ => meets_pure trivial
    cases n with
    | array is o => exact hitems is
    | _ =>
      refine always_after fun o => ?_
      cases o with
      | empty => exact meets_pure trivial
      | splice items => exact hitems items
      | pending => exact meets_pure trivial
      | value m =>
        cases m with
        | array is o => exact hitems is
        | token t => exact meets_pure trivial
        | _ => exact htoken

end

theorem builds_join : join.Builds :=
  fun hN _ _ _ _ _ => Evaluator.always_withFirst hN fun separator items _ =>
    always_given (Evaluator.always_requireToken hN _ separator []) fun _ _ =>
      always_given (always_collectAll (always_collect hN _ [] _) items) fun _ _ =>
        meets_pure (hN.token _)

/-! ### Collections -/

section

variable {P : Origin → Prop} {M N : Node → Prop} (hN : Node.Layered P M N)
include hN

omit hN in
theorem always_mergeEntries (location : Location) (function : String) {m es : Entries Token Node}
    (hm : ∀ e ∈ m, M e.2) (hes : ∀ e ∈ es, M e.2) :
    Always (fun m' => ∀ e ∈ m', M e.2) (mergeEntries location function m es) := by
  induction es generalizing m with
  | nil => exact meets_pure hm
  | cons e es ih =>
    obtain ⟨he, hes⟩ := List.forall_mem_cons.mp hes
    have hrest := ih (Entries.forall_insert (k := e.1) hm he) hes
    unfold mergeEntries
    split
    · exact always_after fun _ => hrest
    · exact hrest

/-- What has been combined is made of members. -/
theorem always_combineNode (ev : Evaluator) (call : Call) (param : Node) {acc : Combined}
    {n : Node} (hacc : acc.All M) (hn : N n) :
    Always (Gathers N (Combined.All M)) (combineNode ev call param acc n) := by
  have hfault := fun fault => Evaluator.always_fault (Q := Combined.All M) hN call param fault
  have hother : ∀ kind, Always (Gathers N (Combined.All M))
      (if ev.isDeferred n then return .error .pending
      else return .error (← Evaluator.invalidArgument call param (.notACollection kind))) :=
    fun kind => meets_ite (fun _ => meets_pure trivial) fun _ => hfault _
  cases n with
  | token t => exact hother _
  | call f ps o => exact hother _
  | statement f ps o d => exact hother _
  | array is o =>
    have his := (hN.array.mp hn).2
    cases acc with
    | nothing => exact meets_pure his
    | items js => exact meets_pure (List.forall_mem_append.mpr ⟨hacc, his⟩)
    | entries m => exact hfault _
  | block es o =>
    have hes := (hN.block.mp hn).2
    cases acc with
    | nothing => exact meets_map (always_mergeEntries _ _ (by simp) hes) fun _ h => h
    | items js => exact hfault _
    | entries m => exact meets_map (always_mergeEntries _ _ hacc hes) fun _ h => h

theorem always_combineAll {ev : Evaluator}
    (hev : ∀ n, N n → Always (Outcome.One N) (ev.reduce n [])) (call : Call) {acc : Combined}
    {ps : List Node} (hacc : acc.All M) (hps : ∀ p ∈ ps, N p) :
    Always (Gathers N (Combined.All M)) (combineAll ev call [] acc ps) := by
  induction ps generalizing acc with
  | nil => exact meets_pure hacc
  | cons p ps ih =>
    obtain ⟨hp, hps⟩ := List.forall_mem_cons.mp hps
    refine meets_bind (hev p hp) fun o ho => ?_
    cases o with
    | pending => exact meets_pure trivial
    | empty => exact ih hacc hps
    | splice items => exact ho.elim
    | value n =>
      refine meets_ite (fun _ => ih hacc hps) fun _ => ?_
      exact always_also (always_combineNode hN ev call p hacc ho) fun acc' hacc' => ih hacc' hps

end

theorem builds_combine : combine.Builds := by
  intro ev P M N hN hev call hcall hps _
  have hnothing : Combined.nothing.All M := trivial
  refine always_given (always_combineAll hN hev call hnothing hps) fun acc hacc => ?_
  cases acc with
  | nothing => exact meets_pure trivial
  | items ns => exact meets_pure (hN.array.mpr ⟨hcall, hacc⟩)
  | entries es => exact meets_pure (hN.block.mpr ⟨hcall, hacc⟩)

/-! ### Records -/

/-- The values of a record are tokens. -/
theorem always_recordEntries {P : Origin → Prop} {M N : Node → Prop} (hN : Node.Layered P M N)
    (hmember : ∀ t, M (.token t)) (ev : Evaluator) (call : Call) (ctx : Context)
    (component : Component) (fields : List (String × Option String)) (ps : List Node) :
    Always (Gathers N fun es : Entries Token Node => ∀ e ∈ es, M e.2)
      (recordEntries ev call ctx component fields ps) := by
  induction fields generalizing ps with
  | nil => exact meets_pure (by simp [Gathers])
  | cons field fields ih =>
    obtain ⟨key, fallback⟩ := field
    have hmore : ∀ ps t, Always (Gathers N fun es : Entries Token Node => ∀ e ∈ es, M e.2)
        ((recordEntries ev call ctx component fields ps).also fun es =>
          pure (.ok ((.content key call.origin, .token t) :: es))) := fun ps t =>
      always_also (ih ps) fun es hes => meets_pure (List.forall_mem_cons.mpr ⟨hmember t, hes⟩)
    cases ps with
    | nil =>
      cases fallback with
      | none => exact meets_pure (hN.token _)
      | some fallback => exact hmore [] _
    | cons p ps =>
      refine always_also (Evaluator.always_requireToken hN ev p ctx) fun t _ => ?_
      cases component.fault? t.value with
      | some fault => exact Evaluator.always_fault hN call p fault
      | none => exact hmore ps t

theorem builds_record (k : RecordKind) (hk : k.arity.accepts 0 = false) : (record k).Builds := by
  intro ev P M N hN hev call hcall hps hmember
  refine meets_ite (fun haccepts => ?_) fun _ => Evaluator.always_wrongArity hN call _
  have hsome : call.params ≠ [] := by
    intro hnone
    rw [hnone, List.length_nil, hk] at haccepts
    exact Bool.false_ne_true haccepts
  have hentries :=
    always_recordEntries hN (hmember hsome) ev call [] k.component k.fields call.params
  exact always_given hentries fun es hes => meets_pure (hN.block.mpr ⟨hcall, hes⟩)

/-! ### Bindings -/

/-- Where nothing is bound a default is given, or the text that says so. -/
theorem builds_readBinding : readBinding.Builds := by
  intro ev P M N hN hev call hcall hps _
  refine Evaluator.always_withFirst hN fun name others hparams => ?_
  refine always_given (Evaluator.always_requireToken hN ev name []) fun t _ => ?_
  rw [show Context.get? [] t = none from rfl]
  cases others with
  | nil => exact always_after fun _ => meets_pure (hN.token _)
  | cons fallback others => exact hev fallback (hps fallback (by simp [hparams]))

end Library

end ContentLang
