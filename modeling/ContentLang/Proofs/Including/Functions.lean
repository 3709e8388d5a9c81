import ContentLang.Proofs.Meaning.Laws
import ContentLang.Proofs.Walk.Meets

/-!
# What functions note

Two sorts of notes tell of includes: a file that was asked for, and a report that files are
included too deep. All others are **ordinary** (`ContentLang.Note.isOrdinary`). The functions of
the language include nothing by themselves: beside ordinary notes, what they leave are the notes
of the reductions that they carry out (`ContentLang.Function.abiding_builtin`).

What is noted while a node is reduced may depend on the node, so a condition on nodes is carried
along. It holds of parameters and of values that are bound, of what these are reduced to, and of
whatever is made of it: functions take collections apart and put them together, but make no calls.
-/

namespace ContentLang

open Walk

/-- Whether a problem is that files are included too deep. -/
def Problem.isTooDeep : Problem → Bool
  | includeDepth _ => true
  | _ => false

/-- Whether a note is neither about a file nor about how deep files are included. -/
def Note.isOrdinary : Note → Bool
  | report d => !d.problem.isTooDeep
  | asked (.file _) => false
  | _ => true

/-- Whether a condition holds of the nodes of an outcome. -/
def Outcome.All (N : Node → Prop) (o : Outcome) : Prop := ∀ n ∈ o.nodes, N n

/-- Whether a condition holds of the values that are bound. -/
def Context.All (N : Node → Prop) (ctx : Context) : Prop := ∀ e ∈ ctx, N e.2

/-- Whether a walk leaves only notes with `L`, and comes only to answers with `Q`. -/
abbrev Walk.Abides {α : Type} (L : Note → Prop) (Q : α → Prop) (m : Walk α) : Prop :=
  Meets ⟨False, L, fun _ => True⟩ False Q m

/-- What a function has on the way: an outcome that ends it, or what `Q` holds of. -/
def Awaits {α : Type} (N : Node → Prop) (Q : α → Prop) : Except Outcome α → Prop
  | .ok a => Q a
  | .error o => o.All N

/-- **Whether a function abides by conditions** on notes and nodes: if the reductions that it
carries out do, so does its own result. -/
def Function.Abiding (L : Note → Prop) (N : Node → Prop) (f : Function) : Prop :=
  ∀ ev : Evaluator,
    (∀ n ctx, N n → Context.All N ctx → Abides L (Outcome.All N) (ev.reduce n ctx)) →
      ∀ (call : Call) (ctx : Context), (∀ p ∈ call.params, N p) → Context.All N ctx →
        Abides L (Outcome.All N) (f.reduce ev call ctx)

/-- Conditions that functions may be asked to abide by: ordinary notes may be left, and nodes are
looked at through collections, wherever they stand. -/
structure Bylaws (L : Note → Prop) (N : Node → Prop) : Prop where
  ordinary : ∀ note, note.isOrdinary = true → L note
  closed : Node.Closed N
  alike : ∀ {m n : Node}, Alike m n → N m → N n

namespace Outcome

variable {N : Node → Prop} {o : Outcome} {n : Node} {items : List Node} {origin : Origin}

theorem all_value (h : N n) : (value n).All N := by simpa [All] using h

theorem all_empty : empty.All N := by simp [All]

theorem all_pending : pending.All N := by simp [All]

theorem All.of_value (h : (value n).All N) : N n := h n (by simp)

theorem all_ofItems (h : ∀ i ∈ items, N i) : (ofItems items).All N := by
  match items with
  | [] => exact all_empty
  | [_] => exact h
  | _ :: _ :: _ => exact h

theorem All.toItems (h : o.All N) (hitems : o.toItems? = some items) : ∀ i ∈ items, N i := by
  cases o with
  | value m =>
    obtain rfl : [m] = items := Option.some.inj hitems
    exact h
  | empty =>
    obtain rfl : [] = items := Option.some.inj hitems
    simp
  | splice _ =>
    obtain rfl := Option.some.inj hitems
    exact h
  | pending => exact nomatch hitems

theorem All.toNode (hN : Node.Closed N) (h : o.All N) (hn : o.toNode? origin = some n) : N n := by
  cases o with
  | value m =>
    obtain rfl : m = n := Option.some.inj hn
    exact h.of_value
  | empty =>
    obtain rfl : Node.token (.null origin) = n := Option.some.inj hn
    exact hN.token _
  | splice items =>
    obtain rfl : Node.array items origin = n := Option.some.inj hn
    exact hN.array.mpr h
  | pending => exact nomatch hn

end Outcome

/-! ### Walks that abide -/

section

variable {α β : Type} {L : Note → Prop} {N : Node → Prop} {P Q : α → Prop} {R : β → Prop}

/-- What comes after a walk of whose answer nothing matters. -/
theorem abides_after {m : Walk α} {f : α → Walk β} (hm : Abides L (fun _ => True) m)
    (hf : ∀ a, Abides L R (f a)) : Abides L R (m >>= f) :=
  meets_bind hm fun a _ => hf a

theorem abides_given {m : Walk (Except Outcome α)} {f : α → Walk Outcome}
    (hm : Abides L (Awaits N Q) m) (hf : ∀ a, Q a → Abides L (Outcome.All N) (f a)) :
    Abides L (Outcome.All N) (m.given f) := by
  refine meets_bind hm fun r hr => ?_
  cases r with
  | ok a => exact hf a hr
  | error o => exact meets_pure hr

theorem abides_also {m : Walk (Except Outcome α)} {f : α → Walk (Except Outcome β)}
    (hm : Abides L (Awaits N Q) m) (hf : ∀ a, Q a → Abides L (Awaits N R) (f a)) :
    Abides L (Awaits N R) (m.also f) := by
  refine meets_bind hm fun r hr => ?_
  cases r with
  | ok a => exact hf a hr
  | error o => exact meets_pure hr

variable (h : Bylaws L N)
include h

theorem abides_report (origin : Origin) {problem : Problem} (hproblem : problem.isTooDeep = false) :
    Abides L (fun _ => True) (Walk.report origin problem) := by
  refine meets_leave fun note hnote => ?_
  obtain rfl := List.mem_singleton.mp hnote
  refine h.ordinary _ ?_
  show (!(Diagnostic.about origin problem).problem.isTooDeep) = true
  rw [show (Diagnostic.about origin problem).problem = problem from rfl, hproblem]
  rfl

theorem abides_remarkAt (level : Level) (location : Location) (text : String) :
    Abides L (fun _ => True) (Walk.remarkAt level location text) := by
  refine meets_leave fun note hnote => ?_
  obtain rfl := List.mem_singleton.mp hnote
  exact h.ordinary _ rfl

/-- A question other than for a file leaves ordinary notes. -/
theorem ordinary_questionNotes (host : Host) {q : Query} (hq : (Note.asked q).isOrdinary = true) :
    ∀ note ∈ questionNotes host q, L note := by
  intro note hnote
  rcases List.mem_cons.mp hnote with rfl | hnote
  · exact h.ordinary _ hq
  · obtain ⟨r, -, rfl⟩ := List.mem_map.mp hnote
    exact h.ordinary _ rfl

theorem abides_askAsset (host : Host) (path : String) :
    Abides L (fun _ => True) (Walk.askAsset host path) := fun _ _ =>
  ⟨fun h => h.elim, ordinary_questionNotes h host rfl, fun h => h.elim, fun _ _ => trivial⟩

theorem abides_askCondition (host : Host) (s : String) :
    Abides L (fun _ => True) (Walk.askCondition host s) := fun _ _ =>
  ⟨fun h => h.elim, ordinary_questionNotes h host rfl, fun h => h.elim, fun _ _ => trivial⟩

theorem abides_askRandom (host : Host) (seed : UInt64) (isStatic : Bool) :
    Abides L (fun _ => True) (Walk.askRandom host seed isStatic) := fun _ _ =>
  ⟨fun h => h.elim, ordinary_questionNotes h host rfl, fun h => h.elim, fun _ _ => trivial⟩

omit h in
theorem abides_draw (sample : Generator → Option (α × Generator)) :
    Abides L (fun _ => True) (Walk.draw sample) := by
  refine fun s _ => ⟨fun h => h.elim, ?_, fun h => h.elim, fun _ _ => trivial⟩
  unfold Walk.draw
  split <;> simp

omit h in
theorem abides_remember (function uid : String) (answers : List Bool) :
    Abides L (fun _ => True) (Walk.remember function uid answers) :=
  fun _ _ => ⟨fun h => h.elim, by simp [Walk.remember], fun h => h.elim, fun _ _ => trivial⟩

namespace Evaluator

/-! ### Faults -/

theorem abides_wrongArity (call : Call) (expected : Arity) :
    Abides L (Outcome.All N) (wrongArity call expected) :=
  abides_after (abides_report h _ rfl) fun _ => meets_pure (Outcome.all_value (h.closed.token _))

theorem abides_invalidArgument (call : Call) (node : Node) (fault : Fault) :
    Abides L (Outcome.All N) (invalidArgument call node fault) :=
  abides_after (abides_report h _ rfl) fun _ => meets_pure (Outcome.all_value (h.closed.token _))

/-- The same fault, as the outcome in place of an answer. -/
theorem abides_fault (call : Call) (node : Node) (fault : Fault) :
    Abides L (Awaits N Q) (do return Except.error (← invalidArgument call node fault)) :=
  meets_map (abides_invalidArgument h call node fault) fun _ ho => ho

theorem abides_withFirst {call : Call} {expected : Arity} {f : Node → List Node → Walk Outcome}
    (hparams : ∀ p ∈ call.params, N p)
    (hf : ∀ first others, N first → (∀ p ∈ others, N p) →
      Abides L (Outcome.All N) (f first others)) :
    Abides L (Outcome.All N) (withFirst call expected f) := by
  unfold withFirst
  split
  next first others heq =>
    obtain ⟨hfirst, hothers⟩ := List.forall_mem_cons.mp (heq ▸ hparams)
    exact meets_ite (fun _ => hf first others hfirst hothers) fun _ =>
      abides_wrongArity h call expected
  next => exact abides_wrongArity h call expected

end Evaluator

/-! ### Tokens and members -/

section

variable {ev : Evaluator}
  (hr : ∀ n ctx, N n → Context.All N ctx → Abides L (Outcome.All N) (ev.reduce n ctx))
  {ctx : Context} (hctx : Context.All N ctx)
include hr hctx

namespace Evaluator

theorem abides_requireToken {n : Node} (hn : N n) :
    Abides L (Awaits N fun _ : Token => True) (ev.requireToken n ctx) := by
  have hfault : ∀ (origin : Origin) {problem : Problem}, problem.isTooDeep = false →
      Abides L (Awaits N fun _ : Token => True)
        (Walk.report origin problem >>= fun _ => pure (.error (.error n.origin))) :=
    fun origin _ hproblem => abides_after (abides_report h origin hproblem) fun _ =>
      meets_pure (Outcome.all_value (h.closed.token _))
  refine abides_after ((hr n ctx hn hctx).imp fun _ _ => trivial) fun o => ?_
  cases o with
  | pending => exact meets_pure Outcome.all_pending
  | empty => exact hfault _ rfl
  | splice items => exact hfault _ rfl
  | value m =>
    cases m with
    | token t => exact meets_pure trivial
    | block es o => exact hfault _ rfl
    | array is o => exact hfault _ rfl
    | call f ps o =>
      exact meets_ite (fun _ => meets_pure Outcome.all_pending) fun _ => hfault _ rfl
    | statement f ps o d =>
      exact meets_ite (fun _ => meets_pure Outcome.all_pending) fun _ => hfault _ rfl

theorem abides_requireTokens {ns : List Node} (hns : ∀ n ∈ ns, N n) :
    Abides L (Awaits N fun _ : List Token => True) (ev.requireTokens ctx ns) := by
  induction ns with
  | nil => exact meets_pure trivial
  | cons n ns ih =>
    obtain ⟨hn, hns⟩ := List.forall_mem_cons.mp hns
    exact abides_also (abides_requireToken h hr hctx hn) fun _ _ =>
      abides_also (ih hns) fun _ _ => meets_pure trivial

omit h in
theorem abides_token? {n : Node} (hn : N n) :
    Abides L (fun _ => True) (ev.token? n ctx) := by
  refine abides_after ((hr n ctx hn hctx).imp fun _ _ => trivial) fun o => ?_
  split
  · exact meets_pure trivial
  · exact meets_pure trivial

theorem abides_members (call : Call) {n : Node} (hn : N n) :
    Abides L (Awaits N fun ms : List Node => ∀ m ∈ ms, N m) (ev.members call n ctx) := by
  have hfault := fun fault => abides_fault (Q := fun ms : List Node => ∀ m ∈ ms, N m) h call n fault
  have hpending : Awaits N (fun ms : List Node => ∀ m ∈ ms, N m) (.error .pending) :=
    Outcome.all_pending
  cases n with
  | array is o => exact meets_pure (h.closed.array.mp hn)
  | _ =>
    refine meets_bind (hr _ ctx hn hctx) fun o ho => ?_
    cases o with
    | pending => exact meets_pure hpending
    | empty => exact hfault _
    | splice items => exact meets_pure ho
    | value m =>
      cases m with
      | array is o => exact meets_pure (h.closed.array.mp ho.of_value)
      | _ => exact meets_ite (fun _ => meets_pure hpending) fun _ => hfault _

omit hr hctx in
theorem abides_sample (ev : Evaluator) (seed : Option UInt64) (isStatic : Bool)
    (f : Generator → Option (α × Generator)) :
    Abides L (fun _ => True) (ev.sample seed isStatic f) := by
  cases seed with
  | none => exact abides_draw f
  | some seed =>
    refine abides_after (abides_askRandom h ev.host seed isStatic) fun g => ?_
    cases f g with
    | some a => exact meets_pure trivial
    | none => exact meets_halt _ id

end Evaluator

end

end

/-! ### The functions of the language -/

namespace Library

variable {L : Note → Prop} {N : Node → Prop} (h : Bylaws L N)
include h

theorem abiding_assetWith {f : Evaluator → String → Walk String}
    (hf : ∀ ev path, Abides L (fun _ => True) (f ev path)) : (assetWith f).Abiding L N := by
  intro ev hr call ctx hparams hctx
  refine Evaluator.abides_withFirst h hparams fun path _ hpath _ =>
    abides_given (Evaluator.abides_requireToken h hr hctx hpath) fun t _ => ?_
  exact abides_after (hf ev _) fun _ => meets_pure (Outcome.all_value (h.closed.token _))

theorem abiding_concatenate : concatenate.Abiding L N := by
  intro ev hr call ctx hparams hctx
  exact abides_given (Evaluator.abides_requireTokens h hr hctx hparams) fun _ _ =>
    meets_pure (Outcome.all_value (h.closed.token _))

omit h in
theorem abides_collectAll {f : Node → Walk (Except Outcome (List String))} {ns : List Node}
    (hf : ∀ n ∈ ns, Abides L (Awaits N fun _ : List String => True) (f n)) :
    Abides L (Awaits N fun _ : List String => True) (collectAll f ns) := by
  induction ns with
  | nil => exact meets_pure trivial
  | cons n ns ih =>
    obtain ⟨hn, hns⟩ := List.forall_mem_cons.mp hf
    exact abides_also hn fun _ _ => abides_also (ih hns) fun _ _ => meets_pure trivial

theorem abides_collect {ev : Evaluator}
    (hr : ∀ n ctx, N n → Context.All N ctx → Abides L (Outcome.All N) (ev.reduce n ctx))
    {ctx : Context} (hctx : Context.All N ctx) (fuel : Nat) {n : Node} (hn : N n) :
    Abides L (Awaits N fun _ : List String => True) (collect ev ctx fuel n) := by
  induction fuel generalizing n with
  | zero => exact meets_halt _ id
  | succ fuel ih =>
    have hitems : ∀ is : List Node, (∀ i ∈ is, N i) →
        Abides L (Awaits N fun _ : List String => True) (collectAll (collect ev ctx fuel) is) :=
      fun is his => abides_collectAll fun i hi => ih (his i hi)
    have htoken : Abides L (Awaits N fun _ : List String => True)
        ((ev.requireToken n ctx).also fun t => pure (.ok [t.value])) :=
      abides_also (Evaluator.abides_requireToken h hr hctx hn) fun _ _ => meets_pure trivial
    cases n with
    | array is o => exact hitems is (h.closed.array.mp hn)
    | _ =>
      refine meets_bind (hr _ ctx hn hctx) fun o ho => ?_
      cases o with
      | empty => exact meets_pure trivial
      | splice items => exact hitems items ho
      | pending => exact meets_pure Outcome.all_pending
      | value m =>
        cases m with
        | array is o => exact hitems is (h.closed.array.mp ho.of_value)
        | token t => exact meets_pure trivial
        | _ => exact htoken

theorem abiding_join : join.Abiding L N := by
  intro ev hr call ctx hparams hctx
  refine Evaluator.abides_withFirst h hparams fun separator items hseparator hitems =>
    abides_given (Evaluator.abides_requireToken h hr hctx hseparator) fun t _ => ?_
  exact abides_given (abides_collectAll fun n hn => abides_collect h hr hctx ev.limit (hitems n hn))
    fun _ _ => meets_pure (Outcome.all_value (h.closed.token _))

/-! ### Collections -/

theorem abides_mergeEntries (location : Location) (function : String)
    {m es : Entries Token Node} (hm : ∀ e ∈ m, N e.2) (hes : ∀ e ∈ es, N e.2) :
    Abides L (fun m' => ∀ e ∈ m', N e.2) (mergeEntries location function m es) := by
  induction es generalizing m with
  | nil => exact meets_pure hm
  | cons e es ih =>
    obtain ⟨he, hes⟩ := List.forall_mem_cons.mp hes
    have hrest := ih (Entries.forall_insert (k := e.1) hm he) hes
    exact meets_ite (fun _ => abides_after (abides_remarkAt h _ _ _) fun _ => hrest) fun _ => hrest

theorem abides_combineNode (ev : Evaluator) (call : Call) (param : Node) {acc : Combined}
    {n : Node} (hacc : acc.All N) (hn : N n) :
    Abides L (Awaits N (Combined.All N)) (combineNode ev call param acc n) := by
  have hfault := fun fault => Evaluator.abides_fault (Q := Combined.All N) h call param fault
  have hother : ∀ kind, Abides L (Awaits N (Combined.All N))
      (if ev.isDeferred n then return .error .pending
      else return .error (← Evaluator.invalidArgument call param (.notACollection kind))) :=
    fun kind => meets_ite (fun _ => meets_pure Outcome.all_pending) fun _ => hfault _
  cases n with
  | token t => exact hother _
  | call f ps o => exact hother _
  | statement f ps o d => exact hother _
  | array is o =>
    have his := h.closed.array.mp hn
    cases acc with
    | nothing => exact meets_pure his
    | items js => exact meets_pure (List.forall_mem_append.mpr ⟨hacc, his⟩)
    | entries m => exact hfault _
  | block es o =>
    have hes := h.closed.block.mp hn
    cases acc with
    | nothing => exact meets_map (abides_mergeEntries h _ _ (by simp) hes) fun _ h => h
    | items js => exact hfault _
    | entries m => exact meets_map (abides_mergeEntries h _ _ hacc hes) fun _ h => h

theorem abides_combineAll {ev : Evaluator}
    (hr : ∀ n ctx, N n → Context.All N ctx → Abides L (Outcome.All N) (ev.reduce n ctx))
    (call : Call) {ctx : Context} (hctx : Context.All N ctx) {acc : Combined} {ps : List Node}
    (hacc : acc.All N) (hps : ∀ p ∈ ps, N p) :
    Abides L (Awaits N (Combined.All N)) (combineAll ev call ctx acc ps) := by
  induction ps generalizing acc with
  | nil => exact meets_pure hacc
  | cons p ps ih =>
    obtain ⟨hp, hps⟩ := List.forall_mem_cons.mp hps
    have hnode : ∀ node : Node, N node → Abides L (Awaits N (Combined.All N))
        ((combineNode ev call p acc node).also fun acc => combineAll ev call ctx acc ps) :=
      fun node hn => abides_also (abides_combineNode h ev call p hacc hn)
        fun acc hacc => ih hacc hps
    refine meets_bind (hr p ctx hp hctx) fun o ho => ?_
    cases o with
    | pending => exact meets_pure Outcome.all_pending
    | empty => exact ih hacc hps
    | splice items => exact hnode (.array items p.origin) (h.closed.array.mpr ho)
    | value n => exact meets_ite (fun _ => ih hacc hps) fun _ => hnode n ho.of_value

theorem abiding_combine : combine.Abiding L N := by
  intro ev hr call ctx hparams hctx
  have hnothing : Combined.nothing.All N := trivial
  refine abides_given (abides_combineAll h hr call hctx hnothing hparams) fun acc hacc => ?_
  cases acc with
  | nothing => exact meets_pure Outcome.all_empty
  | items ns => exact meets_pure (Outcome.all_value (h.closed.array.mpr hacc))
  | entries es => exact meets_pure (Outcome.all_value (h.closed.block.mpr hacc))

omit h in
theorem abides_withoutElements {ev : Evaluator}
    (hr : ∀ n ctx, N n → Context.All N ctx → Abides L (Outcome.All N) (ev.reduce n ctx))
    {ctx : Context} (hctx : Context.All N ctx) (removed : List Token) {ns : List Node}
    (hns : ∀ n ∈ ns, N n) :
    Abides L (fun r => ∀ n ∈ r, N n) (withoutElements ev ctx removed ns) := by
  induction ns with
  | nil => exact meets_pure (by simp)
  | cons n ns ih =>
    obtain ⟨hn, hns⟩ := List.forall_mem_cons.mp hns
    refine abides_after (Evaluator.abides_token? hr hctx hn) fun t =>
      meets_bind (ih hns) fun rest hrest => ?_
    have hkept : ∀ m ∈ n :: rest, N m := List.forall_mem_cons.mpr ⟨hn, hrest⟩
    cases t with
    | none => exact meets_pure hkept
    | some t =>
      refine meets_pure ?_
      split
      · exact hrest
      · exact hkept

theorem abiding_remove : remove.Abiding L N := by
  intro ev hr call ctx hparams hctx
  refine Evaluator.abides_withFirst h hparams fun collection tokens hcollection htokens =>
    abides_given (Evaluator.abides_requireTokens h hr hctx htokens) fun removed _ => ?_
  have hinvalid := fun fault => Evaluator.abides_invalidArgument h call collection fault
  refine meets_bind (hr collection ctx hcollection hctx) fun o ho => ?_
  cases o with
  | pending => exact meets_pure Outcome.all_pending
  | empty => exact hinvalid _
  | splice items => exact hinvalid _
  | value n =>
    have hother : Abides L (Outcome.All N) (if ev.isDeferred n then return .pending
        else Evaluator.invalidArgument call collection (.notACollection n.kind)) :=
      meets_ite (fun _ => meets_pure Outcome.all_pending) fun _ => hinvalid _
    cases n with
    | token t => exact hother
    | call f ps o => exact hother
    | statement f ps o d => exact hother
    | array is o =>
      exact meets_map (abides_withoutElements hr hctx removed (h.closed.array.mp ho.of_value))
        fun r hr => Outcome.all_value (h.closed.array.mpr hr)
    | block es o =>
      have hes := h.closed.block.mp ho.of_value
      exact meets_pure (Outcome.all_value
        (h.closed.block.mpr fun e he => hes e (mem_of_withoutKeys he)))

/-! ### Records and bindings -/

theorem abides_recordEntries {ev : Evaluator}
    (hr : ∀ n ctx, N n → Context.All N ctx → Abides L (Outcome.All N) (ev.reduce n ctx))
    (call : Call) {ctx : Context} (hctx : Context.All N ctx) (component : Component)
    (fields : List (String × Option String)) {ps : List Node} (hps : ∀ p ∈ ps, N p) :
    Abides L (Awaits N fun es : Entries Token Node => ∀ e ∈ es, N e.2)
      (recordEntries ev call ctx component fields ps) := by
  induction fields generalizing ps with
  | nil => exact meets_pure (by simp [Awaits])
  | cons field fields ih =>
    obtain ⟨key, fallback⟩ := field
    have hmore : ∀ {ps : List Node}, (∀ p ∈ ps, N p) → ∀ t,
        Abides L (Awaits N fun es : Entries Token Node => ∀ e ∈ es, N e.2)
          ((recordEntries ev call ctx component fields ps).also fun es =>
            pure (.ok ((.content key call.origin, .token t) :: es))) := fun hps t =>
      abides_also (ih hps) fun es hes =>
        meets_pure (List.forall_mem_cons.mpr ⟨h.closed.token t, hes⟩)
    cases ps with
    | nil =>
      cases fallback with
      | none => exact meets_pure (Outcome.all_value (h.closed.token _))
      | some fallback => exact hmore (by simp) _
    | cons p ps =>
      obtain ⟨hp, hps⟩ := List.forall_mem_cons.mp hps
      refine abides_also (Evaluator.abides_requireToken h hr hctx hp) fun t _ => ?_
      cases component.fault? t.value with
      | some fault => exact Evaluator.abides_fault h call p fault
      | none => exact hmore hps t

theorem abiding_record (k : RecordKind) : (record k).Abiding L N := by
  intro ev hr call ctx hparams hctx
  refine meets_ite (fun _ => ?_) fun _ => Evaluator.abides_wrongArity h call _
  exact abides_given (abides_recordEntries h hr call hctx k.component k.fields hparams)
    fun es hes => meets_pure (Outcome.all_value (h.closed.block.mpr hes))

theorem abiding_readBinding : readBinding.Abiding L N := by
  intro ev hr call ctx hparams hctx
  refine Evaluator.abides_withFirst h hparams fun name others hname hothers =>
    abides_given (Evaluator.abides_requireToken h hr hctx hname) fun t _ => ?_
  cases hget : Context.get? ctx t with
  | some value =>
    obtain ⟨e, he, rfl⟩ := Context.mem_of_get? hget
    exact hr _ ctx (h.alike (Node.alike_markUid _ _) (hctx e he)) hctx
  | none =>
    cases others with
    | nil =>
      exact abides_after (abides_report h _ rfl) fun _ =>
        meets_pure (Outcome.all_value (h.closed.token _))
    | cons fallback others => exact hr fallback ctx (hothers fallback (by simp)) hctx

/-! ### Choices and filters -/

theorem abides_withMembers {ev : Evaluator}
    (hr : ∀ n ctx, N n → Context.All N ctx → Abides L (Outcome.All N) (ev.reduce n ctx))
    {call : Call} {ctx : Context} (hparams : ∀ p ∈ call.params, N p) (hctx : Context.All N ctx)
    {f : Node → List Node → ChoiceOptions → Walk Outcome}
    (hf : ∀ list members options, (∀ m ∈ members, N m) →
      Abides L (Outcome.All N) (f list members options)) :
    Abides L (Outcome.All N) (withMembers ev call ctx f) := by
  refine Evaluator.abides_withFirst h hparams fun list options hlist hoptions =>
    abides_given (Evaluator.abides_members h hr hctx call hlist) fun members hmembers =>
      abides_given (Evaluator.abides_requireTokens h hr hctx hoptions) fun tokens _ => ?_
  cases members with
  | nil => exact Evaluator.abides_invalidArgument h call list _
  | cons m ms => exact hf list (m :: ms) _ hmembers

theorem abiding_choose : choose.Abiding L N := by
  intro ev hr call ctx hparams hctx
  refine abides_withMembers h hr hparams hctx fun list members options hmembers => ?_
  refine abides_after (Evaluator.abides_sample h ev _ _ _) fun i => ?_
  cases hmember : members[i]? with
  | none => exact meets_pure (Outcome.all_value (h.closed.token _))
  | some member => exact hr member ctx (hmembers member (List.mem_of_getElem? hmember)) hctx

/-- What is left of a member is made of what was in it. -/
theorem strip_of_closed (key : String) (flatten : Bool) {n : Node} (hn : N n) :
    N (strip key flatten n) := by
  cases n with
  | block es o =>
    have hrest : ∀ e ∈ Entries.erase es (.key key), N e.2 := fun e he =>
      h.closed.block.mp hn e (List.mem_filter.mp he).1
    unfold strip
    dsimp only
    split
    next e heq => exact hrest e (by simp [heq])
    next => exact h.closed.block.mpr hrest
  | _ => exact hn

theorem memberEntry_of_closed {key : String} {n m : Node} (hn : N n)
    (hm : memberEntry key n = some m) : N m := by
  cases n with
  | block es o =>
    obtain ⟨e, he, rfl⟩ := Option.map_eq_some_iff.mp hm
    exact h.closed.block.mp hn e (List.mem_of_find?_eq_some he)
  | _ => exact nomatch hm

theorem abides_weights {ev : Evaluator}
    (hr : ∀ n ctx, N n → Context.All N ctx → Abides L (Outcome.All N) (ev.reduce n ctx))
    {ctx : Context} (hctx : Context.All N ctx) {ms : List Node} (hms : ∀ m ∈ ms, N m) :
    Abides L (Awaits N fun _ : List Float => True) (weights ev ctx ms) := by
  induction ms with
  | nil => exact meets_pure trivial
  | cons m ms ih =>
    obtain ⟨hm, hms⟩ := List.forall_mem_cons.mp hms
    have hmore : ∀ x : Float, Abides L (Awaits N fun _ : List Float => True)
        ((weights ev ctx ms).also fun xs => pure (.ok (x :: xs))) :=
      fun x => abides_also (ih hms) fun _ _ => meets_pure trivial
    unfold weights
    cases hentry : memberEntry weightKey m with
    | none => exact hmore 1.0
    | some node =>
      have hnode := memberEntry_of_closed h hm hentry
      refine meets_bind (Evaluator.abides_requireToken h hr hctx hnode) fun x hx => ?_
      cases x with
      | error o =>
        cases o with
        | pending => exact meets_pure Outcome.all_pending
        | value _ => exact hmore 1.0
        | empty => exact hmore 1.0
        | splice _ => exact hmore 1.0
      | ok t =>
        have hweight : Abides L (fun _ => True) (weightOf t) := by
          unfold weightOf
          cases weight? t.value with
          | some x => exact meets_pure trivial
          | none => exact abides_after (abides_remarkAt h _ _ _) fun _ => meets_pure trivial
        exact abides_after hweight hmore

theorem abiding_chooseWeighted : chooseWeighted.Abiding L N := by
  intro ev hr call ctx hparams hctx
  refine abides_withMembers h hr hparams hctx fun list members options hmembers =>
    abides_given (abides_weights h hr hctx hmembers) fun xs _ => ?_
  cases xs with
  | nil => exact Evaluator.abides_invalidArgument h call list _
  | cons x xs =>
    refine meets_ite (fun _ => Evaluator.abides_invalidArgument h call list _) fun _ =>
      meets_ite (fun _ => meets_halt _ id) fun _ => ?_
    refine abides_after (Evaluator.abides_sample h ev _ _ _) fun i => ?_
    cases hmember : members[i]? with
    | none => exact meets_pure (Outcome.all_value (h.closed.token _))
    | some member =>
      have hstripped := strip_of_closed h weightKey options.flatten
        (hmembers member (List.mem_of_getElem? hmember))
      exact hr _ ctx hstripped hctx

theorem abides_keepMembers {ev : Evaluator}
    (hr : ∀ n ctx, N n → Context.All N ctx → Abides L (Outcome.All N) (ev.reduce n ctx))
    {ctx : Context} (hctx : Context.All N ctx) (flatten : Bool) {ms : List Node}
    (hms : ∀ m ∈ ms, N m) :
    Abides L (Awaits N fun r : List Node × List Bool => ∀ n ∈ r.1, N n)
      (keepMembers ev ctx flatten ms) := by
  have hadmits : ∀ m, N m → Abides L (Awaits N fun _ : Option Bool => True) (admits ev ctx m) := by
    intro m hm
    unfold admits
    cases hentry : memberEntry conditionKey m with
    | none => exact meets_pure trivial
    | some node =>
      have hnode := memberEntry_of_closed h hm hentry
      refine abides_also (Evaluator.abides_requireToken h hr hctx hnode) fun t _ =>
        abides_after (abides_askCondition h ev.host t.value) fun answer => ?_
      cases answer with
      | none => exact meets_pure Outcome.all_pending
      | some answer => exact meets_pure trivial
  induction ms with
  | nil => exact meets_pure (by simp [Awaits])
  | cons m ms ih =>
    obtain ⟨hm, hms⟩ := List.forall_mem_cons.mp hms
    refine abides_also (hadmits m hm) fun answer _ => meets_ite (fun _ => ?_) fun _ => ?_
    · exact abides_also (ih hms) fun r hr => meets_pure hr
    · refine meets_bind (hr _ ctx (strip_of_closed h _ flatten hm) hctx) fun o ho => ?_
      cases hitems : o.toItems? with
      | none => exact meets_pure Outcome.all_pending
      | some items =>
        exact abides_also (ih hms) fun r hr =>
          meets_pure (List.forall_mem_append.mpr ⟨ho.toItems hitems, hr⟩)

theorem abiding_filter : filter.Abiding L N := by
  intro ev hr call ctx hparams hctx
  refine Evaluator.abides_withFirst h hparams fun list options hlist hoptions =>
    abides_given (Evaluator.abides_members h hr hctx call hlist) fun members hmembers =>
      abides_given (Evaluator.abides_requireTokens h hr hctx hoptions) fun tokens _ =>
        abides_given (abides_keepMembers h hr hctx _ hmembers) fun r hr => ?_
  exact abides_after (abides_remember _ _ _) fun _ =>
    meets_pure (Outcome.all_value (h.closed.array.mpr hr))

end Library

/-- **The functions of the language abide by all such conditions.** -/
theorem Function.abiding_builtin {L : Note → Prop} {N : Node → Prop} (h : Bylaws L N) :
    ∀ e ∈ Registry.builtin, e.2.Abiding L N := by
  open Library in
  simp only [Registry.builtin, List.forall_mem_cons]
  exact ⟨abiding_assetWith h fun ev path => abides_askAsset h ev.host path,
    abiding_assetWith h fun ev path => meets_pure trivial, abiding_concatenate h, abiding_join h,
    abiding_choose h, abiding_chooseWeighted h, abiding_filter h, abiding_combine h,
    abiding_remove h, abiding_record h _, abiding_record h _, abiding_record h _,
    abiding_record h _, abiding_readBinding h, by simp⟩

end ContentLang
