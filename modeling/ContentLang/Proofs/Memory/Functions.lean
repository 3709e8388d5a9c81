import ContentLang.Proofs.Memory.Records
import ContentLang.Proofs.Readiness.Functions

/-!
# What functions remember

`FilterByCondition` is the only function that remembers anything, and it does so last: when all of
its members are decided. For a list that is written out with conditions that are tokens, what it
remembers are the answers of the host to these conditions, in order
(`ContentLang.Library.Answered`). That is said of the call as it stands in the tree, with the
identity that it has there.

Whatever else a function does, it reduces nodes that are in its parameters, nodes that it got by
reducing these, or the marked copy of a bound value. So it is enough to know which calls there are
in its parameters (`ContentLang.Node.Confined`): what comes of reducing them holds no call of
anything known.
-/

namespace ContentLang

open Walk

/-! ### The calls in a node -/

namespace Node

variable {known : String → Bool} {among : Call → Prop} {n : Node}

/-- Whether the calls in a node of what is known are among some. -/
def Confined (known : String → Bool) (among : Call → Prop) (n : Node) : Prop :=
  ∀ c ∈ n.calls, known c.function = true → among c

/-- In an inert node there are no such calls. -/
theorem Inert.confined (h : n.Inert known) : n.Confined known among := by
  intro c hc hknown
  rw [h c hc] at hknown
  exact absurd hknown Bool.false_ne_true

theorem confined_array {items : List Node} {o : Origin} (h : (array items o).Confined known among) :
    ∀ i ∈ items, i.Confined known among := by
  intro i hi c hc
  rw [Confined, calls] at h
  exact h c (mem_callsOfAll.mpr ⟨i, hi, hc⟩)

theorem confined_block {es : List (Token × Node)} {o : Origin}
    (h : (block es o).Confined known among) : ∀ e ∈ es, e.2.Confined known among := by
  intro e he c hc
  rw [Confined, calls] at h
  exact h c (mem_callsOfEntries.mpr ⟨e, he, hc⟩)

theorem confined_call {f : String} {ps : List Node} {o : Origin} :
    (call f ps o).Confined known among ↔
      (known f = true → among ⟨f, ps, o⟩) ∧ ∀ p ∈ ps, p.Confined known among := by
  simp only [Confined, calls, List.forall_mem_cons, mem_callsOfAll]
  refine and_congr_right fun _ => ?_
  constructor
  · exact fun h p hp c hc => h c ⟨p, hp, hc⟩
  · rintro h c ⟨p, hp, hc⟩
    exact h p hp c hc

theorem confined_statement {f : String} {ps : List Node} {o : Origin} {data : Node} :
    (statement f ps o data).Confined known among ↔
      (call f ps o).Confined known among ∧ data.Confined known among := by
  simp only [Confined, calls, List.forall_mem_cons, List.forall_mem_append, and_assoc]

/-- The value of a member's entry is in the member. -/
theorem Confined.memberEntry (h : n.Confined known among) {key : String} {m : Node}
    (hm : Library.memberEntry key n = some m) : m.Confined known among := by
  cases n with
  | block es o =>
    obtain ⟨l, hl, -⟩ := Entries.exists_of_get? (k := .key key) (m := es) hm
    exact confined_block h _ hl
  | _ => exact absurd hm (by simp [Library.memberEntry, entries?])

/-- What is left of a member is in the member. -/
theorem Confined.strip (h : n.Confined known among) (key : String) (flatten : Bool) :
    (Library.strip key flatten n).Confined known among := by
  cases n with
  | block es o =>
    have hentries : ∀ e ∈ Entries.erase es (.key key), e.2.Confined known among := fun e he =>
      confined_block h e (List.mem_filter.mp he).1
    have hblock : (block (Entries.erase es (.key key)) o).Confined known among := by
      intro c hc
      rw [calls] at hc
      obtain ⟨e, he, hce⟩ := mem_callsOfEntries.mp hc
      exact hentries e he c hce
    cases flatten with
    | false => exact hblock
    | true =>
      simp only [Library.strip]
      split
      next e _ herase => exact hentries e (herase ▸ List.mem_singleton_self e)
      next => exact hblock
  | _ => exact h

end Node

namespace Library

/-! ### What a filter may remember -/

/-- Whether the condition of a member, if it has one, is a token as it stands. -/
def Spelled (member : Node) : Prop :=
  ∀ condition, memberEntry conditionKey member = some condition → ∃ t, condition = .token t

/-- **Whether answers are those that a call is decided by**: for a list that is written out with
conditions that are tokens, the host's answers to these. -/
def Answered (host : Host) (call : Call) (answers : List Bool) : Prop :=
  ∀ items o rest, call.params = .array items o :: rest → (∀ member ∈ items, Spelled member) →
    (currentAnswers host items).1 = some answers

end Library

/-- Whether an evaluator that is faithful remembers what is allowed, where the calls in a node are
among some. -/
structure Evaluator.Recording (ev : Evaluator) (allowed : String → String → List Bool → Prop)
    (among : Call → Prop) : Prop where
  faithful : ev.Faithful
  reduce : ∀ {node : Node}, node.Confined ev.isKnown among → ∀ ctx,
    Records allowed (ev.reduce node ctx)

/-- **Whether a function remembers what is allowed**, if it is allowed to remember, where it is
late, what its call is decided by, and if the copies that it reduces of bound values, marked with
the identity of its call, do so. -/
def Function.Recording (f : Function) : Prop :=
  ∀ {ev : Evaluator} {allowed : String → String → List Bool → Prop} {among : Call → Prop},
    ev.Recording allowed among → ∀ (call : Call) (ctx : Context),
      (∀ p ∈ call.params, p.Confined ev.isKnown among) →
      (f.late = true → ∀ answers, Library.Answered ev.host call answers →
        allowed call.function call.origin.uid answers) →
      (∀ value : Node, Records allowed
        (ev.reduce (value.markUid (call.origin.uid ++ ">")) ctx)) →
      Records allowed (f.reduce ev call ctx)

/-- What a walk gives that propagates what is not ready. -/
theorem Propagates.gives {α : Type} {host : Host} {waits good : α → Prop} {m : Walk α}
    (h : Propagates host waits good m) : Reduce.Gives good m :=
  fun s _ => ⟨fun h => h.elim, fun _ _ => trivial, fun h => h.elim, fun a ha => (h s a ha).1⟩

namespace Evaluator

variable {ev : Evaluator} {allowed : String → String → List Bool → Prop} {among : Call → Prop}

theorem records_wrongArity (call : Call) (expected : Arity) :
    Records allowed (wrongArity call expected) :=
  records_then (records_report _ _) fun _ => records_pure _

theorem records_invalidArgument (call : Call) (node : Node) (fault : Fault) :
    Records allowed (invalidArgument call node fault) :=
  records_then (records_report _ _) fun _ => records_pure _

theorem records_withFirst {call : Call} {expected : Arity} {f : Node → List Node → Walk Outcome}
    (hf : ∀ first others, call.params = first :: others → Records allowed (f first others)) :
    Records allowed (withFirst call expected f) := by
  unfold withFirst
  split
  next first others hparams =>
    exact records_ite (fun _ => hf first others hparams) fun _ => records_wrongArity call expected
  next => exact records_wrongArity call expected

theorem records_sample {α : Type} (seed : Option UInt64) (isStatic : Bool)
    (f : Generator → Option (α × Generator)) : Records allowed (ev.sample seed isStatic f) := by
  cases seed with
  | none => exact records_draw f
  | some seed =>
    refine records_then (records_askRandom _ _ _) fun g => ?_
    cases f g with
    | some a => exact records_pure _
    | none => exact records_halt _

variable (hev : ev.Recording allowed among)
include hev

theorem records_requireToken {node : Node} (hn : node.Confined ev.isKnown among) (ctx : Context) :
    Records allowed (ev.requireToken node ctx) := by
  have hexpected : ∀ found, Records allowed (expectedValue node found) := fun found =>
    records_then (records_report _ _) fun _ => records_pure _
  refine records_then (hev.reduce hn ctx) fun o => ?_
  split
  next => exact records_pure _
  next => exact records_pure _
  next => exact hexpected _
  next => exact hexpected _
  next found _ =>
    cases found.function? with
    | none => exact hexpected _
    | some name =>
      refine records_ite (fun _ => records_pure _) fun _ => ?_
      exact records_then (records_report _ _) fun _ => records_pure _

theorem records_requireTokens {nodes : List Node}
    (hns : ∀ n ∈ nodes, n.Confined ev.isKnown among) (ctx : Context) :
    Records allowed (ev.requireTokens ctx nodes) := by
  induction nodes with
  | nil => exact records_pure _
  | cons n ns ih =>
    obtain ⟨hn, hns⟩ := List.forall_mem_cons.mp hns
    exact records_also (records_requireToken hev hn ctx) fun t =>
      records_also (ih hns) fun ts => records_pure _

theorem records_token? {node : Node} (hn : node.Confined ev.isKnown among) (ctx : Context) :
    Records allowed (ev.token? node ctx) := by
  refine records_then (hev.reduce hn ctx) fun o => ?_
  split
  next => exact records_pure _
  next => exact records_pure _

theorem records_members {node : Node} (hn : node.Confined ev.isKnown among) (call : Call)
    (ctx : Context) : Records allowed (ev.members call node ctx) := by
  have hinvalid : ∀ fault, Records allowed (do
      return Except.error (α := List Node) (← invalidArgument call node fault)) := fun fault =>
    records_map (records_invalidArgument call node fault)
  unfold members
  split
  next => exact records_pure _
  next =>
    refine records_then (hev.reduce hn ctx) fun o => ?_
    split
    next => exact records_pure _
    next => exact records_pure _
    next => exact records_pure _
    next => exact hinvalid _
    next => exact records_ite (fun _ => records_pure _) fun _ => hinvalid _

/-- Members are those that are written out, or hold no call of anything known. -/
theorem gives_members {node : Node} (hn : node.Confined ev.isKnown among) (call : Call)
    (ctx : Context) :
    Reduce.Gives (fun r => ∀ ms, r = .ok ms →
        (∀ m ∈ ms, m.Confined ev.isKnown among) ∧ ∀ items o, node = .array items o → ms = items)
      (ev.members call node ctx) := by
  unfold members
  split
  next items o =>
    refine meets_pure fun ms hms => ?_
    obtain rfl : items = ms := Except.ok.inj hms
    refine ⟨Node.confined_array hn, ?_⟩
    rintro items' o' h
    exact (Node.array.inj h).1
  next hother =>
    have hsome : ∀ ms : List Node, (∀ m ∈ ms, m.Inert ev.isKnown) →
        ∀ ms', (Except.ok ms : Except Outcome (List Node)) = .ok ms' →
          (∀ m ∈ ms', m.Confined ev.isKnown among) ∧
            ∀ items o, node = .array items o → ms' = items := by
      rintro ms hms ms' h
      obtain rfl : ms = ms' := Except.ok.inj h
      exact ⟨fun m hm => (hms m hm).confined, fun items o h => absurd h (hother items o)⟩
    refine meets_bind (hev.faithful.reduce node ctx).gives fun out hout => ?_
    split
    next items o => exact meets_pure (hsome items (Node.inert_array.mp hout))
    next items => exact meets_pure (hsome items hout)
    next => exact meets_pure nofun
    next => exact Reduce.gives_after fun _ => meets_pure nofun
    next =>
      exact meets_ite (fun _ => meets_pure nofun) fun _ =>
        Reduce.gives_after fun _ => meets_pure nofun

end Evaluator

namespace Library

open Evaluator

/-! ### Assets and texts -/

theorem recording_assetWith {f : Evaluator → String → Walk String}
    (hf : ∀ ev path {allowed}, Records allowed (f ev path)) : (assetWith f).Recording := by
  intro ev allowed among hev call ctx hps _ _
  refine records_withFirst fun path others hparams =>
    records_given (records_requireToken hev (hps path (by simp [hparams])) ctx) fun t => ?_
  exact records_map (hf ev _)

theorem recording_concatenate : concatenate.Recording := by
  intro ev allowed among hev call ctx hps _ _
  exact records_given (records_requireTokens hev hps ctx) fun ts => records_pure _

section

variable {ev : Evaluator} {allowed : String → String → List Bool → Prop} {among : Call → Prop}

theorem records_collectAll {f : Node → Walk (Except Outcome (List String))} {nodes : List Node}
    (h : ∀ n ∈ nodes, Records allowed (f n)) : Records allowed (collectAll f nodes) := by
  induction nodes with
  | nil => exact records_pure _
  | cons n ns ih =>
    obtain ⟨hn, hns⟩ := List.forall_mem_cons.mp h
    exact records_also hn fun xs => records_also (ih hns) fun ys => records_pure _

theorem records_collect (hev : ev.Recording allowed among) (ctx : Context) (fuel : Nat)
    {node : Node} (hn : node.Confined ev.isKnown among) :
    Records allowed (collect ev ctx fuel node) := by
  induction fuel generalizing node with
  | zero => exact records_halt _
  | succ fuel ih =>
    have hinert : ∀ items : List Node, (∀ i ∈ items, i.Inert ev.isKnown) →
        Records allowed (collectAll (collect ev ctx fuel) items) := fun items hitems =>
      records_collectAll fun i hi => ih (hitems i hi).confined
    have hrequired := records_requireToken hev hn ctx
    cases node
    case array items o => exact records_collectAll fun i hi => ih (Node.confined_array hn i hi)
    all_goals
      refine records_bind (hev.reduce hn ctx) (hev.faithful.reduce _ ctx).gives fun o ho => ?_
      split
      next items o' => exact hinert items (Node.inert_array.mp ho)
      next items => exact hinert items ho
      next => exact records_pure _
      next => exact records_pure _
      next => exact records_pure _
      next => exact records_also hrequired fun t => records_pure _

end

theorem recording_join : join.Recording := by
  intro ev allowed among hev call ctx hps _ _
  refine records_withFirst fun separator items hparams => ?_
  rw [hparams] at hps
  obtain ⟨hseparator, hitems⟩ := List.forall_mem_cons.mp hps
  have hcollected := records_collectAll fun i hi => records_collect hev ctx ev.limit (hitems i hi)
  exact records_given (records_requireToken hev hseparator ctx) fun s =>
    records_given hcollected fun texts => records_pure _

/-! ### Collections and records -/

section

variable {ev : Evaluator} {allowed : String → String → List Bool → Prop} {among : Call → Prop}

theorem records_mergeEntries (location : Location) (function : String) (m es : Entries Token Node) :
    Records allowed (mergeEntries location function m es) := by
  induction es generalizing m with
  | nil => exact records_pure _
  | cons e es ih =>
    obtain ⟨k, n⟩ := e
    have hrest := ih (Entries.insert m k n)
    exact records_ite (fun _ => records_then (records_remarkAt _ _ _) fun _ => hrest) fun _ => hrest

theorem records_combineNode (call : Call) (param : Node) (acc : Combined) (node : Node) :
    Records allowed (combineNode ev call param acc node) := by
  have hinvalid : ∀ fault, Records allowed (do
      return Except.error (α := Combined) (← invalidArgument call param fault)) := fun fault =>
    records_map (records_invalidArgument call param fault)
  unfold combineNode
  split
  next => exact records_pure _
  next => exact records_pure _
  next => exact records_map (records_mergeEntries _ _ _ _)
  next => exact records_map (records_mergeEntries _ _ _ _)
  next => exact hinvalid _
  next => exact hinvalid _
  next => exact records_ite (fun _ => records_pure _) fun _ => hinvalid _

theorem records_combineAll (hev : ev.Recording allowed among) (call : Call) (ctx : Context)
    {params : List Node} (hps : ∀ p ∈ params, p.Confined ev.isKnown among) (acc : Combined) :
    Records allowed (combineAll ev call ctx acc params) := by
  induction params generalizing acc with
  | nil => exact records_pure _
  | cons p ps ih =>
    obtain ⟨hp, hps⟩ := List.forall_mem_cons.mp hps
    have hmore : ∀ node, Records allowed
        ((combineNode ev call p acc node).also fun acc => combineAll ev call ctx acc ps) :=
      fun node => records_also (records_combineNode call p acc node) (ih hps)
    refine records_then (hev.reduce hp ctx) fun o => ?_
    cases o with
    | pending => exact records_pure _
    | empty => exact ih hps acc
    | splice items => exact hmore _
    | value n => exact records_ite (fun _ => ih hps acc) fun _ => hmore n

theorem records_withoutElements (hev : ev.Recording allowed among) (ctx : Context)
    (removed : List Token) {nodes : List Node} (hns : ∀ n ∈ nodes, n.Inert ev.isKnown) :
    Records allowed (withoutElements ev ctx removed nodes) := by
  induction nodes with
  | nil => exact records_pure _
  | cons n ns ih =>
    obtain ⟨hn, hns⟩ := List.forall_mem_cons.mp hns
    refine records_then (records_token? hev hn.confined ctx) fun t =>
      records_then (ih hns) fun rest => ?_
    cases t with
    | some t => exact records_pure _
    | none => exact records_pure _

theorem records_recordEntries (hev : ev.Recording allowed among) (call : Call) (ctx : Context)
    (component : Component) (fields : List (String × Option String)) {params : List Node}
    (hps : ∀ p ∈ params, p.Confined ev.isKnown among) :
    Records allowed (recordEntries ev call ctx component fields params) := by
  induction fields generalizing params with
  | nil => exact records_pure _
  | cons field fields ih =>
    obtain ⟨key, fallback⟩ := field
    cases params with
    | nil =>
      cases fallback with
      | none => exact records_pure _
      | some fallback => exact records_also (ih (by simp)) fun es => records_pure _
    | cons p ps =>
      obtain ⟨hp, hps⟩ := List.forall_mem_cons.mp hps
      refine records_also (records_requireToken hev hp ctx) fun t => ?_
      cases component.fault? t.value with
      | none => exact records_also (ih hps) fun es => records_pure _
      | some fault => exact records_map (records_invalidArgument call p fault)

end

theorem recording_combine : combine.Recording := by
  intro ev allowed among hev call ctx hps _ _
  refine records_given (records_combineAll hev call ctx hps .nothing) fun acc => ?_
  cases acc with
  | nothing => exact records_pure _
  | items ns => exact records_pure _
  | entries es => exact records_pure _

theorem recording_remove : remove.Recording := by
  intro ev allowed among hev call ctx hps _ _
  refine records_withFirst fun collection tokens hparams => ?_
  have htokens : ∀ t ∈ tokens, t.Confined ev.isKnown among := fun t ht =>
    hps t (by simp [hparams, ht])
  refine records_given (records_requireTokens hev htokens ctx) fun removed => ?_
  refine records_bind (hev.reduce (hps collection (by simp [hparams])) ctx)
    (hev.faithful.reduce collection ctx).gives fun out hout => ?_
  split
  next items o =>
    exact records_map (records_withoutElements hev ctx removed (Node.inert_array.mp hout))
  next => exact records_pure _
  next => exact records_pure _
  next => exact records_ite (fun _ => records_pure _) fun _ => records_invalidArgument call _ _
  next => exact records_invalidArgument call _ _

theorem recording_record (k : RecordKind) : (record k).Recording := by
  intro ev allowed among hev call ctx hps _ _
  refine records_ite (fun _ => ?_) fun _ => records_wrongArity call k.arity
  exact records_given (records_recordEntries hev call ctx k.component k.fields hps) fun es =>
    records_pure _

/-! ### Bindings -/

/-- The copy of a value is marked with the identity of the call; a default is a parameter. -/
theorem recording_readBinding : readBinding.Recording := by
  intro ev allowed among hev call ctx hps _ hcopies
  refine records_withFirst fun name others hparams =>
    records_given (records_requireToken hev (hps name (by simp [hparams])) ctx) fun name => ?_
  split
  next value _ => exact hcopies value
  next =>
    split
    next fallback others => exact hev.reduce (hps fallback (by simp [hparams])) ctx
    next => exact records_then (records_report _ _) fun _ => records_pure _

/-! ### Choices -/

section

variable {ev : Evaluator} {allowed : String → String → List Bool → Prop} {among : Call → Prop}

theorem records_withMembers (hev : ev.Recording allowed among) {call : Call} (ctx : Context)
    (hps : ∀ p ∈ call.params, p.Confined ev.isKnown among)
    {f : Node → List Node → ChoiceOptions → Walk Outcome}
    (hf : ∀ list members options, (∀ m ∈ members, m.Confined ev.isKnown among) →
      Records allowed (f list members options)) :
    Records allowed (withMembers ev call ctx f) := by
  refine records_withFirst fun list options hparams => ?_
  have hlist : list.Confined ev.isKnown among := hps list (by simp [hparams])
  have hoptions : ∀ o ∈ options, o.Confined ev.isKnown among := fun o ho =>
    hps o (by simp [hparams, ho])
  refine records_given_of (records_members hev hlist call ctx) (gives_members hev hlist call ctx)
    fun members hmembers => records_given (records_requireTokens hev hoptions ctx) fun tokens => ?_
  split
  next => exact records_invalidArgument call _ _
  next => exact hf _ _ _ hmembers.1

theorem records_weights (hev : ev.Recording allowed among) (ctx : Context) {nodes : List Node}
    (hns : ∀ n ∈ nodes, n.Confined ev.isKnown among) : Records allowed (weights ev ctx nodes) := by
  induction nodes with
  | nil => exact records_pure _
  | cons n ns ih =>
    obtain ⟨hn, hns⟩ := List.forall_mem_cons.mp hns
    have hmore : ∀ x : Float, Records allowed
        ((weights ev ctx ns).also fun xs => return .ok (x :: xs)) := fun x =>
      records_also (ih hns) fun xs => records_pure _
    have hweight : ∀ t, Records allowed (weightOf t) := fun t => by
      unfold weightOf
      split
      · exact records_pure _
      · exact records_then (records_remarkAt _ _ _) fun _ => records_pure _
    unfold weights
    split
    next => exact hmore 1.0
    next node hnode =>
      refine records_then (records_requireToken hev (hn.memberEntry hnode) ctx) fun r => ?_
      split
      next t => exact records_then (hweight t) hmore
      next => exact records_pure _
      next => exact hmore 1.0

end

theorem recording_choose : choose.Recording := by
  intro ev allowed among hev call ctx hps _ _
  refine records_withMembers hev ctx hps fun list members options hmembers =>
    records_then (records_sample _ _ _) fun i => ?_
  split
  next member hmember => exact hev.reduce (hmembers member (List.mem_of_getElem? hmember)) ctx
  next => exact records_pure _

theorem recording_chooseWeighted : chooseWeighted.Recording := by
  intro ev allowed among hev call ctx hps _ _
  simp only [chooseWeighted, Function.forgetful]
  refine records_withMembers hev ctx hps fun list members options hmembers =>
    records_given (records_weights hev ctx hmembers) fun xs => ?_
  split
  next => exact records_invalidArgument call _ _
  next x xs =>
    refine records_ite (fun _ => records_invalidArgument call _ _) fun _ =>
      records_ite (fun _ => records_halt _) fun _ => records_then (records_sample _ _ _) fun i => ?_
    split
    next member hmember =>
      exact hev.reduce ((hmembers member (List.mem_of_getElem? hmember)).strip _ _) ctx
    next => exact records_pure _

/-! ### Filters -/

section

variable {ev : Evaluator} {allowed : String → String → List Bool → Prop} {among : Call → Prop}

theorem records_admits (hev : ev.Recording allowed among) (ctx : Context) {member : Node}
    (hn : member.Confined ev.isKnown among) : Records allowed (admits ev ctx member) := by
  unfold admits
  split
  next => exact records_pure _
  next node hnode =>
    refine records_also (records_requireToken hev (hn.memberEntry hnode) ctx) fun t =>
      records_then (records_askCondition _ _) fun answer => ?_
    split
    next => exact records_pure _
    next => exact records_pure _

theorem records_keepMembers (hev : ev.Recording allowed among) (ctx : Context) (flatten : Bool)
    {nodes : List Node} (hns : ∀ n ∈ nodes, n.Confined ev.isKnown among) :
    Records allowed (keepMembers ev ctx flatten nodes) := by
  induction nodes with
  | nil => exact records_pure _
  | cons n ns ih =>
    obtain ⟨hn, hns⟩ := List.forall_mem_cons.mp hns
    refine records_also (records_admits hev ctx hn) fun answer =>
      records_ite (fun _ => ?_) fun _ => ?_
    · exact records_also (ih hns) fun r => records_pure _
    · refine records_then (hev.reduce (hn.strip _ _) ctx) fun o => ?_
      split
      next => exact records_pure _
      next => exact records_also (ih hns) fun r => records_pure _

end

/-- A token that is required is the one that stands there. -/
theorem gives_requireToken_token {ev : Evaluator} (hev : ev.Faithful) (t : Token) (ctx : Context) :
    Reduce.Gives (fun r => ∀ t', r = .ok t' → t'.value = t.value)
      (ev.requireToken (.token t) ctx) := by
  have hreduce := hev.still (.token t) ctx (Node.inert_token t)
  refine meets_bind (hreduce.mono (Terms.quietIf_covers_any True) id fun _ h => h) fun o ho => ?_
  obtain ⟨m, rfl, hm⟩ := ho
  obtain ⟨t', rfl, ht⟩ := hm.token
  refine meets_pure fun t'' h => ?_
  obtain rfl : t' = t'' := Except.ok.inj h
  exact ht.value.symm

/-- **Whether a member is decided by an answer**: by that of the host to its condition, or by none
if it has no condition. -/
def DecidedBy (host : Host) (member : Node) (answer : Option Bool) : Prop :=
  match memberEntry conditionKey member with
  | some (.token t) => answer.isSome = true ∧ host.condition t.value = answer
  | _ => answer = none

/-- The answer that decides a member stands before those to the members after it. -/
theorem currentAnswers_cons {host : Host} {n : Node} (hn : Spelled n) {answer : Option Bool}
    (h : DecidedBy host n answer) {ns : List Node} {rest : List Bool}
    (hrest : (currentAnswers host ns).1 = some rest) :
    (currentAnswers host (n :: ns)).1 = some (answer.toList ++ rest) := by
  unfold currentAnswers
  cases hentry : memberEntry conditionKey n with
  | none =>
    rw [DecidedBy, hentry] at h
    obtain rfl : answer = none := h
    simpa using hrest
  | some node =>
    obtain ⟨t, rfl⟩ := hn node hentry
    rw [DecidedBy, hentry] at h
    obtain ⟨hsome, hcondition⟩ := h
    obtain ⟨value, rfl⟩ := Option.isSome_iff_exists.mp hsome
    simp [hcondition, hrest]

/-- A condition that is spelled out is decided by the host's answer to it. -/
theorem gives_admits {ev : Evaluator} (hev : ev.Faithful) (ctx : Context) {member : Node}
    (hmember : Spelled member) :
    Reduce.Gives (fun r => ∀ answer, r = .ok answer → DecidedBy ev.host member answer)
      (admits ev ctx member) := by
  unfold DecidedBy
  unfold admits
  cases hentry : memberEntry conditionKey member with
  | none => exact meets_pure fun answer h => (Except.ok.inj h).symm
  | some node =>
    obtain ⟨t, rfl⟩ := hmember node hentry
    refine meets_bind (gives_requireToken_token hev t ctx) fun r hr => ?_
    cases r with
    | error o => exact meets_pure nofun
    | ok t' =>
      intro s _
      refine ⟨fun h => h.elim, fun _ _ => trivial, fun h => h.elim, fun a ha answer hanswer => ?_⟩
      obtain ⟨b, hb, hfa, -⟩ := answer_of_bind ha
      obtain rfl : ev.host.condition t'.value = b := Except.ok.inj hb
      rw [hr t' rfl] at hfa
      cases hcondition : ev.host.condition t.value with
      | none =>
        rw [hcondition] at hfa
        obtain rfl : Except.error Outcome.pending = a := Except.ok.inj hfa
        exact nomatch hanswer
      | some value =>
        rw [hcondition] at hfa
        obtain rfl : Except.ok (some value) = a := Except.ok.inj hfa
        obtain rfl : some value = answer := Except.ok.inj hanswer
        exact ⟨rfl, hcondition⟩

/-- **A list with conditions that are spelled out is decided by the host's answers to them.** -/
theorem gives_keepMembers {ev : Evaluator} (hev : ev.Faithful) (ctx : Context) (flatten : Bool)
    {nodes : List Node} (hns : ∀ n ∈ nodes, Spelled n) :
    Reduce.Gives (fun r => ∀ kept, r = .ok kept →
        (currentAnswers ev.host nodes).1 = some kept.2)
      (keepMembers ev ctx flatten nodes) := by
  induction nodes with
  | nil =>
    refine meets_pure fun kept h => ?_
    obtain rfl : ([], []) = kept := Except.ok.inj h
    rfl
  | cons n ns ih =>
    obtain ⟨hn, hns⟩ := List.forall_mem_cons.mp hns
    refine meets_bind (gives_admits hev ctx hn) fun r hr => ?_
    cases r with
    | error o => exact meets_pure nofun
    | ok answer =>
      have hstep : ∀ {rest}, (currentAnswers ev.host ns).1 = some rest →
          (currentAnswers ev.host (n :: ns)).1 = some (answer.toList ++ rest) := fun hrest =>
        currentAnswers_cons hn (hr answer rfl) hrest
      refine meets_ite (fun hfalse => ?_) fun _ => ?_
      · refine meets_bind (ih hns) fun r' hr' => ?_
        cases r' with
        | error o => exact meets_pure nofun
        | ok rest =>
          refine meets_pure fun kept h => ?_
          obtain rfl := Except.ok.inj h
          rw [hstep (hr' rest rfl), hfalse]
          rfl
      · refine Reduce.gives_after fun o => ?_
        split
        next => exact meets_pure nofun
        next =>
          refine meets_bind (ih hns) fun r' hr' => ?_
          cases r' with
          | error o => exact meets_pure nofun
          | ok rest =>
            refine meets_pure fun kept h => ?_
            obtain rfl := Except.ok.inj h
            exact hstep (hr' rest rfl)

/-- **A filter remembers what it was decided by**, after everything that is remembered on the
way. -/
theorem recording_filter : filter.Recording := by
  intro ev allowed among hev call ctx hps hallowed _
  refine records_withFirst fun list options hparams => ?_
  have hlist : list.Confined ev.isKnown among := hps list (by simp [hparams])
  have hoptions : ∀ o ∈ options, o.Confined ev.isKnown among := fun o ho =>
    hps o (by simp [hparams, ho])
  refine records_given_of (records_members hev hlist call ctx) (gives_members hev hlist call ctx)
    fun members hmembers => records_given (records_requireTokens hev hoptions ctx) fun tokens => ?_
  have hdecided : Reduce.Gives (fun r => ∀ kept, r = .ok kept → Answered ev.host call kept.2)
      (keepMembers ev ctx (tokens.any (·.value == flattenOption)) members) := by
    by_cases hspelled : ∀ m ∈ members, Spelled m
    · refine (gives_keepMembers hev.faithful ctx _ hspelled).imp fun r hr kept hkept => ?_
      rintro items o rest hcall -
      have hlist : list = .array items o := (List.cons.inj (hparams.symm.trans hcall)).1
      rw [← hmembers.2 items o hlist]
      exact hr kept hkept
    · refine (Reduce.gives_any _).imp fun r _ kept _ => ?_
      rintro items o rest hcall hitems
      have hlist : list = .array items o := (List.cons.inj (hparams.symm.trans hcall)).1
      rw [← hmembers.2 items o hlist] at hitems
      exact absurd hitems hspelled
  refine records_given_of (records_keepMembers hev ctx _ hmembers.1) hdecided fun kept hkept => ?_
  exact records_then (records_remember (hallowed rfl kept.2 hkept)) fun _ => records_pure _

end Library

/-! ### All functions -/

/-- **The functions of the language remember what is allowed.** -/
theorem Function.recording_builtin : ∀ e ∈ Registry.builtin, e.2.Recording := by
  open Library in
  simp only [Registry.builtin, List.forall_mem_cons]
  exact ⟨recording_assetWith fun ev path => records_askAsset ev.host path,
    recording_assetWith fun ev path => records_pure _, recording_concatenate, recording_join,
    recording_choose, recording_chooseWeighted, recording_filter, recording_combine,
    recording_remove, recording_record _, recording_record _, recording_record _,
    recording_record _, recording_readBinding, by simp⟩

end ContentLang
