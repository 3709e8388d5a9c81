import ContentLang.Proofs.Loading.Blind
import ContentLang.Proofs.Memory.Alarm

/-!
# What an unready run leaves behind

A run of consumption that meets something that is not ready comes to nothing, and can be tried again
later. It is not undone: what it reported before stays reported, and what filters that came to
their end remembered stays remembered. Nothing else is left
(`ContentLang.Engine.unready_leaves`):

| | what an unready run leaves | none is left if |
|---|---|---|
| diagnostics | all it reported | it reported none |
| memory | what it would remember if it started with nothing | that is remembered already |

A run takes the same course whatever is remembered (`ContentLang.Walk.Course`), so that trying again
reports the same problems a second time, and remembers nothing more. A filter that waits for one of
its own conditions has remembered nothing, as it does so at its end.
-/

namespace ContentLang

open Reduce Uid Walk

/-- **Whether not all of the conditions of a call are answered**, where the list is written out with
conditions that are tokens. -/
def Library.Unanswered (host : Host) (call : Call) : Prop :=
  ∃ items o rest, call.params = .array items o :: rest ∧ (∀ member ∈ items, Spelled member) ∧
    (currentAnswers host items).1 = none

/-- No answers are those that a call is decided by that has no answer to one of its conditions. -/
theorem Library.Unanswered.not_answered {host : Host} {call : Call} (h : Unanswered host call)
    (answers : List Bool) : ¬ Answered host call answers := by
  obtain ⟨items, o, rest, hparams, hspelled, hnone⟩ := h
  intro hanswered
  exact nomatch hnone.symm.trans (hanswered items o rest hparams hspelled)

namespace Engine

variable {e : Engine}

/-- The functions that consumption can be followed with: those of the language, and others that
propagate what is not ready and remember nothing but what their calls are decided by. -/
def Followed (e : Engine) : Prop :=
  ∀ f ∈ e.registry, f ∈ Registry.builtin ∨ f.2.Ready ∧ f.2.Recording

theorem Followed.ready (h : e.Followed) : ∀ f ∈ e.registry, f.2.Ready := fun f hf =>
  (h f hf).elim Function.ready_builtin (·.1)

theorem Followed.recording (h : e.Followed) (file : String) :
    (e.surroundings true file).Recording where
  faithful := ⟨rfl, fun f hf => (h.ready f hf).faithful⟩
  functions := fun f hf => by
    rcases h f hf with hbuiltin | ⟨-, hrecording⟩
    · exact Function.recording_builtin f hbuiltin
    · exact hrecording

/-- What the run that consumes a node remembers of its own: what is there after it, if nothing was
there before. -/
def remembers (e : Engine) (node : Node) (key : String × String) : Option (List Bool) :=
  Entries.get? (e.forgetful.resolve node).engine.state.memory key

/-- What the run that consumes a node reports. -/
def reported (e : Engine) (node : Node) : List Diagnostic := diagnosticsOf (e.resolve node).notes

/-- **Whether an engine holds what another one held**: the same problems to be taken, and the same
answers that are remembered. -/
structure Holds (e' e : Engine) : Prop where
  diagnostics : e'.diagnostics = e.diagnostics
  memory : ∀ key, Entries.get? e'.state.memory key = Entries.get? e.state.memory key

/-- A node is consumed in the same way whatever is remembered. -/
theorem consumption_course (h : e.Followed) (node : Node) :
    ∃ course : Course Outcome,
      ∀ memory, (e.remembering memory).consumption node = course.run memory := by
  have hallowed : Entitled e.host (fun _ _ _ => True) fun _ => True :=
    ⟨fun _ _ _ => trivial, fun _ _ _ _ => trivial⟩
  have hconfined : node.Confined (Registry.isKnown e.registry) fun _ => True :=
    fun _ _ _ => trivial
  obtain ⟨course, -, hrun⟩ := records_reduce (h.recording node.location.file) hallowed hconfined
    node.origin.context e.state.generator
  exact ⟨course, hrun⟩

/-- **What is remembered after a node was consumed** is what the run remembered of its own, and
else what was remembered before. -/
theorem get?_memory_resolve (h : e.Followed) (node : Node) (key : String × String) :
    Entries.get? (e.resolve node).engine.state.memory key =
      (e.remembers node key).or (Entries.get? e.state.memory key) := by
  obtain ⟨course, hrun⟩ := consumption_course h node
  have hmemory : ∀ memory, ((e.remembering memory).resolve node).engine.state.memory =
      Entries.overlay memory course.added := fun memory =>
    congrArg (·.state.memory) (hrun memory)
  have hown : (e.resolve node).engine.state.memory =
      Entries.overlay e.state.memory course.added := hmemory e.state.memory
  have hfresh : (e.forgetful.resolve node).engine.state.memory =
      Entries.overlay [] course.added := hmemory []
  rw [remembers, hown, hfresh, Entries.get?_overlay]

/-- What was reported is put behind the problems that were there. -/
theorem diagnostics_resolve (node : Node) :
    (e.resolve node).engine.diagnostics = e.diagnostics ++ e.reported node := rfl

/-- **A run leaves nothing** exactly if it reports nothing, and remembers nothing that is not
remembered already. -/
theorem resolve_holds_iff (h : e.Followed) (node : Node) :
    (e.resolve node).engine.Holds e ↔ e.reported node = [] ∧
      ∀ key answers, e.remembers node key = some answers →
        Entries.get? e.state.memory key = some answers := by
  constructor
  · rintro ⟨hdiagnostics, hmemory⟩
    refine ⟨List.append_right_eq_self.mp hdiagnostics, fun key answers hanswers => ?_⟩
    rw [← hmemory, get?_memory_resolve h, hanswers, Option.some_or]
  · rintro ⟨hnone, hknown⟩
    refine ⟨by rw [diagnostics_resolve, hnone, List.append_nil], fun key => ?_⟩
    rw [get?_memory_resolve h]
    cases hown : e.remembers node key with
    | none => rfl
    | some answers => rw [hknown key answers hown, Option.some_or]

/-- The engine after a node was consumed, with the generator that it had before. -/
def again (e : Engine) (node : Node) : Engine :=
  { (e.resolve node).engine with
    state := ⟨e.state.generator, (e.resolve node).engine.state.memory⟩ }

/-- **Trying again takes the same course**: it comes to the same, reports the same problems once
more, and remembers nothing more. -/
theorem resolve_again (h : e.Followed) (node : Node) :
    ((e.again node).resolve node).answer = (e.resolve node).answer ∧
      ((e.again node).resolve node).engine.diagnostics =
        e.diagnostics ++ e.reported node ++ e.reported node ∧
      ∀ key, Entries.get? ((e.again node).resolve node).engine.state.memory key =
        Entries.get? (e.resolve node).engine.state.memory key := by
  obtain ⟨course, hrun⟩ := consumption_course h node
  have hfirst : e.consumption node = course.run e.state.memory := hrun e.state.memory
  have hsecond : (e.again node).consumption node =
      course.run (e.resolve node).engine.state.memory := hrun _
  have hmemory : (e.resolve node).engine.state.memory =
      Entries.overlay e.state.memory course.added := congrArg (·.state.memory) hfirst
  have hagain : ((e.again node).resolve node).engine.state.memory =
      Entries.overlay (e.resolve node).engine.state.memory course.added :=
    congrArg (·.state.memory) hsecond
  refine ⟨?_, ?_, fun key => ?_⟩
  · rw [resolve_answer, resolve_answer, hfirst, hsecond]
    rfl
  · have hnotes : ((e.again node).resolve node).notes = (e.resolve node).notes := by
      rw [resolve_notes, resolve_notes, hfirst, hsecond]
      rfl
    rw [diagnostics_resolve, reported, hnotes]
    rfl
  · rw [hagain, hmemory, Entries.get?_overlay (Entries.overlay _ _),
      Entries.get?_overlay e.state.memory, ← Option.or_assoc, Option.or_self]

/-- A filter that has no answer to one of its conditions has remembered nothing. -/
theorem memory_of_unanswered (hregistry : e.registry = .builtin) {node : Node}
    (hnode : AllApart node.uids) {c : Call} (hc : c ∈ node.calls)
    (hwaits : Library.Unanswered e.host c) :
    Entries.get? (e.resolve node).engine.state.memory (c.function, c.origin.uid) =
      Entries.get? e.state.memory (c.function, c.origin.uid) := by
  obtain ⟨course, hadded, hrun⟩ := exists_course hregistry hnode
  have hown : (e.resolve node).engine.state.memory =
      Entries.overlay e.state.memory course.added :=
    congrArg (·.state.memory) (hrun e.state.memory)
  rw [hown, Entries.get?_overlay]
  cases hfound : Entries.get? (Entries.overlay [] course.added) (c.function, c.origin.uid) with
  | none => rfl
  | some answers =>
    obtain ⟨key, hkey, hsame⟩ := Entries.exists_of_get?_overlay hfound
    exact absurd (hadded _ hkey c hc (eq_of_beq hsame).symm) (hwaits.not_answered answers)

/-- **What an unready run leaves behind.** If a node comes to nothing, a condition was asked for
that the host has no answer to. The engine then holds what it held before exactly if nothing was
reported, and nothing was remembered on the way that was not remembered already; a filter of the
node that waits for one of its own conditions never remembers anything. Trying again with the same
generator comes to nothing, reports the same problems a second time, and remembers nothing more. -/
theorem unready_leaves (e : Engine) (node : Node) (h : e.Followed)
    (hnone : (e.resolve node).answer = .ok none) :
    Blocked e.host (e.resolve node).notes ∧
      ((e.resolve node).engine.Holds e ↔ e.reported node = [] ∧
        ∀ key answers, e.remembers node key = some answers →
          Entries.get? e.state.memory key = some answers) ∧
      (e.registry = .builtin → AllApart node.uids → ∀ c ∈ node.calls,
        Library.Unanswered e.host c →
          Entries.get? (e.resolve node).engine.state.memory (c.function, c.origin.uid) =
            Entries.get? e.state.memory (c.function, c.origin.uid)) ∧
      ((e.again node).resolve node).answer = .ok none ∧
      ((e.again node).resolve node).engine.diagnostics =
        e.diagnostics ++ e.reported node ++ e.reported node ∧
      ∀ key, Entries.get? ((e.again node).resolve node).engine.state.memory key =
        Entries.get? (e.resolve node).engine.state.memory key := by
  obtain ⟨hanswer, hdiagnostics, hmemory⟩ := resolve_again h node
  exact ⟨(blocked_iff h.ready hnone).mp (.inl rfl), resolve_holds_iff h node,
    fun hregistry hnode c hc hwaits => memory_of_unanswered hregistry hnode hc hwaits,
    hanswer.trans hnone, hdiagnostics, hmemory⟩

/-- A host that answers one condition and no other. -/
def oneCondition (a : Bool) : Host :=
  .plain (fun s => if s = "a" then some a else none) fun _ => none

/-- A filter whose second condition has no answer, the first having one: it waits, and nothing is
left of the run. -/
theorem unready_leaves_filter :
    let text := "FilterByCondition([\x7bCondition: a; V: 1\x7d, \x7bCondition: c; V: 2\x7d])"
    let e₀ := Engine.start .standard (oneCondition true) 0
    let e := (e₀.loadText text "main.txt").engine
    ∃ l, (e₀.loadText text "main.txt").answer = .ok l ∧ e.Followed ∧
      (e.resolve l.root).answer = .ok none ∧ (e.resolve l.root).engine.Holds e := by
  intro text e₀ e
  have hrun : ((e₀.loadText text "main.txt").answer.toOption.any fun l =>
      ((e.resolve l.root).answer.toOption.any Option.isNone) &&
        decide ((e.reported l.root).length = 0 ∧
          (e.forgetful.resolve l.root).engine.state.memory = [])) = true := by decide +kernel
  obtain ⟨l, hload, hl⟩ := (Option.any_eq_true _ _).mp hrun
  obtain ⟨hanswer, hleft⟩ := Bool.and_eq_true_iff.mp hl
  obtain ⟨r, hr, hisNone⟩ := (Option.any_eq_true _ _).mp hanswer
  obtain rfl : r = none := Option.isNone_iff_eq_none.mp hisNone
  obtain ⟨hreported, hmemory⟩ := of_decide_eq_true hleft
  have hfollowed : e.Followed := fun f hf => .inl hf
  have hnone := toOption_eq_some.mp hr
  refine ⟨l, toOption_eq_some.mp hload, hfollowed, hnone,
    (unready_leaves e l.root hfollowed hnone).2.1.mpr
      ⟨List.eq_nil_of_length_eq_zero hreported, fun key answers hanswers => ?_⟩⟩
  rw [remembers, hmemory] at hanswers
  exact nomatch hanswers

/-- **An unready run may leave something behind**: the root comes to nothing, since a condition of
its third element has no answer, but the problem of the first element was reported, and what the
second element was decided by is remembered. When that condition changes there is an alarm, although
nothing was delivered. -/
theorem unready_leaves_traces :
    let filter (c v : String) :=
      "FilterByCondition([\x7bCondition: " ++ c ++ "; V: " ++ v ++ "\x7d])"
    let text := "Choose([]); " ++ filter "a" "1" ++ "; " ++ filter "c" "2"
    let e₀ := Engine.start .standard (oneCondition true) 0
    let e := (e₀.loadText text "main.txt").engine
    ∃ l, (e₀.loadText text "main.txt").answer = .ok l ∧ (e.resolve l.root).answer = .ok none ∧
      e.diagnostics = [] ∧ e.state.memory = [] ∧
      (e.resolve l.root).engine.diagnostics.length = 1 ∧
      (e.resolve l.root).engine.state.memory.map (·.2) = [[true]] ∧
      (((e.resolve l.root).engine.withHost (oneCondition false)).wouldChange l).1 = true := by
  intro filter text e₀ e
  have hrun : ((e₀.loadText text "main.txt").answer.toOption.any fun l =>
      ((e.resolve l.root).answer.toOption.any Option.isNone) &&
        decide (e.diagnostics.length = 0 ∧ e.state.memory = [] ∧
          (e.resolve l.root).engine.diagnostics.length = 1 ∧
          (e.resolve l.root).engine.state.memory.map (·.2) = [[true]] ∧
          (((e.resolve l.root).engine.withHost (oneCondition false)).wouldChange l).1 = true)) =
      true := by decide +kernel
  obtain ⟨l, hload, hl⟩ := (Option.any_eq_true _ _).mp hrun
  obtain ⟨hanswer, hleft⟩ := Bool.and_eq_true_iff.mp hl
  obtain ⟨r, hr, hisNone⟩ := (Option.any_eq_true _ _).mp hanswer
  obtain rfl : r = none := Option.isNone_iff_eq_none.mp hisNone
  obtain ⟨hdiagnostics, hmemory, hreported, hremembered, halarm⟩ := of_decide_eq_true hleft
  exact ⟨l, toOption_eq_some.mp hload, toOption_eq_some.mp hr,
    List.eq_nil_of_length_eq_zero hdiagnostics, hmemory, hreported, hremembered, halarm⟩

end Engine

end ContentLang
