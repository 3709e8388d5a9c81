import ContentLang.Proofs.Loading.Ready
import ContentLang.Proofs.Nodes.Entries

/-!
# What a walk remembers

Walks put answers into the memory of the engine, and none of them looks at what is there. So a
run takes the same **course** (`ContentLang.Walk.Course`) whatever was remembered before it: it
comes to the same answer, and adds the same entries to the memory.

A walk **records** what a condition on entries allows (`ContentLang.Walk.Records`) if it takes
such a course from each generator, and each entry that it adds satisfies the condition. Also a
walk that is given up or waits does so; what it has remembered until then stays.
-/

namespace ContentLang

namespace Walk

/-- How a run goes, whatever was remembered before it. -/
structure Course (α : Type) where
  answer : Except Halt α
  generator : Generator
  /-- What is remembered on the way. -/
  added : Memory
  notes : List Note

/-- The run that takes a course, when something is remembered before it. -/
def Course.run {α : Type} (c : Course α) (memory : Memory) : Walked α :=
  ⟨c.answer, ⟨c.generator, Entries.overlay memory c.added⟩, c.notes⟩

/-- **Whether a walk records what is allowed**: from each generator it takes a course, and what
it adds on the way is allowed. -/
def Records {α : Type} (allowed : String → String → List Bool → Prop) (m : Walk α) : Prop :=
  ∀ g, ∃ c : Course α, (∀ e ∈ c.added, allowed e.1.1 e.1.2 e.2) ∧
    ∀ memory, m ⟨g, memory⟩ = c.run memory

variable {α β : Type} {allowed : String → String → List Bool → Prop} {m : Walk α} {f : α → Walk β}

/-- A walk that adds nothing and draws nothing. -/
theorem records_of_eq (answer : Except Halt α) (notes : List Note)
    (h : ∀ s, m s = ⟨answer, s, notes⟩) : Records allowed m :=
  fun g => ⟨⟨answer, g, [], notes⟩, by simp, fun memory => h ⟨g, memory⟩⟩

theorem records_pure (a : α) : Records allowed (pure a : Walk α) :=
  records_of_eq (.ok a) [] fun _ => rfl

theorem records_halt (h : Halt) : Records allowed (halt h : Walk α) :=
  records_of_eq (.error h) [] fun _ => rfl

theorem records_leave (notes : List Note) : Records allowed (leave notes) :=
  records_of_eq (.ok ()) notes fun _ => rfl

theorem records_report (origin : Origin) (problem : Problem) :
    Records allowed (report origin problem) :=
  records_leave _

theorem records_remarkAt (level : Level) (location : Location) (text : String) :
    Records allowed (remarkAt level location text) :=
  records_leave _

theorem records_askAsset (host : Host) (path : String) : Records allowed (askAsset host path) :=
  records_of_eq _ _ fun _ => rfl

theorem records_askFile (host : Host) (path : String) : Records allowed (askFile host path) :=
  records_of_eq _ _ fun _ => rfl

theorem records_askCondition (host : Host) (text : String) :
    Records allowed (askCondition host text) :=
  records_of_eq _ _ fun _ => rfl

theorem records_askRandom (host : Host) (seed : UInt64) (isStatic : Bool) :
    Records allowed (askRandom host seed isStatic) :=
  records_of_eq _ _ fun _ => rfl

theorem records_draw (sample : Generator → Option (α × Generator)) :
    Records allowed (draw sample) := by
  intro g
  cases h : sample g with
  | none => exact ⟨⟨.error .exhausted, g, [], []⟩, by simp, fun memory => by
      simp [draw, h, Course.run, Entries.overlay]⟩
  | some r => exact ⟨⟨.ok r.1, r.2, [], []⟩, by simp, fun memory => by
      simp [draw, h, Course.run, Entries.overlay]⟩

/-- What is remembered has to be allowed. -/
theorem records_remember {function uid : String} {answers : List Bool}
    (h : allowed function uid answers) : Records allowed (remember function uid answers) :=
  fun g => ⟨⟨.ok (), g, [((function, uid), answers)], []⟩, by simpa using h, fun _ => rfl⟩

/-- **Walks one after the other** add their entries one after the other. What comes second need
only be looked at after the answers that the first walk gives. -/
theorem records_bind {P : α → Prop} (hm : Records allowed m) (hP : Reduce.Gives P m)
    (hf : ∀ a, P a → Records allowed (f a)) : Records allowed (m >>= f) := by
  intro g
  obtain ⟨c, hadded, hrun⟩ := hm g
  cases hanswer : c.answer with
  | error e =>
    refine ⟨⟨.error e, c.generator, c.added, c.notes⟩, hadded, fun memory => ?_⟩
    have herror : (m ⟨g, memory⟩).answer = .error e := by rw [hrun, Course.run, hanswer]
    rw [bind_error herror, hrun]
    rfl
  | ok a =>
    have hok : ∀ memory, (m ⟨g, memory⟩).answer = .ok a := fun memory => by
      rw [hrun, Course.run, hanswer]
    obtain ⟨c', hadded', hrun'⟩ := hf a (Reduce.gives_answer hP (hok [])) c.generator
    refine ⟨⟨c'.answer, c'.generator, c.added ++ c'.added, c.notes ++ c'.notes⟩, ?_,
      fun memory => ?_⟩
    · intro e he
      rcases List.mem_append.mp he with he | he
      · exact hadded e he
      · exact hadded' e he
    · rw [bind_ok (hok memory), hrun, Course.run, hrun']
      simp only [Course.run, Entries.overlay_append]

/-- Walks one after the other, where nothing is needed of the answer between them. -/
theorem records_then (hm : Records allowed m) (hf : ∀ a, Records allowed (f a)) :
    Records allowed (m >>= f) :=
  records_bind hm (Reduce.gives_any m) fun a _ => hf a

theorem records_map {f : α → β} (hm : Records allowed m) :
    Records allowed (m >>= fun a => pure (f a)) :=
  records_then hm fun _ => records_pure _

theorem records_ite {c : Prop} [Decidable c] {m n : Walk α} (hm : c → Records allowed m)
    (hn : ¬ c → Records allowed n) : Records allowed (if c then m else n) := by
  split
  next h => exact hm h
  next h => exact hn h

theorem records_given {m : Walk (Except Outcome α)} {f : α → Walk Outcome}
    (hm : Records allowed m) (hf : ∀ a, Records allowed (f a)) : Records allowed (m.given f) := by
  refine records_then hm fun r => ?_
  cases r with
  | ok a => exact hf a
  | error o => exact records_pure _

theorem records_also {m : Walk (Except Outcome α)} {f : α → Walk (Except Outcome β)}
    (hm : Records allowed m) (hf : ∀ a, Records allowed (f a)) : Records allowed (m.also f) := by
  refine records_then hm fun r => ?_
  cases r with
  | ok a => exact hf a
  | error o => exact records_pure _

/-- A proper answer is gone on with, given what the walk gives. -/
theorem records_given_of {P : α → Prop} {m : Walk (Except Outcome α)} {f : α → Walk Outcome}
    (hm : Records allowed m) (hP : Reduce.Gives (fun r => ∀ a, r = .ok a → P a) m)
    (hf : ∀ a, P a → Records allowed (f a)) : Records allowed (m.given f) := by
  refine records_bind hm hP fun r hr => ?_
  cases r with
  | ok a => exact hf a (hr a rfl)
  | error o => exact records_pure _

end Walk

end ContentLang
