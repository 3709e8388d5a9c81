import ContentLang.Evaluator
import ContentLang.Proofs.Walk.Inert
import ContentLang.Proofs.Walk.Parts

/-!
# What is not ready

A host may have no answer yet to a condition. What depends on it is not ready, and a walk
that comes upon it has to say so in its answer: the outcome is pending. A walk
**propagates** what is not ready (`ContentLang.Propagates`) if its answer says so exactly when
the host could not answer; with one exception, bindings, that are dropped when they are not
ready, on which the walk goes on without a word in its answer.

| | the notes of a run tell that |
|---|---|
| `ContentLang.Blocked` | a condition was asked for to which the host has no answer |
| `ContentLang.Dropped` | a binding was not made |

Walks are put together by `ContentLang.propagates_bind`: what comes after an answer that
waits has to wait too, or drop a binding.
-/

namespace ContentLang

/-! ### Runs that meet what is not ready -/

/-- Whether a condition was asked for that the host has no answer to. -/
def Blocked (host : Host) (notes : List Note) : Prop :=
  ∃ text, Note.asked (.condition text) ∈ notes ∧ host.condition text = none

/-- Whether a binding was not made. -/
def Dropped (notes : List Note) : Prop := ∃ call, Note.unbound call ∈ notes

variable {host : Host}

theorem blocked_append {ns ms : List Note} :
    Blocked host (ns ++ ms) ↔ Blocked host ns ∨ Blocked host ms := by
  simp only [Blocked, List.mem_append, or_and_right, exists_or]

theorem dropped_append {ns ms : List Note} : Dropped (ns ++ ms) ↔ Dropped ns ∨ Dropped ms := by
  simp only [Dropped, List.mem_append, exists_or]

/-- Whether this tells of a binding that was not made. -/
def Note.isUnbound : Note → Bool
  | unbound _ => true
  | _ => false

/-- A dropped binding can be found. -/
theorem dropped_iff {notes : List Note} : Dropped notes ↔ notes.any Note.isUnbound = true := by
  rw [List.any_eq_true]
  constructor
  · rintro ⟨call, hcall⟩
    exact ⟨_, hcall, rfl⟩
  · rintro ⟨note, hnote, hunbound⟩
    cases note with
    | unbound call => exact ⟨call, hnote⟩
    | _ => exact absurd hunbound Bool.false_ne_true

/-! ### Walks that never meet it -/

section

variable {α β : Type}

/-- Whether a walk asks for no condition and drops no binding. -/
def Silent (m : Walk α) : Prop :=
  ∀ s, (∀ text, Note.asked (.condition text) ∉ (m s).notes) ∧
    ∀ call, Note.unbound call ∉ (m s).notes

theorem Silent.not_blocked {m : Walk α} (h : Silent m) (s : WalkState) :
    ¬ Blocked host (m s).notes :=
  fun ⟨text, htext, _⟩ => (h s).1 text htext

theorem Silent.not_dropped {m : Walk α} (h : Silent m) (s : WalkState) : ¬ Dropped (m s).notes :=
  fun ⟨call, hcall⟩ => (h s).2 call hcall

theorem silent_pure (a : α) : Silent (pure a : Walk α) := fun _ => by simp [Walk.pure_apply]

theorem silent_halt (h : Halt) : Silent (Walk.halt h : Walk α) := fun _ => by simp [Walk.halt]

theorem silent_report (origin : Origin) (problem : Problem) :
    Silent (Walk.report origin problem) :=
  fun _ => by simp [Walk.report, Walk.leave]

theorem silent_reportAll (ds : List Diagnostic) : Silent (Walk.reportAll ds) :=
  fun _ => by simp [Walk.reportAll, Walk.leave]

theorem silent_remarkAt (level : Level) (location : Location) (text : String) :
    Silent (Walk.remarkAt level location text) :=
  fun _ => by simp [Walk.remarkAt, Walk.remark, Walk.leave]

theorem silent_askAsset (path : String) : Silent (Walk.askAsset host path) :=
  fun _ => by simp [Walk.askAsset, Walk.questionNotes]

theorem silent_askFile (path : String) : Silent (Walk.askFile host path) :=
  fun _ => by simp [Walk.askFile, Walk.questionNotes]

theorem silent_askRandom (seed : UInt64) (isStatic : Bool) :
    Silent (Walk.askRandom host seed isStatic) :=
  fun _ => by simp [Walk.askRandom, Walk.questionNotes]

theorem silent_draw (sample : Generator → Option (α × Generator)) : Silent (Walk.draw sample) := by
  intro s
  unfold Walk.draw
  split <;> simp

theorem silent_remember (function uid : String) (answers : List Bool) :
    Silent (Walk.remember function uid answers) :=
  fun _ => by simp [Walk.remember]

theorem silent_bind {m : Walk α} {f : α → Walk β} (hm : Silent m) (hf : ∀ a, Silent (f a)) :
    Silent (m >>= f) := by
  intro s
  cases ha : (m s).answer with
  | error e =>
    rw [Walk.bind_error ha]
    exact hm s
  | ok a =>
    rw [Walk.bind_ok ha]
    have h := hm s
    have h' := hf a (m s).state
    simp only [List.mem_append, not_or]
    exact ⟨fun text => ⟨h.1 text, h'.1 text⟩, fun call => ⟨h.2 call, h'.2 call⟩⟩

theorem Walk.Still.silent {ends : Prop} {P : α → Prop} {m : Walk α} (h : Walk.Still ends P m) :
    Silent m := by
  intro s
  have hremarks : ∀ note ∈ (m s).notes, note.IsRemark := fun note hnote =>
    (h s fun _ _ => trivial).notes note hnote trivial
  refine ⟨fun text htext => ?_, fun call hcall => ?_⟩
  · obtain ⟨r, hr⟩ := hremarks _ htext
    exact absurd hr (by simp)
  · obtain ⟨r, hr⟩ := hremarks _ hcall
    exact absurd hr (by simp)

end

/-! ### Walks that propagate it -/

section

variable {α β : Type} {waits good : α → Prop} {waits' good' : β → Prop}

/-- **Whether a walk propagates what is not ready.** An answer is as it should be, and the walk
was blocked exactly if the answer waits or a binding was dropped. -/
def Propagates (host : Host) (waits good : α → Prop) (m : Walk α) : Prop :=
  ∀ s a, (m s).answer = .ok a →
    good a ∧ ((waits a ∨ Dropped (m s).notes) ↔ Blocked host (m s).notes)

/-- Whether a walk waits in the end, whatever it does on the way, or drops a binding. -/
def Withholds (waits good : α → Prop) (m : Walk α) : Prop :=
  ∀ s a, (m s).answer = .ok a → good a ∧ (waits a ∨ Dropped (m s).notes)

theorem propagates_of_silent {m : Walk α} (hm : Silent m) (h : ∀ a, good a ∧ ¬ waits a) :
    Propagates host waits good m := by
  intro s a _
  refine ⟨(h a).1, iff_of_false ?_ (hm.not_blocked s)⟩
  rintro (hwaits | hdropped)
  · exact (h a).2 hwaits
  · exact hm.not_dropped s hdropped

theorem propagates_pure {a : α} (h : good a) (hw : ¬ waits a) :
    Propagates host waits good (pure a : Walk α) := by
  intro s b hb
  obtain rfl : a = b := Except.ok.inj hb
  refine ⟨h, iff_of_false ?_ ((silent_pure a).not_blocked s)⟩
  rintro (hwaits | hdropped)
  · exact hw hwaits
  · exact (silent_pure a).not_dropped s hdropped

theorem propagates_halt (h : Halt) : Propagates host waits good (Walk.halt h : Walk α) :=
  fun _ _ ha => absurd ha (by simp [Walk.halt])

theorem withholds_pure {a : α} (h : good a) (hw : waits a) :
    Withholds waits good (pure a : Walk α) := by
  intro s b hb
  obtain rfl : a = b := Except.ok.inj hb
  exact ⟨h, .inl hw⟩

theorem withholds_bind {m : Walk α} {f : α → Walk β} (hf : ∀ a, Withholds waits' good' (f a)) :
    Withholds waits' good' (m >>= f) := by
  intro s b hb
  obtain ⟨a, -, hfa, hnotes⟩ := Walk.answer_of_bind hb
  obtain ⟨hgood, hwaits⟩ := hf a _ b hfa
  rw [hnotes, dropped_append]
  exact ⟨hgood, hwaits.imp_right .inr⟩

/-- **Walks put together.** After an answer that waits nothing may be delivered but what waits,
unless a binding is dropped; after any other answer the second walk has to propagate. -/
theorem propagates_bind {m : Walk α} {f : α → Walk β} (hm : Propagates host waits good m)
    (hw : ∀ a, good a → waits a → Withholds waits' good' (f a))
    (hf : ∀ a, good a → ¬ waits a → Propagates host waits' good' (f a)) :
    Propagates host waits' good' (m >>= f) := by
  intro s b hb
  obtain ⟨a, ha, hfa, hnotes⟩ := Walk.answer_of_bind hb
  obtain ⟨hgood, hready⟩ := hm s a ha
  rw [hnotes, dropped_append, blocked_append]
  -- Either the answer waits, and was blocked, or both walks have a say.
  by_cases hwaits : waits a
  · obtain ⟨hgood', hwaits'⟩ := hw a hgood hwaits _ b hfa
    refine ⟨hgood', iff_of_true ?_ (.inl (hready.mp (.inl hwaits)))⟩
    exact hwaits'.imp_right .inr
  · obtain ⟨hgood', hready'⟩ := hf a hgood hwaits _ b hfa
    refine ⟨hgood', ?_⟩
    rw [← hready, ← hready', or_iff_right hwaits]
    exact ⟨fun h => h.elim (fun h => .inr (.inl h)) (Or.imp_right .inr),
      fun h => h.elim (fun h => .inr (.inl h)) (Or.imp_right .inr)⟩

/-- Walks put together where a single answer waits. -/
theorem propagates_bind_of_eq {m : Walk α} {f : α → Walk β} {w : α}
    (hm : Propagates host (· = w) good m) (hw : good w → Withholds waits' good' (f w))
    (hf : ∀ a, good a → a ≠ w → Propagates host waits' good' (f a)) :
    Propagates host waits' good' (m >>= f) :=
  propagates_bind hm (fun _ ha h => h ▸ hw (h ▸ ha)) hf

/-- What comes after a walk that never meets what is not ready. -/
theorem propagates_silent_bind {m : Walk α} {f : α → Walk β} (hm : Silent m)
    (hf : ∀ a, Propagates host waits' good' (f a)) : Propagates host waits' good' (m >>= f) := by
  have hready : Propagates host (fun _ => False) (fun _ => True) m :=
    propagates_of_silent hm fun _ => ⟨trivial, id⟩
  exact propagates_bind hready (fun _ _ h => h.elim) fun a _ _ => hf a

/-- What is made of an answer waits exactly if the answer does. -/
theorem propagates_map {m : Walk α} {f : α → β} (hm : Propagates host waits good m)
    (hf : ∀ a, good a → good' (f a) ∧ (waits' (f a) ↔ waits a)) :
    Propagates host waits' good' (m >>= fun a => pure (f a)) :=
  propagates_bind hm (fun a ha hw => withholds_pure (hf a ha).1 ((hf a ha).2.mpr hw))
    fun a ha hw => propagates_pure (hf a ha).1 fun h => hw ((hf a ha).2.mp h)

theorem propagates_ite (c : Prop) [Decidable c] {m n : Walk α}
    (hm : Propagates host waits good m) (hn : Propagates host waits good n) :
    Propagates host waits good (if c then m else n) := by
  split
  · exact hm
  · exact hn

/-- A condition that is asked for waits for the host's answer. -/
theorem propagates_askCondition (text : String) :
    Propagates host (· = none) (fun _ => True) (Walk.askCondition host text) := by
  intro s a ha
  obtain rfl : host.condition text = a := Except.ok.inj ha
  refine ⟨trivial, ?_⟩
  simp [Walk.askCondition, Walk.questionNotes, Blocked, Dropped]

end

/-! ### Outcomes -/

section

variable {known : String → Bool}

/-- Whether what an outcome gives is inert. -/
def Outcome.Inert (known : String → Bool) : Outcome → Prop
  | .value n => n.Inert known
  | .splice items => ∀ n ∈ items, n.Inert known
  | .empty => True
  | .pending => True

/-- The items of an inert outcome. -/
theorem Outcome.Inert.toItems {o : Outcome} (h : o.Inert known) {items : List Node}
    (hi : o.toItems? = some items) : ∀ n ∈ items, n.Inert known := by
  cases o with
  | value n =>
    obtain rfl : [n] = items := Option.some.inj hi
    exact List.forall_mem_singleton.mpr h
  | splice items' =>
    obtain rfl : items' = items := Option.some.inj hi
    exact h
  | empty =>
    obtain rfl : [] = items := Option.some.inj hi
    simp
  | pending => exact absurd hi (by simp [Outcome.toItems?])

/-- An inert outcome as a single node. -/
theorem Outcome.Inert.toNode {o : Outcome} (h : o.Inert known) {origin : Origin} {n : Node}
    (hn : o.toNode? origin = some n) : n.Inert known := by
  cases o with
  | value m =>
    obtain rfl : m = n := Option.some.inj hn
    exact h
  | splice items =>
    obtain rfl : Node.array items origin = n := Option.some.inj hn
    exact Node.inert_array.mpr h
  | empty =>
    obtain rfl : Node.token (.null origin) = n := Option.some.inj hn
    exact Node.inert_token _
  | pending => exact absurd hn (by simp [Outcome.toNode?])

theorem Outcome.inert_ofItems {items : List Node} (h : ∀ n ∈ items, n.Inert known) :
    (Outcome.ofItems items).Inert known := by
  match items with
  | [] => trivial
  | [n] => exact h n (by simp)
  | _ :: _ :: _ => exact h

/-- Whether a walk to an outcome propagates what is not ready and gives inert nodes. -/
abbrev PropagatesOutcome (host : Host) (known : String → Bool) (m : Walk Outcome) : Prop :=
  Propagates host (· = .pending) (Outcome.Inert known) m

/-- What a proper answer satisfies; an outcome that ends a function is inert. -/
def Proper {α : Type} (known : String → Bool) (good : α → Prop) : Except Outcome α → Prop
  | .ok a => good a
  | .error o => o.Inert known

/-- Whether a walk to a proper answer, or to an outcome, propagates what is not ready. -/
abbrev PropagatesAnswer {α : Type} (host : Host) (known : String → Bool) (good : α → Prop)
    (m : Walk (Except Outcome α)) : Prop :=
  Propagates host (· = .error .pending) (Proper known good) m

variable {α β : Type} {good : α → Prop} {good' : β → Prop}

theorem propagates_given {m : Walk (Except Outcome α)} {f : α → Walk Outcome}
    (hm : PropagatesAnswer host known good m)
    (hf : ∀ a, good a → PropagatesOutcome host known (f a)) :
    PropagatesOutcome host known (m.given f) := by
  refine propagates_bind_of_eq hm (fun h => withholds_pure h rfl) fun a ha hw => ?_
  cases a with
  | ok a => exact hf a ha
  | error o => exact propagates_pure ha fun h => hw (by rw [h])

theorem propagates_also {m : Walk (Except Outcome α)} {f : α → Walk (Except Outcome β)}
    (hm : PropagatesAnswer host known good m)
    (hf : ∀ a, good a → PropagatesAnswer host known good' (f a)) :
    PropagatesAnswer host known good' (m.also f) := by
  refine propagates_bind_of_eq hm (fun h => withholds_pure h rfl) fun a ha hw => ?_
  cases a with
  | ok a => exact hf a ha
  | error o => exact propagates_pure ha fun h => hw (by rw [Except.error.inj h])

/-- A proper answer. -/
theorem propagates_ok {a : α} (h : good a) :
    PropagatesAnswer host known good (pure (.ok a) : Walk (Except Outcome α)) :=
  propagates_pure h (by simp)

/-- A value that ends a function. -/
theorem propagates_value {n : Node} (h : n.Inert known) :
    PropagatesOutcome host known (pure (.value n) : Walk Outcome) :=
  propagates_pure h (by simp)

/-- A report and the placeholder for what it is about. -/
theorem propagates_reported {n : Node} (origin : Origin) (problem : Problem) (h : n.Inert known) :
    PropagatesOutcome host known
      (Walk.report origin problem >>= fun _ => (pure (.value n) : Walk Outcome)) :=
  propagates_silent_bind (silent_report _ _) fun _ => propagates_value h

/-- The outcome of a walk that ends a function from within. -/
theorem propagates_error {m : Walk Outcome} (hm : PropagatesOutcome host known m) :
    PropagatesAnswer host known good
      (m >>= fun o => (pure (.error o) : Walk (Except Outcome α))) :=
  propagates_map hm fun _ ho => ⟨ho, by simp⟩

end

end ContentLang
