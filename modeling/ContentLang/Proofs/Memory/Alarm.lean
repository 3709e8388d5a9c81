import ContentLang.Proofs.Identity.Unique
import ContentLang.Proofs.Memory.Reduction
import ContentLang.Proofs.Readiness.Monotone
import Mathlib.Data.List.Nodup

/-!
# Alarms

`ContentLang.Engine.wouldChange` compares, for each filter in the root of a file that anything is
remembered of, what is remembered with what the host answers now. It raises an **alarm** if these
differ. Right after the root was consumed there should be none, and that is so of each filter that
came to its end then, if its list is written out with conditions that are tokens: what is
remembered of it are the answers that the host gives
(`ContentLang.Engine.answered_of_finishes`). Its identity is its own, so that nothing else was put
in their place.

Two kinds of filters raise an alarm nevertheless
(`ContentLang.Engine.alarm_after_resolve_iff`):

* those with a condition that is not a token as it stands, since the answer to it is not looked
  for (`ContentLang.Engine.alarm_for_computed_condition`);
* those that did not come to their end this time, while what an earlier time left differs from
  what the host answers now (`ContentLang.Engine.alarm_for_dropped_filter`).
-/

namespace ContentLang

open Reduce Uid Walk

/-- The name of the function that keeps members by their conditions. -/
def Library.filterName : String := "FilterByCondition"

/-! ### What is compared -/

namespace Library

variable {host : Host} {items : List Node}

/-- A condition that is not a token is not looked for. -/
theorem currentAnswers_of_not_spelled (h : ∃ m ∈ items, ¬ Spelled m) :
    (currentAnswers host items).1 = none := by
  induction items with
  | nil =>
    obtain ⟨m, hm, -⟩ := h
    exact absurd hm List.not_mem_nil
  | cons n ns ih =>
    have hlater : Spelled n → (currentAnswers host ns).1 = none := by
      intro hn
      obtain ⟨m, hm, hspelled⟩ := h
      rcases List.mem_cons.mp hm with rfl | hm
      · exact absurd hn hspelled
      · exact ih ⟨m, hm, hspelled⟩
    unfold currentAnswers
    split
    next hnone =>
      refine hlater ?_
      intro condition hcondition
      rw [hnone] at hcondition
      exact nomatch hcondition
    next t htoken =>
      have hn : Spelled n := by
        intro condition hcondition
        rw [htoken] at hcondition
        exact ⟨t, (Option.some.inj hcondition).symm⟩
      cases host.condition t.value with
      | none => rfl
      | some answer => simp [hlater hn]
    next => rfl

end Library

namespace Engine

variable {e : Engine}

/-- An alarm is one of some call. -/
theorem anyWouldChange_iff (calls : List Call) :
    (e.anyWouldChange calls).1 = true ↔ ∃ c ∈ calls, (e.callWouldChange c).1 = true := by
  induction calls with
  | nil => simp [anyWouldChange]
  | cons c cs ih =>
    rw [List.exists_mem_cons_iff, ← ih, anyWouldChange]
    rcases e.callWouldChange c with ⟨_ | _, notes⟩
    · simp
    · simp

/-- All functions of the language but the filter never raise an alarm. -/
theorem quiet_builtin : ∀ f ∈ Registry.builtin, f.1 = Library.filterName ∨
    f.2.wouldChange = fun _ _ _ => (false, []) := by
  simp only [Registry.builtin, List.forall_mem_cons]
  exact ⟨.inr rfl, .inr rfl, .inr rfl, .inr rfl, .inr rfl, .inr rfl, .inl rfl, .inr rfl, .inr rfl,
    .inr rfl, .inr rfl, .inr rfl, .inr rfl, .inr rfl, by simp⟩

/-- **A call raises an alarm** if it is one of a filter with a list that is written out, and what is
remembered of it is not what its conditions are answered now. -/
theorem callWouldChange_iff (hregistry : e.registry = .builtin) {c : Call} :
    (e.callWouldChange c).1 = true ↔ c.function = Library.filterName ∧
      ∃ items o rest last, c.params = .array items o :: rest ∧
        Entries.get? e.state.memory (c.function, c.origin.uid) = some last ∧
        (Library.currentAnswers e.host items).1 ≠ some last := by
  rw [callWouldChange, hregistry]
  by_cases hname : c.function = Library.filterName
  · have hget : Registry.get? .builtin c.function = some Library.filter := by
      rw [hname]
      rfl
    simp only [hget, Library.filter]
    constructor
    · intro h
      refine ⟨hname, ?_⟩
      split at h
      next last items o rest hlast hparams =>
        exact ⟨items, o, rest, last, hparams, hlast, by simpa using h⟩
      next => exact absurd h Bool.false_ne_true
    · rintro ⟨-, items, o, rest, last, hparams, hlast, hne⟩
      rw [hparams, hlast]
      simpa using hne
  · refine iff_of_false ?_ fun h => hname h.1
    split
    next function hget =>
      obtain ⟨k, hk, hkey⟩ := Entries.exists_of_get? hget
      obtain rfl : k = c.function := eq_of_beq hkey
      rw [(quiet_builtin _ hk).resolve_left hname]
      exact Bool.false_ne_true
    next => exact Bool.false_ne_true

/-! ### Consuming from any memory -/

/-- The engine with something else in its memory. -/
def remembering (e : Engine) (memory : Memory) : Engine :=
  { e with state := { e.state with memory } }

/-- **A node is consumed in the same way whatever is remembered**, and what is remembered of a call
in it on the way are the answers that the call is decided by. -/
theorem exists_course (hregistry : e.registry = .builtin) {node : Node}
    (hnode : AllApart node.uids) :
    ∃ course : Course Outcome,
      (∀ entry ∈ course.added, ∀ c ∈ node.calls, (c.function, c.origin.uid) = entry.1 →
        Library.Answered e.host c entry.2) ∧
      ∀ memory, (e.remembering memory).consumption node = course.run memory := by
  let env := e.surroundings true node.location.file
  let allowed (function uid : String) (answers : List Bool) : Prop :=
    ∀ c ∈ node.calls, (c.function, c.origin.uid) = (function, uid) →
      Library.Answered e.host c answers
  have henv : env.Recording := by
    refine ⟨⟨rfl, fun f hf => ?_⟩, fun f hf => ?_⟩
    · exact Function.faithful_builtin f (hregistry ▸ hf)
    · exact Function.recording_builtin f (hregistry ▸ hf)
  have hallowed : Entitled env.host allowed (· ∈ node.calls) := by
    constructor
    · intro c hc answers hanswers d hd hkey
      have huid : d.origin.uid = c.origin.uid := congrArg Prod.snd hkey
      obtain rfl : d = c := List.inj_on_of_nodup_map hnode.nodup hd hc huid
      exact hanswers
    · intro c hc function uid answers d hd hkey
      -- Neither of two identities in the node is marked with the other one.
      have huid : d.origin.uid = c.origin.uid ++ ">" ++ uid := congrArg Prod.snd hkey
      have hwithin : Within d.origin.uid c.origin.uid := huid ▸ within_marked c.origin.uid uid
      have hsame : d.origin.uid = c.origin.uid :=
        hnode.eq_of_within (List.mem_map_of_mem hd) (List.mem_map_of_mem hc) hwithin
      exact absurd (huid.symm.trans hsame) (marked_ne _ _)
  have hconfined : node.Confined (Registry.isKnown env.registry) (· ∈ node.calls) :=
    fun c hc _ => hc
  obtain ⟨course, hadded, hrun⟩ :=
    records_reduce henv hallowed hconfined node.origin.context e.state.generator
  exact ⟨course, fun entry hentry c hc hkey => hadded entry hentry c hc hkey, hrun⟩

/-- Whether a call comes to its end when a node is consumed: something is remembered of it then,
where nothing was remembered before. -/
def Finishes (e : Engine) (node : Node) (c : Call) : Prop :=
  (Entries.get? (e.forgetful.resolve node).engine.state.memory
    (c.function, c.origin.uid)).isSome = true

/-- **What is remembered of a call that came to its end** are the answers that it is decided by. -/
theorem answered_of_finishes (hregistry : e.registry = .builtin) {node : Node}
    (hnode : AllApart node.uids) {c : Call} (hc : c ∈ node.calls) (h : e.Finishes node c) :
    ∃ answers, Library.Answered e.host c answers ∧
      Entries.get? (e.resolve node).engine.state.memory (c.function, c.origin.uid) =
        some answers := by
  obtain ⟨course, hadded, hrun⟩ := exists_course hregistry hnode
  have hmemory : ∀ memory, ((e.remembering memory).resolve node).engine.state.memory =
      Entries.overlay memory course.added := fun memory =>
    congrArg (·.state.memory) (hrun memory)
  obtain ⟨answers, hanswers⟩ := Option.isSome_iff_exists.mp h
  have hown : Entries.get? (Entries.overlay [] course.added) (c.function, c.origin.uid) =
      some answers := by
    rw [← hmemory []]
    exact hanswers
  refine ⟨answers, ?_, ?_⟩
  · obtain ⟨k, hk, hkey⟩ := Entries.exists_of_get?_overlay hown
    exact hadded (k, answers) hk c hc (eq_of_beq hkey).symm
  · refine (congrArg (Entries.get? · (c.function, c.origin.uid)) (hmemory e.state.memory)).trans ?_
    rw [Entries.get?_overlay, hown, Option.some_or]

/-! ### Alarms after consuming the root -/

/-- **When there is an alarm right after the root was consumed.** Whatever happened before, there
is one exactly if something is remembered of a filter in the root whose list is written out, and

* one of its conditions is not a token as it stands; or
* it did not come to its end this time, and what an earlier time left differs from what its
  conditions are answered now. -/
theorem alarm_after_resolve_iff (e₀ e : Engine) (text file : String) (l : Loaded)
    (hregistry₀ : e₀.registry = .builtin) (hregistry : e.registry = .builtin)
    (hload : (e₀.loadText text file).answer = .ok l ∨
      ∃ l₀, LoadedFrom e₀.settings text file l₀ ∧ (e₀.refresh l₀).answer = .ok l) :
    ((e.resolve l.root).engine.wouldChange l).1 = true ↔
      ∃ c ∈ l.root.calls, c.function = Library.filterName ∧ ∃ items o rest last,
        c.params = .array items o :: rest ∧
        Entries.get? (e.resolve l.root).engine.state.memory (c.function, c.origin.uid) = some last ∧
        ((∃ m ∈ items, ¬ Library.Spelled m) ∨
          (¬ e.Finishes l.root c ∧ (Library.currentAnswers e.host items).1 ≠ some last)) := by
  have hroot : AllApart l.root.uids := apart_root hregistry₀ hload
  have hafter : (e.resolve l.root).engine.registry = .builtin := hregistry
  refine (anyWouldChange_iff _).trans ⟨?_, ?_⟩
  · rintro ⟨c, hc, halarm⟩
    obtain ⟨hname, items, o, rest, last, hparams, hlast, hne⟩ :=
      (callWouldChange_iff hafter).mp halarm
    refine ⟨c, hc, hname, items, o, rest, last, hparams, hlast, ?_⟩
    by_cases hspelled : ∃ m ∈ items, ¬ Library.Spelled m
    · exact .inl hspelled
    · -- A list that is spelled out and came to its end is remembered as it is answered.
      refine .inr ⟨fun hfinishes => hne ?_, hne⟩
      obtain ⟨answers, hanswered, hmemory⟩ := answered_of_finishes hregistry hroot hc hfinishes
      obtain rfl : answers = last := Option.some.inj (hmemory.symm.trans hlast)
      exact hanswered items o rest hparams fun m hm => not_not.mp fun h => hspelled ⟨m, hm, h⟩
  · rintro ⟨c, hc, hname, items, o, rest, last, hparams, hlast, hcause⟩
    refine ⟨c, hc, (callWouldChange_iff hafter).mpr
      ⟨hname, items, o, rest, last, hparams, hlast, ?_⟩⟩
    rcases hcause with hspelled | ⟨-, hne⟩
    · rw [Library.currentAnswers_of_not_spelled hspelled]
      exact nofun
    · exact hne

/-- A host that answers two conditions. -/
def twoConditions (a b : Bool) : Host :=
  .plain (fun s => if s = "a" then some a else if s = "b" then some b else none) fun _ => none

/-- **A filter in a member that is dropped raises an alarm** if its own condition has changed as
well: it did not come to its end, and what it was decided by the first time is still remembered. -/
theorem alarm_for_dropped_filter :
    let inner := "FilterByCondition([\x7bCondition: b; W: 1\x7d])"
    let text := "FilterByCondition([\x7bCondition: a; V: " ++ inner ++ "\x7d])"
    let e := Engine.start .standard (twoConditions true true) 0
    ∃ l, (e.loadText text "main.txt").answer = .ok l ∧
      let e' := ((e.loadText text "main.txt").engine.resolve l.root).engine.withHost
        (twoConditions false false)
      (∃ m, (e'.resolve l.root).answer = .ok (some m)) ∧
        ∃ c ∈ l.root.calls, c.function = Library.filterName ∧ ∃ items o rest last,
          c.params = .array items o :: rest ∧
          Entries.get? (e'.resolve l.root).engine.state.memory (c.function, c.origin.uid) =
            some last ∧
          ((∃ m ∈ items, ¬ Library.Spelled m) ∨
            (¬ e'.Finishes l.root c ∧ (Library.currentAnswers e'.host items).1 ≠ some last)) := by
  intro inner text e
  have hrun : ((e.loadText text "main.txt").answer.toOption.any fun l =>
      let e' := ((e.loadText text "main.txt").engine.resolve l.root).engine.withHost
        (twoConditions false false)
      (e'.delivered l.root).isSome && ((e'.resolve l.root).engine.wouldChange l).1) = true := by
    decide +kernel
  obtain ⟨l, hload, hl⟩ := (Option.any_eq_true _ _).mp hrun
  obtain ⟨hdelivered, halarm⟩ := Bool.and_eq_true_iff.mp hl
  obtain ⟨m, hm⟩ := Option.isSome_iff_exists.mp hdelivered
  have hload := toOption_eq_some.mp hload
  exact ⟨l, hload, ⟨m, delivered_eq_some.mp hm⟩,
    (alarm_after_resolve_iff e _ text "main.txt" l rfl rfl (.inl hload)).mp halarm⟩

/-- **A filter with a condition that is computed raises an alarm** right after it came to its
end. -/
theorem alarm_for_computed_condition :
    let text := "FilterByCondition([\x7bCondition: Choose([a]); V: 1\x7d])"
    let e := Engine.start .standard (twoConditions true true) 0
    ∃ l m, (e.loadText text "main.txt").answer = .ok l ∧
      let e' := (e.loadText text "main.txt").engine
      (e'.resolve l.root).answer = .ok (some m) ∧
        ((e'.resolve l.root).engine.wouldChange l).1 = true := by
  intro text e
  have hrun : ((e.loadText text "main.txt").answer.toOption.any fun l =>
      let e' := (e.loadText text "main.txt").engine
      (e'.delivered l.root).isSome && ((e'.resolve l.root).engine.wouldChange l).1) = true := by
    decide +kernel
  obtain ⟨l, hload, hl⟩ := (Option.any_eq_true _ _).mp hrun
  obtain ⟨hdelivered, halarm⟩ := Bool.and_eq_true_iff.mp hl
  obtain ⟨m, hm⟩ := Option.isSome_iff_exists.mp hdelivered
  exact ⟨l, m, toOption_eq_some.mp hload, delivered_eq_some.mp hm, halarm⟩

end Engine

end ContentLang
