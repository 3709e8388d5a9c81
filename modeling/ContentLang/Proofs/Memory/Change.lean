import ContentLang.Proofs.Memory.Alarm

/-!
# Changes that raise no alarm

After the root of a file was consumed, the host may come to answer conditions otherwise. If the
root would now come to something else, then one of the conditions that were asked for is answered
otherwise (`ContentLang.Engine.resolve_answered_alike`), and there should be an alarm.

There is one if that condition is **watched** (`ContentLang.Engine.Watches`): if it stands as a
token in the list of a filter of the root that is written out, and the filter came to its end. A
change may be missed where the condition is in a list that is computed, or that stands in a file
that is only included in consumption (`ContentLang.Engine.change_alarms_or_unwatched`), and then it
is (`ContentLang.Engine.change_missed`).

Nothing is said of what is drawn: either the engine's generator is the same as it was, or the
choices that there are do not depend on it (`ContentLang.Engine.Forced`).
-/

namespace ContentLang

open Uid Walk

/-! ### Conditions that are answered otherwise -/

/-- Whether two hosts differ at most in how they answer conditions, and in their remarks. -/
structure Host.Beside (h₁ h₂ : Host) : Prop where
  assetName : h₁.assetName = h₂.assetName
  fileText : h₁.fileText = h₂.fileText
  random : h₁.random = h₂.random

/-- Whether a condition was asked for that two hosts answer differently. -/
def Reanswered (h₁ h₂ : Host) (notes : List Note) : Prop :=
  ∃ text, Note.asked (.condition text) ∈ notes ∧ h₁.condition text ≠ h₂.condition text

theorem reanswered_append {h₁ h₂ : Host} {ns ms : List Note} :
    Reanswered h₁ h₂ (ns ++ ms) ↔ Reanswered h₁ h₂ ns ∨ Reanswered h₁ h₂ ms := by
  simp only [Reanswered, List.mem_append, or_and_right, exists_or]

/-- **Runs beside two hosts are the same unless a condition is answered otherwise** that was asked
for. -/
def Congruence.unlessReanswered {h₁ h₂ : Host} (settings : Settings) (h : h₁.Beside h₂) :
    Congruence true ⟨h₁, settings⟩ ⟨h₂, settings⟩ where
  rel := SameUnless (Reanswered h₁ h₂)
  pure _ _ _ := ⟨rfl, rfl⟩
  bind := sameUnless_bind reanswered_append
  halt _ _ _ := ⟨rfl, rfl⟩
  leave _ _ _ := ⟨rfl, rfl⟩
  askAsset path _ _ := ⟨by simp [Walk.askAsset, h.assetName], rfl⟩
  askFile path _ _ := ⟨by simp [Walk.askFile, h.fileText], rfl⟩
  askCondition _ text s hs := by
    have hsame : h₁.condition text = h₂.condition text := by
      by_contra hne
      exact hs ⟨text, by simp [Walk.askCondition, Walk.questionNotes], hne⟩
    exact ⟨by simp [Walk.askCondition, hsame], rfl⟩
  askRandom _ seed isStatic _ _ := ⟨by simp [Walk.askRandom, h.random], rfl⟩
  draw _ _ _ _ _ := ⟨rfl, rfl⟩
  remember _ _ _ _ _ _ := ⟨rfl, rfl⟩
  uniqueId := Eq.refl settings.uniqueId
  contentRoot := Eq.refl settings.contentRoot
  maxIncludeDepth := Eq.refl settings.maxIncludeDepth

/-- Two hosts that answer a list of conditions alike answer each condition in it alike. -/
theorem Library.condition_of_currentAnswers {h₁ h₂ : Host} {items : List Node} {answers : List Bool}
    (h : (currentAnswers h₁ items).1 = some answers)
    (h' : (currentAnswers h₂ items).1 = some answers) {m : Node} (hm : m ∈ items) {t : Token}
    (ht : memberEntry conditionKey m = some (.token t)) :
    h₁.condition t.value = h₂.condition t.value := by
  induction items generalizing answers with
  | nil => exact absurd hm List.not_mem_nil
  | cons n ns ih =>
    have hlater : ∀ {rest}, (currentAnswers h₁ ns).1 = some rest →
        (currentAnswers h₂ ns).1 = some rest → m ∈ ns →
          h₁.condition t.value = h₂.condition t.value := fun hrest hrest' hmem =>
      ih hrest hrest' hmem
    unfold currentAnswers at h h'
    cases hentry : memberEntry conditionKey n with
    | none =>
      rw [hentry] at h h'
      rcases List.mem_cons.mp hm with rfl | hm
      · rw [ht] at hentry
        cases hentry
      · exact hlater h h' hm
    | some condition =>
      rw [hentry] at h h'
      cases condition with
      | token u =>
        cases hu : h₁.condition u.value with
        | none => simp [hu] at h
        | some answer =>
          cases hu' : h₂.condition u.value with
          | none => simp [hu'] at h'
          | some answer' =>
            simp only [hu, Option.map_eq_some_iff] at h
            simp only [hu', Option.map_eq_some_iff] at h'
            obtain ⟨rest, hrest, rfl⟩ := h
            obtain ⟨rest', hrest', hsame⟩ := h'
            obtain ⟨rfl, rfl⟩ := List.cons.inj hsame
            rcases List.mem_cons.mp hm with rfl | hm
            · rw [ht] at hentry
              obtain rfl : t = u := Node.token.inj (Option.some.inj hentry)
              rw [hu, hu']
            · exact hlater hrest hrest' hm
      | _ => cases h

namespace Engine

variable {e : Engine}

/-- What a node comes to is the same beside another host, unless a condition is answered otherwise
that was asked for. -/
theorem resolve_answered_alike (hregistry : e.registry = .builtin) {h₂ : Host}
    (hhost : e.host.Beside h₂) {node : Node}
    (h : ¬ Reanswered e.host h₂ (e.resolve node).notes) :
    ((e.withHost h₂).resolve node).answer = (e.resolve node).answer := by
  let R := Congruence.unlessReanswered e.settings hhost
  have henv : R.Fits (e.surroundings true node.location.file) :=
    ⟨rfl, fun f hf => R.respects_builtin f (hregistry ▸ hf)⟩
  have hrun : ((e.withHost h₂).consumption node).answer = (e.consumption node).answer :=
    (R.reduce henv node node.origin.context e.state h).1
  rw [resolve_answer, resolve_answer, hrun]

/-! ### Changes -/

/-- The engine with another generator. -/
def drawing (e : Engine) (generator : Generator) : Engine :=
  { e with state := { e.state with generator } }

/-- **Whether choices are forced** when a node is consumed: from every generator it comes to the
same, and the same conditions are asked for. -/
def Forced (e : Engine) (node : Node) : Prop :=
  ∀ g, ((e.drawing g).resolve node).answer = (e.resolve node).answer ∧
    ∀ text, .asked (.condition text) ∈ ((e.drawing g).resolve node).notes →
      .asked (.condition text) ∈ (e.resolve node).notes

/-- **Whether an engine is one that comes after a node was consumed**, when nothing but the host's
answers to conditions may have changed: what is remembered of the calls in the node is what was
remembered of them then. -/
structure After (e : Engine) (node : Node) (e' : Engine) : Prop where
  registry : e'.registry = e.registry
  settings : e'.settings = e.settings
  limit : e'.limit = e.limit
  host : e.host.Beside e'.host
  memory : ∀ c ∈ node.calls, Entries.get? e'.state.memory (c.function, c.origin.uid) =
    Entries.get? (e.resolve node).engine.state.memory (c.function, c.origin.uid)
  choices : e'.state.generator = e.state.generator ∨ e.Forced node

/-- **Whether a condition is watched** after a node was consumed: it is written out in the list of a
filter in the node that came to its end. -/
def Watches (e : Engine) (node : Node) (text : String) : Prop :=
  ∃ c ∈ node.calls, c.function = Library.filterName ∧ e.Finishes node c ∧
    ∃ items o rest, c.params = .array items o :: rest ∧
      ∃ m ∈ items, ∃ t : Token,
        Library.memberEntry Library.conditionKey m = some (.token t) ∧ t.value = text

/-- Where a node comes to something else, a condition is answered otherwise that was asked for. -/
theorem reanswered_of_change (hregistry : e.registry = .builtin) {node : Node}
    (hnode : AllApart node.uids) {e' : Engine} (hafter : e.After node e')
    (hchange : (e'.resolve node).answer ≠ (e.resolve node).answer) :
    Reanswered e.host e'.host (e.resolve node).notes := by
  have hforced : ((e.drawing e'.state.generator).resolve node).answer = (e.resolve node).answer ∧
      ∀ text, .asked (.condition text) ∈ ((e.drawing e'.state.generator).resolve node).notes →
        .asked (.condition text) ∈ (e.resolve node).notes := by
    rcases hafter.choices with hsame | hforced
    · rw [hsame]
      exact ⟨rfl, fun _ h => h⟩
    · exact hforced e'.state.generator
  -- What is remembered makes no difference for what the node comes to.
  have hblind : (e'.resolve node).answer =
      (((e.drawing e'.state.generator).withHost e'.host).resolve node).answer := by
    obtain ⟨course, -, hrun⟩ := exists_course (hafter.registry.trans hregistry) hnode
    have hown : e'.consumption node = course.run e'.state.memory := hrun e'.state.memory
    have hother : ((e.drawing e'.state.generator).withHost e'.host).consumption node =
        course.run e.state.memory := by
      rw [← hrun e.state.memory]
      simp only [consumption, surroundings, withHost, drawing, remembering, hafter.registry,
        hafter.settings, hafter.limit]
    rw [resolve_answer, resolve_answer, hown, hother]
    rfl
  by_contra hnot
  refine hchange (hblind.trans ?_)
  have hsame : ((e.drawing e'.state.generator).withHost e'.host |>.resolve node).answer =
      ((e.drawing e'.state.generator).resolve node).answer := by
    refine resolve_answered_alike (e := e.drawing e'.state.generator) hregistry hafter.host
      fun hre => hnot ?_
    obtain ⟨text, hasked, hne⟩ := hre
    exact ⟨text, hforced.2 text hasked, hne⟩
  exact hsame.trans hforced.1

/-- **A change raises an alarm, or is one in a condition that is not watched.** If the root of a
loaded file came to a node, and comes to something else or to nothing in an engine after that, then
there is an alarm in that engine, or a condition that was asked for and is answered otherwise was
not watched. -/
theorem change_alarms_or_unwatched (e₀ e e' : Engine) (text file : String) (l : Loaded) (m : Node)
    (hregistry₀ : e₀.registry = .builtin) (hregistry : e.registry = .builtin)
    (hload : (e₀.loadText text file).answer = .ok l ∨
      ∃ l₀, LoadedFrom e₀.settings text file l₀ ∧ (e₀.refresh l₀).answer = .ok l)
    (hm : (e.resolve l.root).answer = .ok (some m)) (hafter : e.After l.root e')
    (hchange : (e'.resolve l.root).answer ≠ .ok (some m)) :
    (e'.wouldChange l).1 = true ∨
      ∃ condition, .asked (.condition condition) ∈ (e.resolve l.root).notes ∧
        e.host.condition condition ≠ e'.host.condition condition ∧
        ¬ e.Watches l.root condition := by
  have hroot : AllApart l.root.uids := apart_root hregistry₀ hload
  have hregistry' : e'.registry = .builtin := hafter.registry.trans hregistry
  obtain ⟨condition, hasked, hne⟩ := reanswered_of_change hregistry hroot hafter (hm ▸ hchange)
  by_cases hwatched : e.Watches l.root condition
  · obtain ⟨c, hc, hname, hfinishes, hwritten⟩ := hwatched
    obtain ⟨items, o, rest, hparams, member, hmember, t, ht, rfl⟩ := hwritten
    obtain ⟨answers, hanswered, hmemory⟩ := answered_of_finishes hregistry hroot hc hfinishes
    refine .inl ((anyWouldChange_iff _).mpr ⟨c, hc, (callWouldChange_iff hregistry').mpr
      ⟨hname, items, o, rest, answers, hparams, (hafter.memory c hc).trans hmemory, ?_⟩⟩)
    intro hcurrent
    by_cases hspelled : ∀ n ∈ items, Library.Spelled n
    · have hold := hanswered items o rest hparams hspelled
      exact hne (Library.condition_of_currentAnswers hold hcurrent hmember ht)
    · -- With a condition that is computed there is an alarm in any case.
      push Not at hspelled
      rw [Library.currentAnswers_of_not_spelled hspelled] at hcurrent
      exact nomatch hcurrent
  · exact .inr ⟨condition, hasked, hne, hwatched⟩

/-- The engine after a node was consumed, beside another host and with its generator as it was
before. -/
def redrawing (e : Engine) (node : Node) (host : Host) : Engine :=
  ((e.resolve node).engine.withHost host).drawing e.state.generator

/-- A filter whose condition is answered otherwise, with the generator as it was. -/
theorem change_alarms_or_unwatched_filter :
    let text := "FilterByCondition([\x7bCondition: a; V: 1\x7d])"
    let e₀ := Engine.start .standard (twoConditions true true) 0
    let e := (e₀.loadText text "main.txt").engine
    ∃ l m, (e₀.loadText text "main.txt").answer = .ok l ∧
      (e.resolve l.root).answer = .ok (some m) ∧
      let e' := e.redrawing l.root (twoConditions false true)
      (e'.resolve l.root).answer ≠ .ok (some m) ∧
      ((e'.wouldChange l).1 = true ∨
        ∃ condition, .asked (.condition condition) ∈ (e.resolve l.root).notes ∧
          e.host.condition condition ≠ e'.host.condition condition ∧
          ¬ e.Watches l.root condition) := by
  intro text e₀ e
  have hrun : ((e₀.loadText text "main.txt").answer.toOption.any fun l =>
      let e' := e.redrawing l.root (twoConditions false true)
      (e.delivered l.root).any fun m => (e'.delivered l.root).any fun m' =>
        !m.same m') = true := by decide +kernel
  obtain ⟨l, hload, hl⟩ := (Option.any_eq_true _ _).mp hrun
  obtain ⟨m, hm, hother⟩ := (Option.any_eq_true _ _).mp hl
  obtain ⟨m', hm', hdiffers⟩ := (Option.any_eq_true _ _).mp hother
  have hload := toOption_eq_some.mp hload
  have hm := delivered_eq_some.mp hm
  let e' := e.redrawing l.root (twoConditions false true)
  have hchange : (e'.resolve l.root).answer ≠ .ok (some m) := by
    intro hsame
    obtain rfl : m' = m := Option.some.inj (hm'.symm.trans (delivered_eq_some.mpr hsame))
    simp [Alike.same (.refl m')] at hdiffers
  have hafter : e.After l.root e' :=
    ⟨rfl, rfl, rfl, ⟨rfl, rfl, rfl⟩, fun _ _ => rfl, .inl rfl⟩
  exact ⟨l, m, hload, hm, hchange,
    change_alarms_or_unwatched e₀ e e' text "main.txt" l m rfl rfl (.inl hload) hm hafter hchange⟩

/-- **A change that is missed**: the list of a filter is chosen, although from a single one, and its
condition is answered otherwise. The root comes to something else, and there is no alarm. -/
theorem change_missed :
    let text := "FilterByCondition(Choose([[\x7bCondition: a; V: 1\x7d]]))"
    let e₀ := Engine.start .standard (twoConditions true true) 0
    let e := (e₀.loadText text "main.txt").engine
    ∃ l m m', (e₀.loadText text "main.txt").answer = .ok l ∧
      (e.resolve l.root).answer = .ok (some m) ∧
      let e' := (e.resolve l.root).engine.withHost (twoConditions false true)
      (e'.resolve l.root).answer = .ok (some m') ∧ m.same m' = false ∧
        (e'.wouldChange l).1 = false := by
  intro text e₀ e
  have hrun : ((e₀.loadText text "main.txt").answer.toOption.any fun l =>
      let e' := (e.resolve l.root).engine.withHost (twoConditions false true)
      (e.delivered l.root).any fun m => (e'.delivered l.root).any fun m' =>
        decide (m.same m' = false ∧ (e'.wouldChange l).1 = false)) = true := by decide +kernel
  obtain ⟨l, hload, hl⟩ := (Option.any_eq_true _ _).mp hrun
  obtain ⟨m, hm, hother⟩ := (Option.any_eq_true _ _).mp hl
  obtain ⟨m', hm', hmissed⟩ := (Option.any_eq_true _ _).mp hother
  exact ⟨l, m, m', toOption_eq_some.mp hload, delivered_eq_some.mp hm, delivered_eq_some.mp hm',
    of_decide_eq_true hmissed⟩

end Engine

end ContentLang
