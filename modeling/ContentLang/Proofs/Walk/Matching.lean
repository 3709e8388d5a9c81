import ContentLang.Engine
import ContentLang.Proofs.Walk.Reduction
import ContentLang.Proofs.Walk.Runs

/-!
# Runs that match

Two walks **match** (`ContentLang.Walk.Matches`) if from every state they end alike: in one state,
with the same notes, and with related answers or given up for the same reason. Two conditions
on the reasons go with it:

| | |
|---|---|
| `excused` | a run that is given up for such a reason need not be matched |
| `ruledOut` | no run that is matched is given up for such a reason |

Matching is a simulation (`ContentLang.Simulation.matching`). Excusing a run that is too deep, it
compares runs under different limits; ruling a reason out, it tells that no run is given up for
it.
-/

namespace ContentLang

/-- The condition on reasons that none satisfies. -/
def Halt.never (_ : Halt) : Prop := False

theorem Halt.not_never : ¬ Halt.never .exhausted := id

/-- What never happens excuses nothing in the consumption pass. -/
theorem Halt.never_excuses (late : Bool) : Halt.never .exhausted → late = false := False.elim

/-- Whether two runs come to related answers, or are given up for the same reason. -/
inductive Walk.SameEnd {α β : Type} (R : α → β → Prop) : Except Halt α → Except Halt β → Prop
  | ok {a : α} {b : β} (h : R a b) : SameEnd R (.ok a) (.ok b)
  | error (halt : Halt) : SameEnd R (.error halt) (.error halt)

/-- What is made of answers that are related. -/
theorem Walk.SameEnd.map {α β γ δ : Type} {R : α → β → Prop} {Q : γ → δ → Prop}
    {x : Except Halt α} {y : Except Halt β} (h : SameEnd R x y) {f : α → γ} {g : β → δ}
    (hfg : ∀ a b, R a b → Q (f a) (g b)) : SameEnd Q (x.map f) (y.map g) := by
  rcases h with ⟨hab⟩ | ⟨halt⟩
  · exact .ok (hfg _ _ hab)
  · exact .error halt

/-- Whether two runs end alike, for no reason that is ruled out. -/
structure Walk.SameRun {α β : Type} (ruledOut : Halt → Prop) (R : α → β → Prop) (r : Walked α)
    (r' : Walked β) : Prop where
  answer : SameEnd R r.answer r'.answer
  state : r.state = r'.state
  notes : r.notes = r'.notes
  goes : ∀ halt, r.answer = .error halt → ¬ ruledOut halt

/-- **Whether one walk matches another**, unless that one is given up with an excuse. -/
def Walk.Matches {α β : Type} (excused ruledOut : Halt → Prop) (R : α → β → Prop) (m₁ : Walk α)
    (m₂ : Walk β) : Prop :=
  ∀ s, (∃ halt, excused halt ∧ (m₁ s).answer = .error halt) ∨ SameRun ruledOut R (m₁ s) (m₂ s)

namespace Walk

variable {excused ruledOut : Halt → Prop} {α β γ δ : Type} {R : α → β → Prop}
  {Q : γ → δ → Prop}

theorem matches_pure {a : α} {b : β} (h : R a b) :
    Matches excused ruledOut R (Pure.pure a : Walk α) (Pure.pure b : Walk β) := by
  intro s
  refine .inr ⟨.ok h, rfl, rfl, ?_⟩
  intro halt hhalt
  exact absurd hhalt (by simp [pure_apply])

/-- Walks one after the other match: what the first ones leave is the same. -/
theorem matches_bind {m₁ : Walk α} {m₂ : Walk β} {f₁ : α → Walk γ} {f₂ : β → Walk δ}
    (hm : Matches excused ruledOut R m₁ m₂)
    (hf : ∀ a b, R a b → Matches excused ruledOut Q (f₁ a) (f₂ b)) :
    Matches excused ruledOut Q (m₁ >>= f₁) (m₂ >>= f₂) := by
  intro s
  rcases hm s with ⟨halt, hexcused, hhalt⟩ | ⟨hanswer, hstate, hnotes, hgoes⟩
  · exact .inl ⟨halt, hexcused, by rw [bind_error hhalt]⟩
  · generalize h₁ : (m₁ s).answer = x, h₂ : (m₂ s).answer = y at hanswer
    rcases hanswer with ⟨hab⟩ | ⟨halt⟩
    · rw [bind_ok h₁, bind_ok h₂, hstate, hnotes]
      rcases hf _ _ hab (m₂ s).state with hexcused | ⟨hanswer', hstate', hnotes', hgoes'⟩
      · exact .inl hexcused
      · exact .inr ⟨hanswer', hstate', congrArg ((m₂ s).notes ++ ·) hnotes', hgoes'⟩
    · rw [bind_error h₁, bind_error h₂]
      exact .inr ⟨.error halt, hstate, hnotes, by simpa [h₁] using hgoes⟩

/-- A walk that always comes to an answer matches itself. -/
theorem matches_self {m : Walk α} (h : ∀ s, ∃ a, (m s).answer = .ok a) :
    Matches excused ruledOut (· = ·) m m := by
  intro s
  obtain ⟨a, ha⟩ := h s
  refine .inr ⟨?_, rfl, rfl, ?_⟩
  · rw [ha]
    exact .ok rfl
  · intro halt hhalt
    exact absurd (ha.symm.trans hhalt) (by simp)

/-- A walk given up for a reason that is not ruled out matches itself. -/
theorem matches_halt {halt : Halt} (h : ¬ ruledOut halt) :
    Matches excused ruledOut R (Walk.halt halt : Walk α) (Walk.halt halt : Walk β) := by
  intro s
  refine .inr ⟨.error halt, rfl, rfl, ?_⟩
  intro halt' hhalt
  obtain rfl : halt = halt' := Except.error.inj hhalt
  exact h

/-- A walk given up with an excuse is matched by any. -/
theorem matches_excused {halt : Halt} (h : excused halt) (m : Walk β) :
    Matches excused ruledOut R (Walk.halt halt : Walk α) m := by
  intro s
  exact .inl ⟨halt, h, rfl⟩

theorem matches_draw (hruled : ¬ ruledOut .exhausted)
    (sample : Generator → Option (α × Generator)) :
    Matches excused ruledOut (· = ·) (Walk.draw sample) (Walk.draw sample) := by
  intro s
  right
  rw [Walk.draw]
  rcases sample s.generator with _ | ⟨a, g⟩
  · refine ⟨.error _, rfl, rfl, ?_⟩
    intro halt hhalt
    obtain rfl : Halt.exhausted = halt := Except.error.inj hhalt
    exact hruled
  · refine ⟨.ok rfl, rfl, rfl, ?_⟩
    intro halt hhalt
    exact absurd hhalt (by simp)

end Walk

/-- **Matching is a simulation**, if being too deep is not ruled out and excused in the loading
pass at most. Where names are bound, kin calls have to be the same. -/
def Simulation.matching (late : Bool) (w : World) {kin : Kinship} (hscope : kin.Scoped)
    (hset : kin.calls setName → ∀ {c d : Call}, c.Kin kin d → c = d)
    (excused ruledOut : Halt → Prop) (hexcused : excused .exhausted → late = false)
    (hruled : ¬ ruledOut .exhausted) : Simulation late w w where
  kin := kin
  rel := Walk.Matches excused ruledOut
  lenient := excused .exhausted
  scope := hscope
  pure := Walk.matches_pure
  bind := Walk.matches_bind
  exhausted := Walk.matches_halt hruled
  followed h _ _ _ m := Walk.matches_excused h m
  lenient_loading := hexcused
  leave _ := Walk.matches_self fun _ => ⟨_, rfl⟩
  unbound hcalls _ _ hcall := by
    rw [hset hcalls hcall]
    exact Walk.matches_self fun _ => ⟨_, rfl⟩
  askAsset _ := Walk.matches_self fun _ => ⟨_, rfl⟩
  askFile _ := Walk.matches_self fun _ => ⟨_, rfl⟩
  askCondition _ _ := Walk.matches_self fun _ => ⟨_, rfl⟩
  askRandom _ _ _ := Walk.matches_self fun _ => ⟨_, rfl⟩
  draw _ _ sample := Walk.matches_draw hruled sample
  remember _ _ _ _ := Walk.matches_self fun _ => ⟨_, rfl⟩
  uniqueId := rfl
  contentRoot := rfl
  maxIncludeDepth := rfl

/-- Runs that end alike are the same if related answers are. -/
theorem Walk.SameRun.eq {ruledOut : Halt → Prop} {α : Type} {R : α → α → Prop} {r r' : Walked α}
    (h : SameRun ruledOut R r r') (hR : ∀ a b, R a b → a = b) : r = r' := by
  obtain ⟨hanswer, hstate, hnotes, -⟩ := h
  obtain ⟨answer, state, notes⟩ := r
  obtain ⟨answer', state', notes'⟩ := r'
  obtain rfl : state = state' := hstate
  obtain rfl : notes = notes' := hnotes
  have hends : SameEnd R answer answer' := hanswer
  rcases hends with ⟨hab⟩ | ⟨halt⟩
  · rw [hR _ _ hab]
  · rfl

/-- Matching runs on equal nodes. -/
def Simulation.strict (late : Bool) (w : World) (excused ruledOut : Halt → Prop)
    (hexcused : excused .exhausted → late = false) (hruled : ¬ ruledOut .exhausted) :
    Simulation late w w :=
  .matching late w Kinship.strict_scoped (fun _ => Call.kin_strict.mp) excused ruledOut hexcused
    hruled

/-- What an engine's walks are carried out in fits every simulation that its functions respect. -/
theorem Engine.fits (e e' : Engine) {late : Bool} {S : Simulation late ⟨e.host, e.settings⟩
    ⟨e'.host, e'.settings⟩} (hfunctions : S.RespectsAll e.registry e'.registry)
    (hlimit : S.Within e.limit e'.limit) (file : String) :
    S.Fits (e.surroundings late file) (e'.surroundings late file) :=
  ⟨rfl, .inl, rfl, rfl, rfl, rfl, rfl, hfunctions, hlimit⟩

end ContentLang
