import ContentLang.Proofs.Walk.Reduction
import ContentLang.Proofs.Walk.Runs

/-!
# Walks on the same nodes

Two runs of one walk on the same nodes, beside two worlds: a **congruence**
(`ContentLang.Congruence`) is a relation between walks with answers of one type that the walks'
building blocks respect. It makes a simulation of equal nodes
(`ContentLang.Congruence.simulation`), so that the functions of the language and the reduction
respect it.

Two walks with answers of different types are related in the simulation if they are the two
sides of walks that are related in the congruence (`ContentLang.Congruence.Sides`).
-/

namespace ContentLang

/-- **A relation that walks beside two worlds respect**, in the pass that `late` tells. -/
structure Congruence (late : Bool) (w₁ w₂ : World) where
  rel : ∀ {α : Type}, Walk α → Walk α → Prop
  pure : ∀ {α : Type} (a : α), rel (Pure.pure a) (Pure.pure a)
  bind : ∀ {α β : Type} {m₁ m₂ : Walk α} {f₁ f₂ : α → Walk β}, rel m₁ m₂ →
    (∀ a, rel (f₁ a) (f₂ a)) → rel (m₁ >>= f₁) (m₂ >>= f₂)
  halt : ∀ {α : Type} (h : Halt), rel (Walk.halt h : Walk α) (Walk.halt h)
  leave : ∀ notes, rel (Walk.leave notes) (Walk.leave notes)
  askAsset : ∀ path, rel (Walk.askAsset w₁.host path) (Walk.askAsset w₂.host path)
  askFile : ∀ path, rel (Walk.askFile w₁.host path) (Walk.askFile w₂.host path)
  askCondition : late = true → ∀ s,
    rel (Walk.askCondition w₁.host s) (Walk.askCondition w₂.host s)
  askRandom : late = true → ∀ seed isStatic,
    rel (Walk.askRandom w₁.host seed isStatic) (Walk.askRandom w₂.host seed isStatic)
  draw : late = true → ∀ {α : Type} (sample : Generator → Option (α × Generator)),
    rel (Walk.draw sample) (Walk.draw sample)
  remember : late = true → ∀ function uid answers,
    rel (Walk.remember function uid answers) (Walk.remember function uid answers)
  uniqueId : w₁.settings.uniqueId = w₂.settings.uniqueId
  contentRoot : w₁.settings.contentRoot = w₂.settings.contentRoot
  maxIncludeDepth : w₁.settings.maxIncludeDepth = w₂.settings.maxIncludeDepth

namespace Congruence

variable {late : Bool} {w₁ w₂ : World} (R : Congruence late w₁ w₂)

/-- Whether two ways to reduce nodes are related. -/
def Agree (r₁ r₂ : Node → Context → Walk Outcome) : Prop :=
  ∀ node ctx, R.rel (r₁ node ctx) (r₂ node ctx)

/-- **Whether a function respects a congruence**, where it is reduced at all. -/
def Respects (f : Function) : Prop :=
  (f.late = true → late = true) → ∀ (ev : Evaluator) (r₁ r₂ : Node → Context → Walk Outcome),
    R.Agree r₁ r₂ → ∀ call ctx,
      R.rel (f.reduce (ev.beside w₁ r₁) call ctx) (f.reduce (ev.beside w₂ r₂) call ctx)

/-! ### The simulation -/

/-- Whether two walks are the sides of related walks whose answers are pairs of related
answers. -/
def Sides {α β : Type} (A : α → β → Prop) (m₁ : Walk α) (m₂ : Walk β) : Prop :=
  ∃ p₁ p₂ : Walk { x : α × β // A x.1 x.2 }, R.rel p₁ p₂ ∧
    m₁ = (p₁ >>= fun x => Pure.pure x.1.1) ∧ m₂ = (p₂ >>= fun x => Pure.pure x.1.2)

section

variable {R} {α β γ δ : Type} {A : α → β → Prop} {B : γ → δ → Prop}

/-- The sides of walks with equal answers are related. -/
theorem Sides.rel {m₁ m₂ : Walk α} (h : R.Sides (· = ·) m₁ m₂) : R.rel m₁ m₂ := by
  obtain ⟨p₁, p₂, hp, rfl, rfl⟩ := h
  refine R.bind hp fun x => ?_
  rw [x.2]
  exact R.pure _

/-- Related walks are the sides of walks with equal answers. -/
theorem sides {m₁ m₂ : Walk α} (h : R.rel m₁ m₂) : R.Sides (· = ·) m₁ m₂ := by
  refine ⟨m₁ >>= fun a => Pure.pure ⟨(a, a), rfl⟩, m₂ >>= fun a => Pure.pure ⟨(a, a), rfl⟩,
    R.bind h fun a => R.pure _, ?_, ?_⟩
  · rw [Walk.bind_assoc]
    exact (Walk.bind_pure m₁).symm
  · rw [Walk.bind_assoc]
    exact (Walk.bind_pure m₂).symm

theorem Sides.imp {A' : α → β → Prop} {m₁ : Walk α} {m₂ : Walk β} (h : R.Sides A m₁ m₂)
    (hA : ∀ a b, A a b → A' a b) : R.Sides A' m₁ m₂ := by
  obtain ⟨p₁, p₂, hp, rfl, rfl⟩ := h
  refine ⟨p₁ >>= fun x => Pure.pure ⟨x.1, hA _ _ x.2⟩, p₂ >>= fun x => Pure.pure ⟨x.1, hA _ _ x.2⟩,
    R.bind hp fun x => R.pure _, ?_, ?_⟩
  · rw [Walk.bind_assoc]
    rfl
  · rw [Walk.bind_assoc]
    rfl

/-- **Sides one after the other**: what comes after related answers is put together pair by
pair. -/
theorem Sides.bind {m₁ : Walk α} {m₂ : Walk β} {f₁ : α → Walk γ} {f₂ : β → Walk δ}
    (h : R.Sides A m₁ m₂) (hf : ∀ a b, A a b → R.Sides B (f₁ a) (f₂ b)) :
    R.Sides B (m₁ >>= f₁) (m₂ >>= f₂) := by
  obtain ⟨p₁, p₂, hp, rfl, rfl⟩ := h
  choose q₁ q₂ hq hf₁ hf₂ using fun x : { x : α × β // A x.1 x.2 } => hf x.1.1 x.1.2 x.2
  refine ⟨p₁ >>= q₁, p₂ >>= q₂, R.bind hp hq, ?_, ?_⟩
  · rw [Walk.bind_assoc, Walk.bind_assoc]
    exact congrArg (p₁ >>= ·) (funext hf₁)
  · rw [Walk.bind_assoc, Walk.bind_assoc]
    exact congrArg (p₂ >>= ·) (funext hf₂)

end

/-- **A congruence as a simulation** of runs on equal nodes. -/
def simulation : Simulation late w₁ w₂ where
  kin := .strict
  rel := R.Sides
  lenient := False
  scope := Kinship.strict_scoped
  pure {_ _ _ a b} h := ⟨Pure.pure ⟨(a, b), h⟩, Pure.pure ⟨(a, b), h⟩, R.pure _, rfl, rfl⟩
  bind := Sides.bind
  exhausted := ⟨Walk.halt .exhausted, Walk.halt .exhausted, R.halt _, rfl, rfl⟩
  followed h := h.elim
  lenient_loading h := h.elim
  leave notes := sides (R.leave notes)
  unbound _ _ _ hcall := by
    rw [Call.kin_strict.mp hcall]
    exact sides (R.leave _)
  askAsset path := sides (R.askAsset path)
  askFile path := sides (R.askFile path)
  askCondition hlate s := sides (R.askCondition hlate s)
  askRandom hlate seed isStatic := sides (R.askRandom hlate seed isStatic)
  draw hlate _ sample := sides (R.draw hlate sample)
  remember hlate function uid answers := sides (R.remember hlate function uid answers)
  uniqueId := R.uniqueId
  contentRoot := R.contentRoot
  maxIncludeDepth := R.maxIncludeDepth

section

variable {R} {r₁ r₂ : Node → Context → Walk Outcome}

theorem Agree.simulation (h : R.Agree r₁ r₂) : R.simulation.Agree r₁ r₂ := by
  intro m n c d hnode hctx
  obtain rfl := Node.kin_strict.mp hnode
  obtain rfl : c = d := hctx
  exact (sides (h m c)).imp fun _ _ => Outcome.kin_strict.mpr

theorem agree_of_simulation (h : R.simulation.Agree r₁ r₂) : R.Agree r₁ r₂ := by
  intro node ctx
  exact (Sides.imp (h (Node.kin_strict.mpr rfl) rfl) fun _ _ => Outcome.kin_strict.mp).rel

theorem Respects.simulation {f : Function} (h : R.Respects f) : R.simulation.Respects f f where
  sameLate := rfl
  reduce hlate ev k₁ k₂ r₁ r₂ hk hr c d ctx ctx' hcall hctx := by
    obtain rfl : k₁ = k₂ := hk.resolve_right fun h => h.1
    obtain rfl := Call.kin_strict.mp hcall
    obtain rfl : ctx = ctx' := hctx
    have hrel := h hlate { ev with limit := k₁ } r₁ r₂ (agree_of_simulation hr) c ctx
    exact (sides hrel).imp fun _ _ => Outcome.kin_strict.mpr

theorem respects_of_simulation {f : Function} (h : R.simulation.Respects f f) : R.Respects f := by
  intro hlate ev r₁ r₂ hr call ctx
  have hcall : call.Kin R.simulation.kin call := Call.kin_strict.mpr rfl
  have hctx : R.simulation.kin.contexts ctx ctx := rfl
  have hlimit : R.simulation.Within ev.limit ev.limit := .inl rfl
  have hrel := h.reduce hlate ev hlimit hr.simulation hcall hctx
  exact (Sides.imp hrel fun _ _ => Outcome.kin_strict.mp).rel

end

/-! ### What respects congruences -/

/-- **The functions of the language respect every congruence.** -/
theorem respects_builtin : ∀ e ∈ Registry.builtin, R.Respects e.2 := by
  intro e he
  have hgiven : ∀ {α β : Type} {A : α → β → Prop},
      R.simulation.rel A (Walk.halt .infiniteWeight) (Walk.halt .infiniteWeight) :=
    ⟨Walk.halt .infiniteWeight, Walk.halt .infiniteWeight, R.halt _, rfl, rfl⟩
  have hall := R.simulation.respects_builtin fun _ {_ _ _} => hgiven
  exact respects_of_simulation ((List.forall₂_same.mp hall e he).2 trivial)

end Congruence

/-- The same surroundings beside a world. -/
def Surroundings.beside (env : Surroundings) (w : World) : Surroundings :=
  { env with host := w.host, settings := w.settings }

namespace Congruence

variable {late : Bool} {w₁ w₂ : World} (R : Congruence late w₁ w₂)

/-- Whether surroundings are of the pass that a congruence is for, and their functions
respect it. -/
def Fits (env : Surroundings) : Prop :=
  env.late = late ∧ ∀ e ∈ env.registry, R.Respects e.2

variable {R} in
theorem Fits.simulation {env : Surroundings} (h : R.Fits env) :
    R.simulation.Fits (env.beside w₁) (env.beside w₂) where
  sameLate := rfl
  consumes hpass := .inl (h.1.symm.trans hpass)
  host₁ := rfl
  host₂ := rfl
  settings₁ := rfl
  settings₂ := rfl
  files := rfl
  functions := List.forall₂_same.mpr fun e he => ⟨rfl, fun _ => (h.2 e he).simulation⟩
  limit := .inl rfl

/-- **Reduction respects a congruence**, however deep it may be nested. -/
theorem inContext (limit : Nat) {env : Surroundings} (henv : R.Fits env) :
    R.Agree (Reduce.inContext limit (env.beside w₁)) (Reduce.inContext limit (env.beside w₂)) :=
  agree_of_simulation (R.simulation.inContext (.inl rfl) henv.simulation)

/-- The reduction of a node beside two worlds. -/
theorem reduce {env : Surroundings} (henv : R.Fits env) :
    R.Agree (ContentLang.reduce (env.beside w₁)) (ContentLang.reduce (env.beside w₂)) :=
  agree_of_simulation (R.simulation.reduce henv.simulation)

end Congruence

end ContentLang
