import ContentLang.Proofs.Walk.Kin

/-!
# Runs beside one another

Two runs are compared step by step: what is asked and drawn is the same in both, and what they
come upon is kin (`ContentLang.Node.Kin`). A **simulation** (`ContentLang.Simulation`) is a
relation between walks, given how their answers are related, that the walks' building blocks
respect; nothing else of it is used here. What is built from them respects it then: the
evaluator's helpers below, the functions of the language, and in the end the whole reduction,
whatever the relation is about.

The two runs may be

* beside different hosts and settings (`ContentLang.World`),
* on nodes and in contexts that are kin, and
* under different limits, if a run that is given up as too deep is followed by any.

While content is loaded, nothing draws random numbers, remembers or asks for a condition or a
generator, so that a simulation for the loading pass need not respect these.
-/

namespace ContentLang

/-- What a walk is carried out beside. -/
structure World where
  host : Host
  settings : Settings

/-- The same evaluator beside a world, with a way to reduce nodes. -/
def Evaluator.beside (ev : Evaluator) (w : World) (reduce : Node → Context → Walk Outcome) :
    Evaluator :=
  { ev with reduce, host := w.host, settings := w.settings }

/-- The same evaluator beside a world and under a limit. -/
def Evaluator.under (ev : Evaluator) (w : World) (limit : Nat)
    (reduce : Node → Context → Walk Outcome) : Evaluator :=
  { ev.beside w reduce with limit }

/-- **A relation that walks beside two worlds respect**, in the pass that `late` tells. -/
structure Simulation (late : Bool) (w₁ w₂ : World) where
  /-- How what the two runs come upon is related. -/
  kin : Kinship
  /-- How two walks are related whose answers are to be related in a given way. -/
  rel : ∀ {α β : Type}, (α → β → Prop) → Walk α → Walk β → Prop
  /-- Whether a walk that is given up as too deep is followed by any. -/
  lenient : Prop
  scope : kin.Scoped
  pure : ∀ {α β : Type} {R : α → β → Prop} {a : α} {b : β}, R a b →
    rel R (Pure.pure a) (Pure.pure b)
  bind : ∀ {α β γ δ : Type} {R : α → β → Prop} {Q : γ → δ → Prop} {m₁ : Walk α} {m₂ : Walk β}
    {f₁ : α → Walk γ} {f₂ : β → Walk δ}, rel R m₁ m₂ → (∀ a b, R a b → rel Q (f₁ a) (f₂ b)) →
      rel Q (m₁ >>= f₁) (m₂ >>= f₂)
  exhausted : ∀ {α β : Type} {R : α → β → Prop},
    rel R (Walk.halt .exhausted : Walk α) (Walk.halt .exhausted : Walk β)
  followed : lenient → ∀ {α β : Type} {R : α → β → Prop} (m : Walk β),
    rel R (Walk.halt .exhausted : Walk α) m
  lenient_loading : lenient → late = false
  leave : ∀ notes, rel (· = ·) (Walk.leave notes) (Walk.leave notes)
  unbound : kin.calls setName → ∀ {c d : Call}, c.Kin kin d →
    rel (· = ·) (Walk.leave [.unbound c]) (Walk.leave [.unbound d])
  askAsset : ∀ path, rel (· = ·) (Walk.askAsset w₁.host path) (Walk.askAsset w₂.host path)
  askFile : ∀ path, rel (· = ·) (Walk.askFile w₁.host path) (Walk.askFile w₂.host path)
  askCondition : late = true → ∀ s,
    rel (· = ·) (Walk.askCondition w₁.host s) (Walk.askCondition w₂.host s)
  askRandom : late = true → ∀ seed isStatic,
    rel (· = ·) (Walk.askRandom w₁.host seed isStatic) (Walk.askRandom w₂.host seed isStatic)
  draw : late = true → ∀ {α : Type} (sample : Generator → Option (α × Generator)),
    rel (· = ·) (Walk.draw sample) (Walk.draw sample)
  remember : late = true → ∀ function uid answers,
    rel (· = ·) (Walk.remember function uid answers) (Walk.remember function uid answers)
  uniqueId : w₁.settings.uniqueId = w₂.settings.uniqueId
  contentRoot : w₁.settings.contentRoot = w₂.settings.contentRoot
  maxIncludeDepth : w₁.settings.maxIncludeDepth = w₂.settings.maxIncludeDepth

namespace Simulation

variable {late : Bool} {w₁ w₂ : World} (S : Simulation late w₁ w₂) {α β γ δ : Type}
  {R : α → β → Prop} {Q : γ → δ → Prop}

/-! ### Building blocks -/

/-- Whether something may be repeated as often in the second run as in the first. -/
def Within (k l : Nat) : Prop := k = l ∨ S.lenient ∧ k ≤ l

theorem within_late (hlate : late = true) {k l : Nat} (h : S.Within k l) : k = l := by
  rcases h with h | ⟨hlenient, -⟩
  · exact h
  · exact absurd hlate (by simp [S.lenient_loading hlenient])

theorem within_succ {k l : Nat} (h : S.Within (k + 1) l) : ∃ l', l = l' + 1 ∧ S.Within k l' := by
  rcases h with rfl | ⟨hlenient, hle⟩
  · exact ⟨k, rfl, .inl rfl⟩
  · obtain ⟨l', rfl⟩ : ∃ l', l = l' + 1 := ⟨l - 1, by omega⟩
    exact ⟨l', rfl, .inr ⟨hlenient, Nat.le_of_succ_le_succ hle⟩⟩

/-- A walk that cannot be nested at all is followed by one that goes on, if need be. -/
theorem spent {l : Nat} (h : S.Within 0 l) (m : Nat → Walk β)
    (hm : m 0 = Walk.halt .exhausted) : S.rel R (Walk.halt .exhausted : Walk α) (m l) := by
  rcases h with rfl | ⟨hlenient, -⟩
  · rw [hm]
    exact S.exhausted
  · exact S.followed hlenient _

theorem report {o o' : Origin} (h : o.Kin S.kin o') (problem : Problem) :
    S.rel (· = ·) (Walk.report o problem) (Walk.report o' problem) := by
  rw [Walk.report, Walk.report, h.about]
  exact S.leave _

theorem remarkAt (level : Level) {place place' : Location} (h : place = place') (text : String) :
    S.rel (· = ·) (Walk.remarkAt level place text) (Walk.remarkAt level place' text) := by
  rw [h]
  exact S.leave _

/-- What is put after two related walks. -/
theorem map {m₁ : Walk α} {m₂ : Walk β} {f : α → γ} {g : β → δ} (h : S.rel R m₁ m₂)
    (hfg : ∀ a b, R a b → Q (f a) (g b)) :
    S.rel Q (m₁ >>= fun a => Pure.pure (f a)) (m₂ >>= fun b => Pure.pure (g b)) :=
  S.bind h fun a b hab => S.pure (hfg a b hab)

/-- What comes after two walks whose answers are the same. -/
theorem bind_same {m₁ m₂ : Walk α} {f₁ : α → Walk γ} {f₂ : α → Walk δ}
    (h : S.rel (· = ·) m₁ m₂) (hf : ∀ a, S.rel Q (f₁ a) (f₂ a)) :
    S.rel Q (m₁ >>= f₁) (m₂ >>= f₂) := by
  refine S.bind h fun a b hab => ?_
  subst hab
  exact hf a

theorem ite {c d : Prop} [Decidable c] [Decidable d] (hcd : c ↔ d) {m₁ n₁ : Walk α}
    {m₂ n₂ : Walk β} (hm : S.rel R m₁ m₂) (hn : S.rel R n₁ n₂) :
    S.rel R (if c then m₁ else n₁) (if d then m₂ else n₂) := by
  by_cases hc : c
  · rw [if_pos hc, if_pos (hcd.mp hc)]
    exact hm
  · rw [if_neg hc, if_neg fun hd => hc (hcd.mpr hd)]
    exact hn

theorem given {m₁ : Walk (Except Outcome α)} {m₂ : Walk (Except Outcome β)}
    {f₁ : α → Walk Outcome} {f₂ : β → Walk Outcome} (h : S.rel (S.kin.Given R) m₁ m₂)
    (hf : ∀ a b, R a b → S.rel (Outcome.Kin S.kin) (f₁ a) (f₂ b)) :
    S.rel (Outcome.Kin S.kin) (m₁.given f₁) (m₂.given f₂) := by
  refine S.bind h fun a b hab => ?_
  cases hab with
  | ok hab => exact hf _ _ hab
  | error ho => exact S.pure ho

theorem also {m₁ : Walk (Except Outcome α)} {m₂ : Walk (Except Outcome β)}
    {f₁ : α → Walk (Except Outcome γ)} {f₂ : β → Walk (Except Outcome δ)}
    (h : S.rel (S.kin.Given R) m₁ m₂)
    (hf : ∀ a b, R a b → S.rel (S.kin.Given Q) (f₁ a) (f₂ b)) :
    S.rel (S.kin.Given Q) (m₁.also f₁) (m₂.also f₂) := by
  refine S.bind h fun a b hab => ?_
  cases hab with
  | ok hab => exact hf _ _ hab
  | error ho => exact S.pure (.error ho)

/-! ### Faults -/

section

variable {c d : Call} (hcall : c.Kin S.kin d) {m n : Node} (hnode : m.Kin S.kin n)

include hnode in
theorem expectedValue {R : Token → Token → Prop} (found : Kind) :
    S.rel (S.kin.Given R) (Evaluator.expectedValue m found) (Evaluator.expectedValue n found) :=
  S.map (S.report hnode.origin _) fun _ _ _ => .error (.token hnode.origin.error)

include hcall

theorem wrongArity (expected : Arity) :
    S.rel (Outcome.Kin S.kin) (Evaluator.wrongArity c expected)
      (Evaluator.wrongArity d expected) := by
  unfold Evaluator.wrongArity
  rw [hcall.function, hcall.params.length_eq]
  exact S.map (S.report hcall.origin _) fun _ _ _ => .token hcall.origin.error

include hnode in
theorem invalidArgument (fault : Fault) :
    S.rel (Outcome.Kin S.kin) (Evaluator.invalidArgument c m fault)
      (Evaluator.invalidArgument d n fault) := by
  unfold Evaluator.invalidArgument
  rw [hcall.function]
  exact S.map (S.report hnode.origin _) fun _ _ _ => .token hcall.origin.error

include hnode in
/-- The same fault, as the outcome in place of an answer. -/
theorem invalid (fault : Fault) :
    S.rel (S.kin.Given R) (do return .error (← Evaluator.invalidArgument c m fault))
      (do return .error (← Evaluator.invalidArgument d n fault)) :=
  S.map (S.invalidArgument hcall hnode fault) fun _ _ h => .error h

theorem withArity (expected : Arity) {f₁ f₂ : Walk Outcome}
    (h : S.rel (Outcome.Kin S.kin) f₁ f₂) :
    S.rel (Outcome.Kin S.kin) (Evaluator.withArity c expected f₁)
      (Evaluator.withArity d expected f₂) := by
  unfold Evaluator.withArity
  rw [hcall.params.length_eq]
  exact S.ite .rfl h (S.wrongArity hcall expected)

theorem withFirst (expected : Arity) {f₁ f₂ : Node → List Node → Walk Outcome}
    (h : ∀ {m n ms ns}, m.Kin S.kin n → List.Forall₂ (Node.Kin S.kin) ms ns →
      S.rel (Outcome.Kin S.kin) (f₁ m ms) (f₂ n ns)) :
    S.rel (Outcome.Kin S.kin) (Evaluator.withFirst c expected f₁)
      (Evaluator.withFirst d expected f₂) := by
  have hwrong := S.wrongArity hcall expected
  obtain ⟨f, ps, o⟩ := c
  obtain ⟨g, qs, o'⟩ := d
  have hparams : List.Forall₂ (Node.Kin S.kin) ps qs := hcall.params
  unfold Evaluator.withFirst
  dsimp only
  rw [hparams.length_eq]
  cases hparams with
  | nil => exact hwrong
  | cons hn hns => exact S.ite .rfl (h hn hns) hwrong

end

/-! ### What reduces nodes -/

/-- **Whether two ways to reduce nodes are related**: on kin nodes, in related contexts. -/
def Agree (r₁ r₂ : Node → Context → Walk Outcome) : Prop :=
  ∀ {m n : Node} {c d : Context}, m.Kin S.kin n → S.kin.contexts c d →
    S.rel (Outcome.Kin S.kin) (r₁ m c) (r₂ n d)

section

variable {S} {r₁ r₂ : Node → Context → Walk Outcome} (hr : S.Agree r₁ r₂) (ev : Evaluator)
  {k₁ k₂ : Nat} {m n : Node} {c d : Context} (hctx : S.kin.contexts c d)
include hr hctx

theorem requireToken (hnode : m.Kin S.kin n) :
    S.rel (S.kin.Given (TokenOf.Kin S.kin)) ((ev.under w₁ k₁ r₁).requireToken m c)
      ((ev.under w₂ k₂ r₂).requireToken n d) := by
  have hleft : ∀ {f : String}, S.rel (S.kin.Given (TokenOf.Kin S.kin))
      (if ev.isKnown f = true then Pure.pure (.error .pending) else do
        Walk.report m.origin (.unknownFunction f (closestName f ev.knownNames))
        return .error (.error m.origin))
      (if ev.isKnown f = true then Pure.pure (.error .pending) else do
        Walk.report n.origin (.unknownFunction f (closestName f ev.knownNames))
        return .error (.error n.origin)) := fun {f} =>
    S.ite .rfl (S.pure (.error .pending))
      (S.map (S.report hnode.origin _) fun _ _ _ => .error (.token hnode.origin.error))
  refine S.bind (hr hnode hctx) fun x y hxy => ?_
  cases hxy with
  | pending => exact S.pure (.error .pending)
  | empty => exact S.expectedValue hnode .nothing
  | splice _ => exact S.expectedValue hnode .array
  | value hfound =>
    -- Which names are known is the same in both runs.
    cases hfound with
    | token ht => exact S.pure (.ok ht)
    | call _ _ _ => exact hleft
    | statement _ _ _ _ => exact hleft
    | columns _ _ _ => exact S.expectedValue hnode _
    | array _ _ => exact S.expectedValue hnode _

theorem requireTokens {ms ns : List Node} (hnodes : List.Forall₂ (Node.Kin S.kin) ms ns) :
    S.rel (S.kin.Given (List.Forall₂ (TokenOf.Kin S.kin))) ((ev.under w₁ k₁ r₁).requireTokens c ms)
      ((ev.under w₂ k₂ r₂).requireTokens d ns) := by
  induction hnodes with
  | nil => exact S.pure (.ok .nil)
  | cons hn _ ih =>
    exact S.also (requireToken hr ev hctx hn) fun s t hst => S.also ih fun ss ts hts =>
      S.pure (.ok (.cons hst hts))

theorem token? (hnode : m.Kin S.kin n) :
    S.rel (Option.Rel (TokenOf.Kin S.kin)) ((ev.under w₁ k₁ r₁).token? m c)
      ((ev.under w₂ k₂ r₂).token? n d) := by
  refine S.bind (hr hnode hctx) fun x y hxy => ?_
  cases hxy with
  | value hfound =>
    cases hfound with
    | token ht => exact S.pure (.some ht)
    | _ => exact S.pure .none
  | _ => exact S.pure .none

theorem tokenOrPlaceholder? (hnode : m.Kin S.kin n) :
    S.rel (Option.Rel (TokenOf.Kin S.kin)) ((ev.under w₁ k₁ r₁).tokenOrPlaceholder? m c)
      ((ev.under w₂ k₂ r₂).tokenOrPlaceholder? n d) := by
  refine S.bind (requireToken hr ev hctx hnode) fun x y hxy => ?_
  cases hxy with
  | ok ht => exact S.pure (.some ht)
  | error ho =>
    cases ho with
    | value hfound =>
      cases hfound with
      | token ht => exact S.pure (.some ht)
      | _ => exact S.pure .none
    | _ => exact S.pure .none

theorem members {call call' : Call} (hcall : call.Kin S.kin call') (hnode : m.Kin S.kin n) :
    S.rel (S.kin.Given (List.Forall₂ (Node.Kin S.kin))) ((ev.under w₁ k₁ r₁).members call m c)
      ((ev.under w₂ k₂ r₂).members call' n d) := by
  have hreduced := hr hnode hctx
  have hinvalid := fun fault => S.invalid (R := List.Forall₂ (Node.Kin S.kin)) hcall hnode fault
  have hother : ∀ {m' n' : Node}, m'.Kin S.kin n' →
      S.rel (S.kin.Given (List.Forall₂ (Node.Kin S.kin)))
        (if ev.isDeferred m' then Pure.pure (.error .pending) else do
          return .error (← Evaluator.invalidArgument call m (.notAnArray m'.kind)))
        (if ev.isDeferred n' then Pure.pure (.error .pending) else do
          return .error (← Evaluator.invalidArgument call' n (.notAnArray n'.kind))) := by
    intro m' n' h
    rw [Evaluator.isDeferred, Evaluator.isDeferred, h.function?, h.kind]
    exact S.ite .rfl (S.pure (.error .pending)) (hinvalid _)
  cases hnode
  case array his _ => exact S.pure (.ok his)
  all_goals
    refine S.bind hreduced fun x y hxy => ?_
    cases hxy with
    | pending => exact S.pure (.error .pending)
    | empty => exact hinvalid _
    | splice his => exact S.pure (.ok his)
    | value hfound =>
      have hfound' := hother hfound
      cases hfound
      case array his _ => exact S.pure (.ok his)
      all_goals exact hfound'

end

theorem sample (hlate : late = true) (ev : Evaluator) (r₁ r₂ : Node → Context → Walk Outcome)
    (k₁ k₂ : Nat) (seed : Option UInt64) (isStatic : Bool)
    (f : Generator → Option (α × Generator)) :
    S.rel (· = ·) ((ev.under w₁ k₁ r₁).sample seed isStatic f)
      ((ev.under w₂ k₂ r₂).sample seed isStatic f) := by
  cases seed with
  | none => exact S.draw hlate f
  | some seed =>
    refine S.bind_same (S.askRandom hlate seed isStatic) fun g => ?_
    cases f g with
    | some a => exact S.pure rfl
    | none => exact S.exhausted

end Simulation

end ContentLang
