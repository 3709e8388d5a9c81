import ContentLang.Proofs.Walk.Terminating

/-!
# Walks that track others

Two walks that do the same at different depths, or with more said on the way, do not match
(`ContentLang.Walk.Matches`), but the second still **tracks** the first: unless a run of the first
is given up as too deep, it ends alike and goes on from the same state. Notes are not compared.

| judgment | the two runs start | and end |
|---|---|---|
| `ContentLang.Walk.Tracked` | in one state | with related answers, in one state |
| `ContentLang.Walk.Regardless` | in any two states | with related answers |

The second is that of walks in which nothing depends on what is drawn. An **idle** walk
(`ContentLang.Walk.Idle`) does nothing but come to an answer; it does not count beside what comes
after it.

A walk that may be nested deeper does what one does that is not given up as too deep
(`ContentLang.Reduce.inContext_deeper`), in either pass.
-/

namespace ContentLang

namespace Walk

variable {α β γ δ : Type} {R : α → β → Prop} {Q : γ → δ → Prop} {m₁ : Walk α} {m₂ : Walk β}
  {f₁ : α → Walk γ} {f₂ : β → Walk δ}

theorem SameEnd.imp {R' : α → β → Prop} {x : Except Halt α} {y : Except Halt β}
    (h : SameEnd R x y) (hR : ∀ a b, R a b → R' a b) : SameEnd R' x y := by
  rcases h with ⟨hab⟩ | ⟨halt⟩
  · exact .ok (hR _ _ hab)
  · exact .error halt

theorem SameEnd.exists_ok {x : Except Halt α} {y : Except Halt β} (h : SameEnd R x y) {a : α}
    (hx : x = .ok a) : ∃ b, y = .ok b ∧ R a b := by
  cases h with
  | ok hab => exact ⟨_, rfl, Except.ok.inj hx ▸ hab⟩
  | error halt => exact absurd hx (by simp)

theorem SameEnd.rfl {R : α → α → Prop} (hR : ∀ a, R a a) (x : Except Halt α) : SameEnd R x x := by
  rcases x with halt | a
  · exact .error halt
  · exact .ok (hR a)

theorem SameEnd.of_eq {R : α → α → Prop} (hR : ∀ a, R a a) {x y : Except Halt α} (h : x = y) :
    SameEnd R x y :=
  h ▸ .rfl hR x

/-- What is made of the answer of a walk. -/
theorem answer_map (m : Walk α) (f : α → γ) (s : WalkState) :
    ((m >>= fun a => Pure.pure (f a)) s).answer = (m s).answer.map f := by
  cases ha : (m s).answer with
  | ok a => rw [bind_ok ha]; rfl
  | error halt => rw [bind_error ha]; rfl

/-- Only what a walk may be given has to be gone on with alike. -/
theorem bind_congr {f g : α → Walk γ} (h : ∀ s a, (m₁ s).answer = .ok a → f a = g a) :
    m₁ >>= f = m₁ >>= g := by
  funext s
  cases ha : (m₁ s).answer with
  | ok a => rw [bind_ok ha, bind_ok ha, h s a ha]
  | error halt => rw [bind_error ha, bind_error ha]

theorem ok_of_map {x : Except Halt α} {f : α → γ} {c : γ} (h : x.map f = .ok c) :
    ∃ a, x = .ok a ∧ f a = c := by
  cases x with
  | error halt => exact nomatch h
  | ok a => exact ⟨a, rfl, Except.ok.inj h⟩

/-- **Whether one walk is tracked by another**: from every state they end with related answers and
in one state, unless the first is given up as too deep. -/
def Tracked (R : α → β → Prop) (m₁ : Walk α) (m₂ : Walk β) : Prop :=
  ∀ s, (m₁ s).answer = .error .exhausted ∨
    SameEnd R (m₁ s).answer (m₂ s).answer ∧ (m₁ s).state = (m₂ s).state

/-- **Whether one walk ends like another, whatever was drawn before**: from any two states they end
with related answers, unless the first is given up as too deep. -/
def Regardless (R : α → β → Prop) (m₁ : Walk α) (m₂ : Walk β) : Prop :=
  ∀ s₁ s₂, (m₁ s₁).answer = .error .exhausted ∨ SameEnd R (m₁ s₁).answer (m₂ s₂).answer

/-- Whether a walk comes to the same answer from every state. -/
def Fixed (m : Walk α) : Prop := ∀ s s', (m s).answer = (m s').answer

/-- **What a walk comes to**: from every state it ends with an answer that satisfies a condition,
unless it is given up as too deep. -/
def Certain (P : α → Prop) (m : Walk α) : Prop :=
  ∀ s, (m s).answer = .error .exhausted ∨ ∃ a, (m s).answer = .ok a ∧ P a

/-- **Whether a walk is idle**: unless it is given up as too deep, it comes to what satisfies a
condition, and leaves the state as it is. -/
def Idle (P : α → Prop) (m : Walk α) : Prop :=
  ∀ s, (m s).answer = .error .exhausted ∨ ∃ a, (m s).answer = .ok a ∧ P a ∧ (m s).state = s

/-! ### Tracking -/

theorem tracked_refl {R : α → α → Prop} (hR : ∀ a, R a a) (m : Walk α) : Tracked R m m :=
  fun _ => .inr ⟨.rfl hR _, rfl⟩

theorem tracked_pure {a : α} {b : β} (h : R a b) :
    Tracked R (Pure.pure a : Walk α) (Pure.pure b : Walk β) :=
  fun _ => .inr ⟨.ok h, rfl⟩

theorem Tracked.imp {R' : α → β → Prop} (h : Tracked R m₁ m₂) (hR : ∀ a b, R a b → R' a b) :
    Tracked R' m₁ m₂ :=
  fun s => (h s).imp_right fun ⟨hends, hstate⟩ => ⟨hends.imp hR, hstate⟩

/-- **Walks one after the other are tracked** if each is. -/
theorem tracked_bind (h : Tracked R m₁ m₂) (hf : ∀ a b, R a b → Tracked Q (f₁ a) (f₂ b)) :
    Tracked Q (m₁ >>= f₁) (m₂ >>= f₂) := by
  intro s
  rcases h s with hdeep | ⟨hends, hstate⟩
  · exact .inl (by rw [bind_error hdeep])
  · generalize h₁ : (m₁ s).answer = x, h₂ : (m₂ s).answer = y at hends
    rcases hends with ⟨hab⟩ | ⟨halt⟩
    · rw [bind_ok h₁, bind_ok h₂, hstate]
      exact hf _ _ hab _
    · rw [bind_error h₁, bind_error h₂]
      exact .inr ⟨.error halt, hstate⟩

theorem tracked_map {f : α → γ} {g : β → δ} (h : Tracked R m₁ m₂)
    (hfg : ∀ a b, R a b → Q (f a) (g b)) :
    Tracked Q (m₁ >>= fun a => Pure.pure (f a)) (m₂ >>= fun b => Pure.pure (g b)) :=
  tracked_bind h fun a b hab => tracked_pure (hfg a b hab)

/-- Tracking a walk that tracks another one. -/
theorem Tracked.trans {R' : β → γ → Prop} {m₃ : Walk γ} (h : Tracked R m₁ m₂)
    (h' : Tracked R' m₂ m₃) : Tracked (fun a c => ∃ b, R a b ∧ R' b c) m₁ m₃ := by
  intro s
  rcases h s with hdeep | ⟨hends, hstate⟩
  · exact .inl hdeep
  · generalize (m₁ s).answer = x, h₂ : (m₂ s).answer = y at hends ⊢
    rcases h' s with hdeep | ⟨hends', hstate'⟩
    · rcases hends with ⟨hab⟩ | ⟨halt⟩
      · exact nomatch h₂.symm.trans hdeep
      · obtain rfl : halt = .exhausted := Except.error.inj (h₂.symm.trans hdeep)
        exact .inl rfl
    · rw [h₂] at hends'
      generalize (m₃ s).answer = z at hends'
      refine .inr ⟨?_, hstate.trans hstate'⟩
      rcases hends with ⟨hab⟩ | ⟨halt⟩
      · rcases hends' with ⟨hbc⟩
        exact .ok ⟨_, hab, hbc⟩
      · rcases hends' with _ | _
        exact .error halt

/-- What is known of all that the first walk comes to. -/
theorem Tracked.and {P : α → Prop} (h : Tracked R m₁ m₂)
    (hP : ∀ s a, (m₁ s).answer = .ok a → P a) : Tracked (fun a b => R a b ∧ P a) m₁ m₂ := by
  intro s
  refine (h s).imp_right fun ⟨hends, hstate⟩ => ⟨?_, hstate⟩
  generalize ha : (m₁ s).answer = x, (m₂ s).answer = y at hends
  rcases hends with ⟨hab⟩ | ⟨halt⟩
  · exact .ok ⟨hab, hP s _ ha⟩
  · exact .error halt

/-- A walk that matches another one is tracked by it. -/
theorem Matches.tracked {ruledOut : Halt → Prop} (h : Matches Halt.never ruledOut R m₁ m₂) :
    Tracked R m₁ m₂ := by
  intro s
  rcases h s with ⟨halt, hnever, -⟩ | hsame
  · exact hnever.elim
  · exact .inr ⟨hsame.answer, hsame.state⟩

/-! ### What walks come to -/

variable {P : α → Prop} {P' : γ → Prop}

theorem certain_pure {a : α} (h : P a) : Certain P (Pure.pure a : Walk α) :=
  fun _ => .inr ⟨a, rfl, h⟩

theorem certain_bind (h : Certain P m₁) (hf : ∀ a, P a → Certain P' (f₁ a)) :
    Certain P' (m₁ >>= f₁) := by
  intro s
  rcases h s with hdeep | ⟨a, ha, hp⟩
  · exact .inl (by rw [bind_error hdeep])
  · rw [bind_ok ha]
    exact hf a hp _

/-! ### Idle walks -/

theorem idle_pure {a : α} (h : P a) : Idle P (Pure.pure a : Walk α) :=
  fun _ => .inr ⟨a, rfl, h, rfl⟩

theorem idle_leave (notes : List Note) : Idle (fun _ => True) (Walk.leave notes) :=
  fun _ => .inr ⟨(), rfl, trivial, rfl⟩

theorem idle_bind (h : Idle P m₁) (hf : ∀ a, P a → Idle P' (f₁ a)) : Idle P' (m₁ >>= f₁) := by
  intro s
  rcases h s with hdeep | ⟨a, ha, hp, hstate⟩
  · exact .inl (by rw [bind_error hdeep])
  · rw [bind_ok ha, hstate]
    exact hf a hp s

theorem idle_map {f : α → γ} (h : Idle P m₁) (hf : ∀ a, P a → P' (f a)) :
    Idle P' (m₁ >>= fun a => Pure.pure (f a)) :=
  idle_bind h fun a ha => idle_pure (hf a ha)

/-- An idle walk is tracked by doing nothing. -/
theorem Idle.tracked {b : β} (h : Idle P m₁) (hR : ∀ a, P a → R a b) :
    Tracked R m₁ (Pure.pure b) := by
  intro s
  rcases h s with hdeep | ⟨a, ha, hp, hstate⟩
  · exact .inl hdeep
  · rw [ha]
    exact .inr ⟨.ok (hR a hp), hstate⟩

/-- What an idle walk does afterwards does not count. -/
theorem Tracked.before (h : Tracked R m₁ m₂) {Q : γ → β → Prop}
    (hf : ∀ a b, R a b → Idle (Q · b) (f₁ a)) : Tracked Q (m₁ >>= f₁) m₂ := by
  rw [← bind_pure m₂]
  exact tracked_bind h fun a b hab => (hf a b hab).tracked fun _ hc => hc

/-! ### Whatever was drawn -/

theorem regardless_pure {a : α} {b : β} (h : R a b) :
    Regardless R (Pure.pure a : Walk α) (Pure.pure b : Walk β) :=
  fun _ _ => .inr (.ok h)

/-- What comes after runs that end alike, and ends alike regardless. -/
theorem ends_bind {s₁ s₂ : WalkState}
    (h : (m₁ s₁).answer = .error .exhausted ∨ SameEnd R (m₁ s₁).answer (m₂ s₂).answer)
    (hf : ∀ a b, R a b → Regardless Q (f₁ a) (f₂ b)) :
    ((m₁ >>= f₁) s₁).answer = .error .exhausted ∨
      SameEnd Q ((m₁ >>= f₁) s₁).answer ((m₂ >>= f₂) s₂).answer := by
  rcases h with hdeep | hends
  · exact .inl (by rw [bind_error hdeep])
  · generalize h₁ : (m₁ s₁).answer = x, h₂ : (m₂ s₂).answer = y at hends
    rcases hends with ⟨hab⟩ | ⟨halt⟩
    · rw [bind_ok h₁, bind_ok h₂]
      exact hf _ _ hab _ _
    · rw [bind_error h₁, bind_error h₂]
      exact .inr (.error halt)

/-- Walks one after the other end alike if each does. -/
theorem regardless_bind (h : Regardless R m₁ m₂)
    (hf : ∀ a b, R a b → Regardless Q (f₁ a) (f₂ b)) :
    Regardless Q (m₁ >>= f₁) (m₂ >>= f₂) :=
  fun s₁ s₂ => ends_bind (h s₁ s₂) hf

/-- What a walk comes to is all that counts of it. -/
theorem regardless_after {m₂ : Walk δ} {P : α → Prop} (h : Certain P m₁)
    (hf : ∀ a, P a → Regardless Q (f₁ a) m₂) : Regardless Q (m₁ >>= f₁) m₂ := by
  intro s₁ s₂
  rcases h s₁ with hdeep | ⟨a, ha, hp⟩
  · exact .inl (by rw [bind_error hdeep])
  · rw [bind_ok ha]
    exact hf a hp _ _

theorem regardless_map {f : α → γ} {g : β → δ} (h : Regardless R m₁ m₂)
    (hfg : ∀ a b, R a b → Q (f a) (g b)) :
    Regardless Q (m₁ >>= fun a => Pure.pure (f a)) (m₂ >>= fun b => Pure.pure (g b)) :=
  regardless_bind h fun a b hab => regardless_pure (hfg a b hab)

theorem Fixed.map (h : Fixed m₁) (f : α → γ) : Fixed (m₁ >>= fun a => Pure.pure (f a)) :=
  fun s s' => by rw [answer_map, answer_map, h s s']

/-- The same the other way round, if different answers are made different things of. -/
theorem Fixed.of_map {f : α → γ} (hf : Function.Injective f)
    (h : Fixed (m₁ >>= fun a => Pure.pure (f a))) : Fixed m₁ := by
  intro s s'
  have hsame := h s s'
  rw [answer_map, answer_map] at hsame
  generalize (m₁ s).answer = x, (m₁ s').answer = y at hsame
  cases x with
  | error halt =>
    cases y with
    | error halt' => rw [Except.error.inj hsame]
    | ok b => exact nomatch hsame
  | ok a =>
    cases y with
    | error halt => exact nomatch hsame
    | ok b => rw [hf (Except.ok.inj hsame)]

theorem Fixed.regardless {R : α → α → Prop} (hR : ∀ a, R a a) {m : Walk α} (h : Fixed m) :
    Regardless R m m :=
  fun s₁ s₂ => .inr (.of_eq hR (h s₁ s₂))

/-- What is tracked by a walk that ends alike from every state ends like it regardless. -/
theorem Tracked.regardless (h : Tracked R m₁ m₂)
    (hfixed : Fixed m₂) : Regardless R m₁ m₂ :=
  fun s₁ s₂ => (h s₁).imp_right fun ⟨hends, _⟩ => hfixed s₁ s₂ ▸ hends

end Walk

/-! ### Walks that may be nested deeper -/

/-- **The simulation of runs that may be nested deeper** than others: a run that is given up as too
deep need not be matched. -/
def Simulation.deeper (env : Surroundings) :
    Simulation env.late ⟨env.host, env.settings⟩ ⟨env.host, env.settings⟩ where
  kin := .strict
  rel := Walk.Matches Halt.IsExhausted Halt.never
  lenient := False
  scope := Kinship.strict_scoped
  pure := Walk.matches_pure
  bind := Walk.matches_bind
  exhausted := Walk.matches_halt Halt.not_never
  followed h := h.elim
  lenient_loading h := h.elim
  leave _ := Walk.matches_self fun _ => ⟨_, rfl⟩
  unbound _ _ _ hcall := by
    rw [Call.kin_strict.mp hcall]
    exact Walk.matches_self fun _ => ⟨_, rfl⟩
  askAsset _ := Walk.matches_self fun _ => ⟨_, rfl⟩
  askFile _ := Walk.matches_self fun _ => ⟨_, rfl⟩
  askCondition _ _ := Walk.matches_self fun _ => ⟨_, rfl⟩
  askRandom _ _ _ := Walk.matches_self fun _ => ⟨_, rfl⟩
  draw _ _ sample := Walk.matches_draw Halt.not_never sample
  remember _ _ _ _ := Walk.matches_self fun _ => ⟨_, rfl⟩
  uniqueId := rfl
  contentRoot := rfl
  maxIncludeDepth := rfl

namespace Reduce

open Walk

theorem recursors_deeper (env : Surroundings) (k : Nat) :
    (Simulation.deeper env).Recursors (inContext k) (inContext (k + 1)) := by
  induction k with
  | zero =>
    intro _ _ _ m n c d _ _
    have hdeep : Halt.IsExhausted .exhausted := rfl
    exact matches_excused hdeep _
  | succ k ih => exact Simulation.step _ ih

/-- **A walk that may be nested deeper does the same**, unless a walk is given up as too deep. -/
theorem inContext_deeper {env : Surroundings} (hregistry : env.registry = .builtin) {k l : Nat}
    (hkl : k ≤ l) (n : Node) (ctx : Context) (s : WalkState) :
    (inContext k env n ctx s).answer = .error .exhausted ∨
      inContext l env n ctx s = inContext k env n ctx s := by
  let S := Simulation.deeper env
  have hfunctions : S.RespectsAll env.registry env.registry :=
    hregistry ▸ S.respects_builtin fun _ => matches_halt id
  have hfits : S.Fits env env := ⟨rfl, .inl, rfl, rfl, rfl, rfl, rfl, hfunctions, .inl rfl⟩
  induction hkl with
  | refl => exact .inr rfl
  | @step l _ ih =>
    rcases ih with hdeep | hsame
    · exact .inl hdeep
    · have hnode : n.Kin S.kin n := Node.kin_strict.mpr rfl
      have hctx : S.kin.contexts ctx ctx := rfl
      rcases recursors_deeper env l hfits hnode hctx s with ⟨halt, rfl, hhalt⟩ | hrun
      · exact .inl (hsame ▸ hhalt)
      · exact .inr ((hrun.eq fun _ _ => Outcome.kin_strict.mp).symm.trans hsame)

/-- The same of a visit. -/
theorem visit_deeper {env : Surroundings} (hregistry : env.registry = .builtin) {k l : Nat}
    (hkl : k ≤ l) (n : Node) (ctx : Context) :
    Tracked (· = ·) (visit env (inContext k) n ctx) (visit env (inContext l) n ctx) := by
  intro s
  rcases inContext_deeper hregistry hkl n (contextOf env n ctx) s with hdeep | hsame
  · exact .inl hdeep
  · refine .inr ⟨.of_eq (fun _ => rfl) (congrArg Walked.answer hsame).symm, ?_⟩
    exact (congrArg Walked.state hsame).symm

end Reduce

/-! ### What nodes come to -/

namespace Engine

open Walk

/-- What a node comes to when it is consumed as a part of a file. -/
def comesTo (e : Engine) (file : String) (n : Node) : Except Halt (Option Node) :=
  (reduce (e.surroundings true file) n n.origin.context e.state).answer.map (·.toNode? n.origin)

/-- **How consuming two nodes compares**: unless the first is given up as too deep, they come to
related nodes, or both to nothing, or are given up alike. -/
def Compares (e : Engine) (file : String) (R : Node → Node → Prop) (m n : Node) : Prop :=
  e.comesTo file m = .error .exhausted ∨
    SameEnd (Option.Rel R) (e.comesTo file m) (e.comesTo file n)

variable {e : Engine} {file : String} {R : Node → Node → Prop} {m n : Node}

theorem compares_of_ends
    (h : (reduce (e.surroundings true file) m m.origin.context e.state).answer = .error .exhausted ∨
      SameEnd (fun a b => Option.Rel R (a.toNode? m.origin) (b.toNode? n.origin))
        (reduce (e.surroundings true file) m m.origin.context e.state).answer
        (reduce (e.surroundings true file) n n.origin.context e.state).answer) :
    e.Compares file R m n := by
  rcases h with hdeep | hends
  · exact .inl (by rw [comesTo, hdeep]; rfl)
  · exact .inr (hends.map fun _ _ hab => hab)

theorem compares_of_tracked
    (h : Tracked (fun a b => Option.Rel R (a.toNode? m.origin) (b.toNode? n.origin))
      (reduce (e.surroundings true file) m m.origin.context)
      (reduce (e.surroundings true file) n n.origin.context)) : e.Compares file R m n :=
  compares_of_ends ((h e.state).imp_right And.left)

end Engine

end ContentLang
