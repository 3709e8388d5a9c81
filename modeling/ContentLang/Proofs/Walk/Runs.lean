import ContentLang.Walk

/-!
# Runs of walks

What a walk does from a state, one lemma for each way to build a walk. A walk after another
one is either not begun, because the first was given up, or goes on from the state that the
first one left.
-/

namespace ContentLang

namespace Walk

variable {α β : Type} {m : Walk α} {f : α → Walk β} {s : WalkState}

theorem pure_apply (a : α) (s : WalkState) : (Pure.pure a : Walk α) s = ⟨.ok a, s, []⟩ := rfl

/-- An answer that is there is gone on with. -/
theorem pure_bind (a : α) : (Pure.pure a >>= f) = f a := rfl

/-- A walk goes on from where the one before it ended. -/
theorem bind_ok {a : α} (h : (m s).answer = .ok a) :
    (m >>= f) s = ⟨(f a (m s).state).answer, (f a (m s).state).state,
      (m s).notes ++ (f a (m s).state).notes⟩ := by
  show andThen m f s = _
  unfold andThen
  generalize m s = r at h ⊢
  obtain ⟨answer, state, notes⟩ := r
  obtain rfl : answer = .ok a := h
  rfl

/-- Nothing comes after a walk that was given up. -/
theorem bind_error {e : Halt} (h : (m s).answer = .error e) :
    (m >>= f) s = ⟨.error e, (m s).state, (m s).notes⟩ := by
  show andThen m f s = _
  unfold andThen
  generalize m s = r at h ⊢
  obtain ⟨answer, state, notes⟩ := r
  obtain rfl : answer = .error e := h
  rfl

/-- Three walks one after the other. -/
theorem bind_assoc {γ : Type} (m : Walk α) (f : α → Walk β) (g : β → Walk γ) :
    (m >>= f) >>= g = m >>= fun a => f a >>= g := by
  funext s
  cases hm : (m s).answer with
  | error e =>
    have hmf : ((m >>= f) s).answer = .error e := by rw [bind_error hm]
    rw [bind_error hmf, bind_error hm, bind_error hm]
  | ok a =>
    cases hf : (f a (m s).state).answer with
    | error e =>
      have hmf : ((m >>= f) s).answer = .error e := by rw [bind_ok hm, hf]
      rw [bind_error hmf, bind_ok hm, bind_ok hm, bind_error hf]
    | ok b =>
      have hmf : ((m >>= f) s).answer = .ok b := by rw [bind_ok hm, hf]
      rw [bind_ok hmf, bind_ok hm, bind_ok hm, bind_ok hf, List.append_assoc]

/-- Nothing is done after a walk. -/
theorem bind_pure (m : Walk α) : (m >>= fun a => Pure.pure a) = m := by
  funext s
  cases hm : (m s).answer with
  | error e => rw [bind_error hm, ← hm]
  | ok a => rw [bind_ok hm, pure_apply, ← hm, List.append_nil]

/-- **An answer of two walks** comes from an answer of the first one. -/
theorem answer_of_bind {b : β} (h : ((m >>= f) s).answer = .ok b) :
    ∃ a, (m s).answer = .ok a ∧ (f a (m s).state).answer = .ok b ∧
      ((m >>= f) s).notes = (m s).notes ++ (f a (m s).state).notes := by
  cases hm : (m s).answer with
  | ok a =>
    rw [bind_ok hm] at h ⊢
    exact ⟨a, rfl, h, rfl⟩
  | error e =>
    rw [bind_error hm] at h
    exact absurd h (by simp)

/-! ### Runs that are the same -/

/-- Whether a walk comes to the same answer and the same state as another one, unless the notes of
that one are bad. -/
def SameUnless (bad : List Note → Prop) (m₁ m₂ : Walk α) : Prop :=
  ∀ s, ¬ bad (m₁ s).notes → (m₂ s).answer = (m₁ s).answer ∧ (m₂ s).state = (m₁ s).state

theorem sameUnless_bind {bad : List Note → Prop}
    (hbad : ∀ {ns ms}, bad (ns ++ ms) ↔ bad ns ∨ bad ms) {m₁ m₂ : Walk α} {f₁ f₂ : α → Walk β}
    (h : SameUnless bad m₁ m₂) (hf : ∀ a, SameUnless bad (f₁ a) (f₂ a)) :
    SameUnless bad (m₁ >>= f₁) (m₂ >>= f₂) := by
  intro s hs
  cases hm : (m₁ s).answer with
  | error e =>
    rw [bind_error hm] at hs ⊢
    obtain ⟨ha, hstate⟩ := h s hs
    rw [bind_error (ha.trans hm)]
    exact ⟨rfl, hstate⟩
  | ok a =>
    rw [bind_ok hm, hbad, not_or] at hs
    obtain ⟨ha, hstate⟩ := h s hs.1
    rw [bind_ok hm, bind_ok (ha.trans hm), hstate]
    exact hf a _ hs.2

/-! ### Answers that are there -/

theorem toOption_eq_some {ε : Type} {r : Except ε α} {a : α} :
    r.toOption = some a ↔ r = .ok a := by
  cases r <;> simp [Except.toOption]

theorem join_toOption_eq_some {r : Except Halt (Option α)} {a : α} :
    r.toOption.join = some a ↔ r = .ok (some a) := by
  cases r <;> simp [Except.toOption]

end Walk

end ContentLang
