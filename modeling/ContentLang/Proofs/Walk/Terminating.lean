import ContentLang.Proofs.Walk.Matching
import ContentLang.Proofs.Walk.Meets

/-!
# Walks that terminate

How deep a walk may be nested, and how often something may be repeated in it, is limited. A
family of walks by these two limits **terminates** (`ContentLang.Walk.Terminates`) if there is an
answer that the walks **come to** (`ContentLang.Walk.Comes`), from every state, as soon as both
limits are high enough. Walks one after the other terminate if each of them does, the later ones
given what the first come to (`ContentLang.Walk.Terminates.bind`).

Where higher limits make no difference but to a run that is too deep, and the state makes none,
a single run that comes to an answer is enough (`ContentLang.Walk.comes_of_run`). Where the state
does make a difference, it is said what walks **reach** from one (`ContentLang.Walk.Reaches`).
-/

namespace ContentLang

/-- Whether a walk is given up as too deep. -/
def Halt.IsExhausted (halt : Halt) : Prop := halt = .exhausted

namespace Walk

variable {α β : Type} {m : Nat → Nat → Walk α} {f : Nat → Nat → α → Walk β}

/-- **What walks come to** once the limits are high enough. -/
def Comes (m : Nat → Nat → Walk α) (a : α) : Prop :=
  ∃ n, ∀ k l, n ≤ k → n ≤ l → ∀ s, (m k l s).answer = .ok a

/-- **Whether walks terminate** once the limits are high enough. -/
def Terminates (m : Nat → Nat → Walk α) : Prop := ∃ a, Comes m a

/-- A walk without limits, that has one answer. -/
theorem comes_always {w : Walk α} {a : α} (h : ∀ s, (w s).answer = .ok a) :
    Comes (fun _ _ => w) a :=
  ⟨0, fun _ _ _ _ => h⟩

theorem terminates_pure (a : α) : Terminates fun _ _ => (Pure.pure a : Walk α) :=
  ⟨a, comes_always fun _ => rfl⟩

theorem terminates_leave (notes : List Note) : Terminates fun _ _ => Walk.leave notes :=
  ⟨(), comes_always fun _ => rfl⟩

theorem terminates_report (origin : Origin) (problem : Problem) :
    Terminates fun _ _ => Walk.report origin problem :=
  terminates_leave _

theorem terminates_remarkAt (level : Level) (location : Location) (text : String) :
    Terminates fun _ _ => Walk.remarkAt level location text :=
  terminates_leave _

theorem Comes.bind {a : α} {b : β} (hm : Comes m a) (hf : Comes (fun k l => f k l a) b) :
    Comes (fun k l => m k l >>= f k l) b := by
  obtain ⟨n, hm⟩ := hm
  obtain ⟨n', hf⟩ := hf
  refine ⟨max n n', fun k l hk hl s => ?_⟩
  have hfirst := hm k l (by omega) (by omega) s
  show ((m k l >>= f k l) s).answer = .ok b
  rw [bind_ok hfirst]
  exact hf k l (by omega) (by omega) _

/-- **Walks one after the other terminate** if the first ones do, and those that go on from what
these come to. -/
theorem Terminates.bind (hm : Terminates m) (hf : ∀ a, Comes m a → Terminates fun k l => f k l a) :
    Terminates fun k l => m k l >>= f k l := by
  obtain ⟨a, ha⟩ := hm
  obtain ⟨b, hb⟩ := hf a ha
  exact ⟨b, ha.bind hb⟩

/-- What is put after walks that terminate. -/
theorem Terminates.map (hm : Terminates m) (g : α → β) :
    Terminates fun k l => m k l >>= fun a => Pure.pure (g a) :=
  hm.bind fun a _ => terminates_pure (g a)

theorem terminates_ite {c : Prop} [Decidable c] {m' : Nat → Nat → Walk α} (hm : c → Terminates m)
    (hm' : ¬ c → Terminates m') : Terminates fun k l => if c then m k l else m' k l := by
  by_cases hc : c
  · simp only [if_pos hc]
    exact hm hc
  · simp only [if_neg hc]
    exact hm' hc

/-- Walks that are nested one deeper. -/
theorem Terminates.nested (h : Terminates fun k l => m (k + 1) l) : Terminates m := by
  obtain ⟨a, n, hn⟩ := h
  refine ⟨a, n + 1, fun k l hk hl s => ?_⟩
  obtain ⟨k, rfl⟩ : ∃ k', k = k' + 1 := ⟨k - 1, by omega⟩
  exact hn k l (by omega) (by omega) s

/-- What walks come to is as each of them has to be, if nothing else is relied on. -/
theorem Comes.meets {a : α} {P : α → Prop} {T : Nat → Nat → Terms} (hm : Comes m a)
    (h : ∀ k l, Meets (T k l) False P (m k l)) (htrusts : ∀ k l note, (T k l).trusts note) :
    P a := by
  obtain ⟨n, hn⟩ := hm
  let s : WalkState := ⟨⟨fun _ => 0, 0⟩, []⟩
  exact (h n n s fun note _ => htrusts n n note).answer a (hn n n (Nat.le_refl n) (Nat.le_refl n) s)

/-- Walks come to one answer only. -/
theorem Comes.unique {a b : α} (ha : Comes m a) (hb : Comes m b) : a = b := by
  obtain ⟨n, hn⟩ := ha
  obtain ⟨n', hn'⟩ := hb
  let s : WalkState := ⟨⟨fun _ => 0, 0⟩, []⟩
  have hsame := hn (max n n') (max n n') (by omega) (by omega) s
  rw [hn' (max n n') (max n n') (by omega) (by omega) s] at hsame
  exact (Except.ok.inj hsame).symm

/-- **What one run comes to is what the walks come to**, if higher limits make no difference but
to a run that is too deep, and the state makes none. -/
theorem comes_of_run {R : α → α → Prop} (hR : ∀ a b, R a b → a = b)
    (hsooner : ∀ k k' l l', k ≤ k' → l ≤ l' →
      Matches Halt.IsExhausted Halt.never R (m k l) (m k' l'))
    (hblind : ∀ k l s s', (m k l s).answer = (m k l s').answer) {n n' : Nat} {s : WalkState} {a : α}
    (ha : (m n n' s).answer = .ok a) : Comes m a := by
  refine ⟨max n n', fun k l hk hl s' => ?_⟩
  rcases hsooner n k n' l (by omega) (by omega) s with ⟨halt, -, hhalt⟩ | hsame
  · exact absurd (ha.symm.trans hhalt) (by simp)
  · rw [hblind k l s' s, ← hsame.eq hR, ha]

/-! ### Walks from a state

What is drawn makes a difference when content is consumed. So it is said from which state walks come
to an answer, and which state they leave. -/

/-- **What walks reach from a state**, and the state that they leave, once the limits are high
enough. No walk is nested deeper than something may be repeated. -/
def Reaches (m : Nat → Nat → Walk α) (s : WalkState) (a : α) (s' : WalkState) : Prop :=
  ∃ n, ∀ k l, n ≤ k → k ≤ l → (m k l s).answer = .ok a ∧ (m k l s).state = s'

theorem reaches_pure (a : α) (s : WalkState) :
    Reaches (fun _ _ => (Pure.pure a : Walk α)) s a s :=
  ⟨0, fun _ _ _ _ => ⟨rfl, rfl⟩⟩

/-- Walks that do not change anything and have one answer from some depth on. -/
theorem reaches_of_still {a : α} {n : Nat}
    (h : ∀ k l, n ≤ k → k ≤ l → Still True (· = a) (m k l)) (s : WalkState) :
    Reaches m s a s := by
  refine ⟨n, fun k l hk hl => ?_⟩
  have hrun := h k l hk hl s fun _ _ => trivial
  obtain ⟨b, hb⟩ := hrun.ends trivial
  obtain rfl : b = a := hrun.answer b hb
  exact ⟨hb, hrun.state trivial⟩

/-- Walks one after the other, the later ones from the state that the first ones leave. -/
theorem Reaches.bind {s s' s'' : WalkState} {a : α} {b : β} (hm : Reaches m s a s')
    (hf : Reaches (fun k l => f k l a) s' b s'') :
    Reaches (fun k l => m k l >>= f k l) s b s'' := by
  obtain ⟨n, hm⟩ := hm
  obtain ⟨n', hf⟩ := hf
  refine ⟨max n n', fun k l hk hl => ?_⟩
  obtain ⟨hfirst, hstate⟩ := hm k l (by omega) hl
  show ((m k l >>= f k l) s).answer = .ok b ∧ ((m k l >>= f k l) s).state = s''
  rw [bind_ok hfirst, hstate]
  exact hf k l (by omega) hl

/-- What is put after walks. -/
theorem Reaches.map {s s' : WalkState} {a : α} (hm : Reaches m s a s') (g : α → β) :
    Reaches (fun k l => m k l >>= fun a => Pure.pure (g a)) s (g a) s' :=
  hm.bind (reaches_pure (g a) s')

/-- Walks that are nested one deeper. -/
theorem Reaches.nested {s s' : WalkState} {a : α}
    (h : Reaches (fun k l => m (k + 1) l) s a s') : Reaches m s a s' := by
  obtain ⟨n, hn⟩ := h
  refine ⟨n + 1, fun k l hk hl => ?_⟩
  obtain ⟨k, rfl⟩ : ∃ k', k = k' + 1 := ⟨k - 1, by omega⟩
  exact hn k l (by omega) (by omega)

end Walk

end ContentLang
