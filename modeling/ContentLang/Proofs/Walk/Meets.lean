import ContentLang.Proofs.Walk.Runs

/-!
# What holds of a walk from every state

`ContentLang.Walk.Meets` is the judgment that most of what is said of single walks is an
instance of: from every state, the answer satisfies a condition. It is made on **terms**
(`ContentLang.Walk.Terms`):

| | |
|---|---|
| `steady` | whether the walk has to leave the generator and the memory as they are |
| `leaves` | the notes it may leave |
| `trusts` | the notes that are relied on: nothing is said of a run that left others |

and under a condition `ends` on which the walk has to come to an answer. With a false one
nothing is said of whether the walk ends; with a true one the judgment is total correctness.
Walks are put together by `ContentLang.Walk.meets_bind`.
-/

namespace ContentLang

/-- Whether this is a remark for the log. -/
def Note.IsRemark (note : Note) : Prop := ∃ r, note = .remark r

namespace Walk

/-- The terms on which walks are looked at. -/
structure Terms where
  /-- Whether the state has to stay as it is. -/
  steady : Prop
  /-- The notes that may be left. -/
  leaves : Note → Prop
  /-- The notes that are relied on. -/
  trusts : Note → Prop

namespace Terms

/-- The state stays as it is, and if `q` holds nothing but remarks is left. -/
def quietIf (q : Prop) : Terms := ⟨True, fun note => q → note.IsRemark, fun _ => True⟩

/-- The state stays as it is, and nothing but remarks is left. -/
def still : Terms := quietIf True

/-- The state stays as it is, and the given notes are relied on. -/
def steadily (trusts : Note → Prop) : Terms := ⟨True, fun _ => True, trusts⟩

/-- Anything may happen. -/
def any : Terms := ⟨False, fun _ => True, fun _ => True⟩

/-- Whether what holds on some terms holds on others. -/
structure Covers (T T' : Terms) : Prop where
  steady : T'.steady → T.steady
  leaves : ∀ note, T.leaves note → T'.leaves note
  trusts : ∀ note, T'.trusts note → T.trusts note

theorem Covers.refl (T : Terms) : T.Covers T := ⟨id, fun _ h => h, fun _ h => h⟩

theorem quietIf_covers_steadily (q : Prop) (trusts : Note → Prop) :
    (quietIf q).Covers (steadily trusts) := ⟨fun h => h, fun _ _ => trivial, fun _ _ => trivial⟩

theorem quietIf_covers_any (q : Prop) : (quietIf q).Covers any :=
  ⟨fun h => h.elim, fun _ _ => trivial, fun _ _ => trivial⟩

theorem quietIf_covers_quietIf {q q' : Prop} (h : q' → q) : (quietIf q).Covers (quietIf q') :=
  ⟨id, fun _ hnote hq => hnote (h hq), fun _ _ => trivial⟩

theorem still_covers_quietIf (q : Prop) : still.Covers (quietIf q) :=
  quietIf_covers_quietIf fun _ => trivial

end Terms

variable {α β : Type} {T T' : Terms} {ends ends' : Prop} {P P' : α → Prop} {Q : β → Prop}
  {m : Walk α} {f : α → Walk β}

/-- How a run has to end on the given terms. -/
structure Meets.Run (T : Terms) (ends : Prop) (P : α → Prop) (s : WalkState) (r : Walked α) :
    Prop where
  state : T.steady → r.state = s
  notes : ∀ note ∈ r.notes, T.leaves note
  ends : ends → ∃ a, r.answer = .ok a
  answer : ∀ a, r.answer = .ok a → P a

/-- **Whether a walk meets a condition**, from every state and on the given terms. -/
def Meets (T : Terms) (ends : Prop) (P : α → Prop) (m : Walk α) : Prop :=
  ∀ s, (∀ note ∈ (m s).notes, T.trusts note) → Meets.Run T ends P s (m s)

/-- A walk that changes nothing and leaves nothing but remarks. -/
abbrev Still (ends : Prop) (P : α → Prop) (m : Walk α) : Prop := Meets .still ends P m

/-! ### Rules -/

theorem meets_pure {a : α} (h : P a) : Meets T ends P (Pure.pure a : Walk α) := by
  refine fun s _ => ⟨fun _ => rfl, by simp [pure_apply], fun _ => ⟨a, rfl⟩, fun b hb => ?_⟩
  obtain rfl : a = b := Except.ok.inj hb
  exact h

/-- **A walk after another one**, which is given an answer that the first one may come to. -/
theorem meets_bind (hm : Meets T ends P m) (hf : ∀ a, P a → Meets T ends Q (f a)) :
    Meets T ends Q (m >>= f) := by
  intro s htrust
  cases ha : (m s).answer with
  | error e =>
    rw [bind_error ha] at htrust ⊢
    obtain ⟨hstate, hnotes, hends, -⟩ := hm s htrust
    refine ⟨hstate, hnotes, fun h => ?_, fun b hb => absurd hb (by simp)⟩
    obtain ⟨a, ha'⟩ := hends h
    exact absurd (ha.symm.trans ha') (by simp)
  | ok a =>
    rw [bind_ok ha] at htrust ⊢
    obtain ⟨htrust, htrust'⟩ := List.forall_mem_append.mp htrust
    obtain ⟨hstate, hnotes, -, hanswer⟩ := hm s htrust
    obtain ⟨hstate', hnotes', hends', hanswer'⟩ := hf a (hanswer a ha) (m s).state htrust'
    exact ⟨fun h => (hstate' h).trans (hstate h), List.forall_mem_append.mpr ⟨hnotes, hnotes'⟩,
      hends', hanswer'⟩

/-- The rule of consequence. -/
theorem Meets.mono (hm : Meets T ends P m) (hT : T.Covers T') (hends : ends' → ends)
    (hP : ∀ a, P a → P' a) : Meets T' ends' P' m := by
  intro s htrust
  obtain ⟨hstate, hnotes, hcomes, hanswer⟩ := hm s fun note h => hT.trusts note (htrust note h)
  exact ⟨fun h => hstate (hT.steady h), fun note h => hT.leaves note (hnotes note h),
    fun h => hcomes (hends h), fun a ha => hP a (hanswer a ha)⟩

/-- The rule of consequence for answers alone. -/
theorem Meets.imp (hm : Meets T ends P m) (hP : ∀ a, P a → P' a) : Meets T ends P' m :=
  hm.mono (.refl T) id hP

/-- Two things that hold of a walk. -/
theorem Meets.and (hm : Meets T ends P m) (hm' : Meets T' ends' P' m)
    (htrusts : ∀ note, T.trusts note → T'.trusts note) :
    Meets T ends (fun a => P a ∧ P' a) m := by
  intro s htrust
  obtain ⟨hstate, hnotes, hcomes, hanswer⟩ := hm s htrust
  have hanswer' := (hm' s fun note h => htrusts note (htrust note h)).answer
  exact ⟨hstate, hnotes, hcomes, fun a ha => ⟨hanswer a ha, hanswer' a ha⟩⟩

/-- An answer is one that the walk comes to. -/
theorem Meets.here (hm : Meets T ends P m) :
    Meets T ends (fun a => P a ∧ ∃ s, (m s).answer = .ok a) m := by
  intro s htrust
  obtain ⟨hstate, hnotes, hends, hanswer⟩ := hm s htrust
  exact ⟨hstate, hnotes, hends, fun a ha => ⟨hanswer a ha, s, ha⟩⟩

/-- A walk that comes to one answer from every state comes to no other. -/
theorem Meets.blind (hm : Meets T ends P m) (hblind : ∀ s s', (m s).answer = (m s').answer)
    {s : WalkState} {a : α} (ha : (m s).answer = .ok a) : Meets T ends (· = a) m := by
  intro s' htrust
  obtain ⟨hstate, hnotes, hends, -⟩ := hm s' htrust
  refine ⟨hstate, hnotes, hends, fun b hb => ?_⟩
  rw [← hblind s, ha] at hb
  exact (Except.ok.inj hb).symm

/-- What is put after a walk. -/
theorem meets_map {g : α → β} (hm : Meets T ends P m) (hg : ∀ a, P a → Q (g a)) :
    Meets T ends Q (m >>= fun a => Pure.pure (g a)) :=
  meets_bind hm fun a ha => meets_pure (hg a ha)

/-- Something is given up only if the walk need not end. -/
theorem meets_halt (h : Halt) (hends : ¬ ends) : Meets T ends P (Walk.halt h : Walk α) :=
  fun _ _ => ⟨fun _ => rfl, by simp [Walk.halt], fun h => absurd h hends,
    fun _ ha => absurd ha (by simp [Walk.halt])⟩

theorem meets_leave {notes : List Note} (h : ∀ note ∈ notes, T.leaves note) :
    Meets T ends (fun _ => True) (Walk.leave notes) :=
  fun _ _ => ⟨fun _ => rfl, h, fun _ => ⟨(), rfl⟩, fun _ _ => trivial⟩

/-- Remarks may always be left, on terms that are covered by stillness. -/
theorem meets_remarkAt (hT : Terms.still.Covers T) (level : Level) (location : Location)
    (text : String) : Meets T ends (fun _ => True) (Walk.remarkAt level location text) :=
  meets_leave fun note hnote => hT.leaves note fun _ => ⟨_, List.mem_singleton.mp hnote⟩

theorem meets_ite {c : Prop} [Decidable c] {m' : Walk α} (hm : c → Meets T ends P m)
    (hm' : ¬ c → Meets T ends P m') : Meets T ends P (if c then m else m') := by
  split
  next h => exact hm h
  next h => exact hm' h

end Walk

end ContentLang
