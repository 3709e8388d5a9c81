import ContentLang.Proofs.Settled.Settled
import ContentLang.Proofs.Walk.Tracked
import ContentLang.Proofs.Walk.Parts

/-!
# Parts in turn

The elements of a sequence and the entries of a block are reduced **in turn**
(`ContentLang.Walk.inTurn`): each gives some things or is pending, and what they give is put one
after the other. In consumption this is all that happens to settled nodes
(`ContentLang.Reduce.elements_eq_inTurn`, `ContentLang.Reduce.entries_eq_inTurn`), since nothing is
bound among them. Walks in turn are tracked part by part.
-/

namespace ContentLang

open Walk

namespace Walk

variable {α β γ δ : Type}

/-- What one walk gives and then another one, unless one of them is pending. -/
def thenAlso (m m' : Walk (Option (List β))) : Walk (Option (List β)) := m >>= fun r =>
  match r with
  | none => pure none
  | some l => m' >>= fun more => pure (more.map (l ++ ·))

/-- What the members of a list give one after the other, unless one is pending. -/
def inTurn (f : α → Walk (Option (List β))) : List α → Walk (Option (List β))
  | [] => pure (some [])
  | a :: as => thenAlso (f a) (inTurn f as)

variable {f : α → Walk (Option (List β))} {g : γ → Walk (Option (List δ))}

theorem inTurn_cons (a : α) (as : List α) :
    inTurn f (a :: as) = thenAlso (f a) (inTurn f as) := rfl

theorem thenAlso_assoc (m m' m'' : Walk (Option (List β))) :
    thenAlso (thenAlso m m') m'' = thenAlso m (thenAlso m' m'') := by
  rw [thenAlso, thenAlso, thenAlso, bind_assoc]
  congr 1
  funext r
  cases r with
  | none => rfl
  | some l =>
    simp only [thenAlso, bind_assoc, pure_bind]
    congr 1
    funext r
    cases r with
    | none => rfl
    | some l' =>
      simp only [Option.map_some, bind_assoc, pure_bind]
      congr 1
      funext r
      cases r with
      | none => rfl
      | some l'' => simp

theorem thenAlso_nil (m : Walk (Option (List β))) : thenAlso (pure (some [])) m = m := by
  have hsame : ∀ r : Option (List β), r.map ([] ++ ·) = r := fun r => by cases r <;> rfl
  simp only [thenAlso, pure_bind, hsame]
  exact bind_pure m

theorem inTurn_append (as bs : List α) :
    inTurn f (as ++ bs) = thenAlso (inTurn f as) (inTurn f bs) := by
  induction as with
  | nil => exact (thenAlso_nil _).symm
  | cons a as ih => rw [List.cons_append, inTurn_cons, ih, inTurn_cons, thenAlso_assoc]

/-- What two walks give if neither is pending. -/
theorem answer_thenAlso {m m' : Walk (Option (List β))} {s : WalkState} {l : List β} :
    ((thenAlso m m') s).answer = .ok (some l) ↔ ∃ l₁ l₂, (m s).answer = .ok (some l₁) ∧
      (m' (m s).state).answer = .ok (some l₂) ∧ l₁ ++ l₂ = l := by
  constructor
  · intro h
    obtain ⟨r, hr, hrest, -⟩ := answer_of_bind h
    cases r with
    | none => exact nomatch hrest
    | some l₁ =>
      obtain ⟨r', hr', hmap, -⟩ := answer_of_bind hrest
      cases r' with
      | none => exact nomatch hmap
      | some l₂ => exact ⟨l₁, l₂, hr, hr', Option.some.inj (Except.ok.inj hmap)⟩
  · rintro ⟨l₁, l₂, h₁, h₂, rfl⟩
    rw [thenAlso, bind_ok h₁]
    show ((m' >>= fun more => pure (more.map (l₁ ++ ·))) (m s).state).answer = _
    rw [bind_ok h₂]
    rfl

/-- What is left of members in turn, if what each gives is the same from every state, and is left
exactly if the member is. -/
theorem inTurn_filter {p : α → Bool} {q : β → Bool} {as : List α}
    (hfixed : ∀ a ∈ as, Fixed (f a))
    (hpq : ∀ a ∈ as, ∀ s l, (f a s).answer = .ok (some l) → ∀ b ∈ l, q b = p a) {s : WalkState}
    {bs : List β} (h : (inTurn f as s).answer = .ok (some bs)) (s' : WalkState) :
    (inTurn f (as.filter p) s').answer = .ok (some (bs.filter q)) := by
  induction as generalizing s s' bs with
  | nil =>
    obtain rfl : [] = bs := Option.some.inj (Except.ok.inj h)
    rfl
  | cons a as ih =>
    obtain ⟨ha, has⟩ := List.forall_mem_cons.mp hfixed
    obtain ⟨hqa, hqas⟩ := List.forall_mem_cons.mp hpq
    obtain ⟨l, l', hl, hl', rfl⟩ := answer_thenAlso.mp h
    rw [List.filter_append]
    cases hp : p a with
    | false =>
      have hnone : l.filter q = [] :=
        List.filter_eq_nil_iff.mpr fun b hb => by rw [hqa s l hl b hb, hp]; decide
      rw [hnone, List.nil_append, List.filter_cons_of_neg (by simp [hp])]
      exact ih has hqas hl' s'
    | true =>
      have hall : l.filter q = l := List.filter_eq_self.mpr fun b hb => by rw [hqa s l hl b hb, hp]
      rw [hall, List.filter_cons_of_pos hp]
      exact answer_thenAlso.mpr ⟨l, _, (ha s' s).trans hl, ih has hqas hl' _, rfl⟩

/-! ### Parts that are tracked -/

section

variable {R : List β → List δ → Prop}

/-- Whether lists that are related stay so one after the other. -/
def Appends (R : List β → List δ → Prop) : Prop :=
  ∀ {l m l' m'}, R l m → R l' m' → R (l ++ l') (m ++ m')

variable (hR : Appends R) {m m' : Walk (Option (List β))} {w w' : Walk (Option (List δ))}
include hR

theorem tracked_thenAlso (h : Tracked (Option.Rel R) m w) (h' : Tracked (Option.Rel R) m' w') :
    Tracked (Option.Rel R) (thenAlso m m') (thenAlso w w') := by
  refine tracked_bind h fun a b hab => ?_
  cases hab with
  | none => exact tracked_pure .none
  | some hab =>
    refine tracked_map h' fun a' b' hab' => ?_
    cases hab' with
    | none => exact .none
    | some hab' => exact .some (hR hab hab')

/-- What is also done after runs that end alike, and ends alike regardless. -/
theorem ends_thenAlso {s₁ s₂ : WalkState}
    (h : (m s₁).answer = .error .exhausted ∨
      SameEnd (Option.Rel R) (m s₁).answer (w s₂).answer)
    (h' : Regardless (Option.Rel R) m' w') :
    ((thenAlso m m') s₁).answer = .error .exhausted ∨
      SameEnd (Option.Rel R) ((thenAlso m m') s₁).answer ((thenAlso w w') s₂).answer := by
  refine ends_bind h fun a b hab => ?_
  cases hab with
  | none => exact regardless_pure .none
  | some hab =>
    refine regardless_map h' fun a' b' hab' => ?_
    cases hab' with
    | none => exact .none
    | some hab' => exact .some (hR hab hab')

theorem regardless_thenAlso (h : Regardless (Option.Rel R) m w)
    (h' : Regardless (Option.Rel R) m' w') :
    Regardless (Option.Rel R) (thenAlso m m') (thenAlso w w') :=
  fun s₁ s₂ => ends_thenAlso hR (h s₁ s₂) h'

theorem tracked_inTurn (hnil : R [] []) {as : List α} {cs : List γ}
    (h : List.Forall₂ (fun a c => Tracked (Option.Rel R) (f a) (g c)) as cs) :
    Tracked (Option.Rel R) (inTurn f as) (inTurn g cs) := by
  induction h with
  | nil => exact tracked_pure (.some hnil)
  | cons hac _ ih => exact tracked_thenAlso hR hac ih

theorem regardless_inTurn (hnil : R [] []) {as : List α} {cs : List γ}
    (h : List.Forall₂ (fun a c => Regardless (Option.Rel R) (f a) (g c)) as cs) :
    Regardless (Option.Rel R) (inTurn f as) (inTurn g cs) := by
  induction h with
  | nil => exact regardless_pure (.some hnil)
  | cons hac _ ih => exact regardless_thenAlso hR hac ih

end

end Walk

namespace Walk

theorem alike_option_refl {α : Type} [Bare α] (r : Option α) : Option.Rel Alike r r := by
  cases r with
  | none => exact .none
  | some a => exact .some (.refl a)

/-- Members around one in whose place another one stands that gives the same regardless. -/
theorem ends_inTurn {α β : Type} [Bare β] {f : α → Walk (Option (List β))} {x y : α}
    {before after : List α}
    (hxy : Regardless (Option.Rel Alike) (f x) (f y)) (hafter : ∀ a ∈ after, Fixed (f a))
    (s : WalkState) : (inTurn f (before ++ x :: after) s).answer = .error .exhausted ∨
      SameEnd (Option.Rel Alike) (inTurn f (before ++ x :: after) s).answer
        (inTurn f (before ++ y :: after) s).answer := by
  have hrest : Regardless (Option.Rel Alike) (inTurn f after) (inTurn f after) :=
    regardless_inTurn Alike.append (.refl []) (List.forall₂_same.mpr fun a ha =>
      (hafter a ha).regardless alike_option_refl)
  rw [inTurn_append, inTurn_append, inTurn_cons, inTurn_cons]
  have hbefore := (tracked_refl alike_option_refl (inTurn f before) s).imp_right And.left
  exact ends_thenAlso Alike.append hbefore (regardless_thenAlso Alike.append hxy hrest)

end Walk

/-! ### Outcomes that are alike -/

section

variable {out out' : Outcome} (h : Alike out out')
include h

/-- What outcomes that are alike put into a sequence. -/
theorem Alike.toItems? : Option.Rel Alike out.toItems? out'.toItems? := by
  cases out with
  | value n =>
    obtain ⟨m, rfl, hm⟩ := Outcome.alike_value_iff.mp h
    exact .some (by simpa [Alike] using hm)
  | empty =>
    rw [Outcome.alike_empty_iff.mp h]
    exact .some (.refl [])
  | splice items =>
    obtain ⟨items', rfl, hitems⟩ := Outcome.alike_splice_iff.mp h
    exact .some hitems
  | pending =>
    rw [Outcome.alike_pending_iff.mp h]
    exact .none

/-- What they put into a block. -/
theorem Alike.toEntries? {k l : Token} (hkl : Alike k l) (o o' : Origin) :
    Option.Rel Alike (out.toEntries? k o) (out'.toEntries? l o') := by
  cases out with
  | value n =>
    obtain ⟨m, rfl, hm⟩ := Outcome.alike_value_iff.mp h
    exact .some (by simpa [Alike] using ⟨hkl, hm⟩)
  | empty =>
    rw [Outcome.alike_empty_iff.mp h]
    exact .some (.refl [])
  | splice items =>
    obtain ⟨items', rfl, hitems⟩ := Outcome.alike_splice_iff.mp h
    exact .some (by simpa [Alike] using ⟨hkl, hitems⟩)
  | pending =>
    rw [Outcome.alike_pending_iff.mp h]
    exact .none

/-- What they are as single nodes. -/
theorem Alike.toNode? (o o' : Origin) : Option.Rel Alike (out.toNode? o) (out'.toNode? o') := by
  cases out with
  | value n =>
    obtain ⟨m, rfl, hm⟩ := Outcome.alike_value_iff.mp h
    exact .some hm
  | empty =>
    rw [Outcome.alike_empty_iff.mp h]
    exact .some rfl
  | splice items =>
    obtain ⟨items', rfl, hitems⟩ := Outcome.alike_splice_iff.mp h
    exact .some (by simpa [Alike] using hitems)
  | pending =>
    rw [Outcome.alike_pending_iff.mp h]
    exact .none

end

namespace Reduce

/-! ### Elements and entries -/

/-- The nodes that an element gives which binds nothing. -/
def itemsOf (env : Surroundings) (rec : Reducer) (ctx : Context) (n : Node) :
    Walk (Option (List Node)) :=
  visit env rec n ctx >>= fun out => pure out.toItems?

/-- The entries that an entry of a block gives. -/
def entriesOf (env : Surroundings) (rec : Reducer) (ctx : Context) (e : Token × Node) :
    Walk (Option (List (Token × Node))) :=
  visit env rec e.2 ctx >>= fun out => pure (out.toEntries? e.1 e.2.origin)

/-- **Whether what is drawn before makes no difference to a node**: it comes to the same from every
state, nested as deep as may be. -/
def Forced (env : Surroundings) (ctx : Context) (n : Node) : Prop :=
  ∀ limit, Fixed (visit env (inContext limit) n ctx)

theorem Forced.itemsOf {env : Surroundings} {ctx : Context} {n : Node} (h : Forced env ctx n)
    (limit : Nat) : Fixed (itemsOf env (inContext limit) ctx n) :=
  (h limit).map _

theorem Forced.entriesOf {env : Surroundings} {ctx : Context} {e : Token × Node}
    (h : Forced env ctx e.2) (limit : Nat) : Fixed (entriesOf env (inContext limit) ctx e) :=
  (h limit).map _

section

variable {env : Surroundings} (hlate : env.late = true) (rec : Reducer) (ctx : Context)
include hlate

/-- In consumption nothing is kept. -/
theorem orKept_late (out : Outcome) (n : Node) : orKept env out n ctx = pure out := by
  simp [orKept, hlate]

theorem plainElement_late (n : Node) :
    plainElement env rec ctx n = visit env rec n ctx >>= fun out => pure (out.toItems?, ctx) := by
  simp only [plainElement, orKept_late hlate, pure_bind]

omit hlate in
/-- A settled element binds nothing, and its data stays with it. -/
theorem element_settled {n : Node} (hn : n.Settled env.registry false) :
    element env rec ctx n = plainElement env rec ctx n := by
  cases n with
  | call f ps o =>
    obtain ⟨hrests, -⟩ := Node.settled_call.mp hn
    rw [element, if_neg hrests.ne_setName]
  | statement f ps o data =>
    obtain ⟨hrests, ⟨hinclude, hcontains⟩, -⟩ := Node.settled_statement.mp hn
    have hdata : takesNoData env f = false := by simp [takesNoData, hinclude, hcontains]
    rw [element, if_neg hrests.ne_setName, hdata]
    rfl
  | token t => rfl
  | block es o => rfl
  | array is o => rfl

/-- **Settled elements are consumed in turn.** -/
theorem elements_eq_inTurn {ns : List Node} (hns : ∀ n ∈ ns, n.Settled env.registry false) :
    elements env rec ctx ns = inTurn (itemsOf env rec ctx) ns := by
  induction ns with
  | nil => rfl
  | cons n ns ih =>
    obtain ⟨hn, hns⟩ := List.forall_mem_cons.mp hns
    have hlater := ih hns
    rw [elements, element_settled rec ctx hn, plainElement_late hlate, inTurn, thenAlso,
      itemsOf, bind_assoc, bind_assoc]
    congr 1
    funext out
    cases out.toItems? <;> simp only [pure_bind, hlater]

omit hlate in
/-- The entries of a block are reduced in turn, if none of them is kept as it stands. -/
theorem entries_inTurn (hkept : ∀ n s out, (visit env rec n ctx s).answer = .ok out →
      orKept env out n ctx = pure out) (es : List (Token × Node)) :
    entries env rec ctx es = inTurn (entriesOf env rec ctx) es := by
  induction es with
  | nil => rfl
  | cons e es ih =>
    obtain ⟨k, n⟩ := e
    have hskip : ∀ r : Option (List (Token × Node)), r.map ([] ++ ·) = r := fun r => by
      cases r <;> rfl
    rw [entries, inTurn, thenAlso, entriesOf, bind_assoc]
    refine bind_congr fun s out hout => ?_
    simp only [hkept n s out hout, pure_bind, ih]
    cases out with
    | value m => rfl
    | empty =>
      simp only [Outcome.toEntries?, hskip]
      exact (bind_pure _).symm
    | splice items => rfl
    | pending => rfl

/-- **The entries of a block are consumed in turn.** -/
theorem entries_eq_inTurn (es : List (Token × Node)) :
    entries env rec ctx es = inTurn (entriesOf env rec ctx) es :=
  entries_inTurn rec ctx (fun _ _ _ _ => orKept_late hlate ctx _ _) es

end

end Reduce

end ContentLang
