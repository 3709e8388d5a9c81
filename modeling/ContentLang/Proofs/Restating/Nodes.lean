import ContentLang.Proofs.Loading.LaterBinding
import ContentLang.Proofs.Meaning.Walks
import ContentLang.Proofs.Readiness.Propagation
import ContentLang.Proofs.Walk.InTurn

/-!
# Nodes that are restated

A block can be written, or come upon in consumption. The two say the same, but they stand at other
places and have other identities, and what is written is still to be reduced.

A node **restates** another one (`ContentLang.Node.Restates`) if it is the same, or if nothing in it
is left to reduce and it says the same. The two may then take each other's place: places make a
difference to what is reported, but not to what anything comes to. Identities do make one to what
functions remember; they are those of calls, and there are none left.

| relation | between |
|---|---|
| `ContentLang.Node.Restates` | nodes |
| `ContentLang.Outcome.Restates` | outcomes, which have nothing left to reduce in them |
| `ContentLang.Call.Restates` | calls of one function with one identity, of nodes that are restated |
| `ContentLang.Context.Restates` | contexts that bind the same names, to nodes that are restated |

A context is restated if one more name is bound in it (`ContentLang.Context.Restates.bind`), or
several (`ContentLang.Context.Restates.overlay`); and a node if it is marked, or taken out of a
member of a list (`ContentLang.Library.restates_memberEntry`).
-/

namespace ContentLang

open Walk

/-! ### What is restated -/

/-- **Whether a node restates another one**: it is the same, or it holds no call of anything known
and says the same. -/
def Node.Restates (known : String → Bool) (m n : Node) : Prop :=
  m = n ∨ m.Inert known ∧ Alike m n

/-- Whether an outcome, without calls of anything known, says the same as another one. -/
def Outcome.Restates (known : String → Bool) (o o' : Outcome) : Prop :=
  Alike o o' ∧ o.Inert known

/-- **Whether a context restates another one**: the same names are bound, and their values are
restated. -/
def Context.Restates (known : String → Bool) (c d : Context) : Prop :=
  ∀ t : Token, Option.Rel (Node.Restates known) (c.get? t) (d.get? t)

/-- Whether a call restates another one; what is remembered of the two is the same. -/
structure Call.Restates (known : String → Bool) (c d : Call) : Prop where
  function : c.function = d.function
  params : List.Forall₂ (Node.Restates known) c.params d.params
  uid : c.origin.uid = d.origin.uid
  file : c.origin.location.file = d.origin.location.file

variable {known : String → Bool}

namespace Node

variable {m n : Node}

theorem Restates.alike (h : m.Restates known n) : Alike m n := by
  rcases h with rfl | ⟨-, h⟩
  · exact .refl _
  · exact h

theorem Restates.markUid (h : m.Restates known n) (mark : String) :
    (m.markUid mark).Restates known (n.markUid mark) := by
  rcases h with rfl | ⟨hm, h⟩
  · exact .inl rfl
  · exact .inr ⟨(alike_markUid mark m).inert hm,
      ((alike_markUid mark m).symm.trans h).trans (alike_markUid mark n)⟩

theorem restates_all (ns : List Node) : List.Forall₂ (Restates known) ns ns :=
  List.forall₂_same.mpr fun _ _ => .inl rfl

/-- Nodes that say the same one by one, with nothing left to reduce. -/
theorem restates_of_alike {ms ns : List Node} (hms : ∀ m ∈ ms, m.Inert known) (h : Alike ms ns) :
    List.Forall₂ (Restates known) ms ns := by
  induction ms generalizing ns with
  | nil =>
    obtain rfl := alike_nil_iff.mp h
    exact .nil
  | cons m ms ih =>
    obtain ⟨n, ns, rfl, hmn, hms'⟩ := alike_cons_iff.mp h
    obtain ⟨hm, hms⟩ := List.forall_mem_cons.mp hms
    exact .cons (.inr ⟨hm, hmn⟩) (ih hms hms')

theorem alike_of_restates {ms ns : List Node} (h : List.Forall₂ (Restates known) ms ns) :
    Alike ms ns := by
  induction h with
  | nil => exact .refl []
  | cons hm _ ih => exact alike_cons_iff.mpr ⟨_, _, rfl, hm.alike, ih⟩

/-- Of an array the members are restated. -/
theorem Restates.array {is : List Node} {o : Origin} (h : (Node.array is o).Restates known n) :
    ∃ js o', n = .array js o' ∧ List.Forall₂ (Restates known) is js := by
  rcases h with rfl | ⟨his, h⟩
  · exact ⟨is, o, rfl, restates_all is⟩
  · obtain ⟨js, o', rfl, hjs⟩ := h.array
    exact ⟨js, o', rfl, restates_of_alike (inert_array.mp his) hjs⟩

end Node

namespace Outcome

variable {o o' : Outcome}

/-- Of restated outcomes the nodes that stand for them are restated. -/
theorem Restates.toNode? (h : o.Restates known o') (origin origin' : Origin) :
    Option.Rel (Node.Restates known) (o.toNode? origin) (o'.toNode? origin') := by
  have hnode := h.1.toNode? origin origin'
  cases ho : o.toNode? origin with
  | none =>
    rw [ho] at hnode
    generalize o'.toNode? origin' = y at hnode ⊢
    cases hnode
    exact .none
  | some m =>
    rw [ho] at hnode
    generalize o'.toNode? origin' = y at hnode ⊢
    cases hnode with
    | some hmn => exact .some (.inr ⟨h.2.toNode ho, hmn⟩)

/-- Of a restated value the nodes are. -/
theorem Restates.value {m : Node} (h : (value m).Restates known o') :
    ∃ n, o' = .value n ∧ m.Restates known n ∧ Alike m n := by
  obtain ⟨n, rfl, hmn⟩ := alike_value_iff.mp h.1
  exact ⟨n, rfl, .inr ⟨h.2, hmn⟩, hmn⟩

theorem Restates.splice {ms : List Node} (h : (splice ms).Restates known o') :
    ∃ ns, o' = .splice ns ∧ List.Forall₂ (Node.Restates known) ms ns ∧ Alike ms ns := by
  obtain ⟨ns, rfl, hmn⟩ := alike_splice_iff.mp h.1
  exact ⟨ns, rfl, Node.restates_of_alike h.2 hmn, hmn⟩

end Outcome

namespace Context

variable {c d : Context}

theorem restates_refl (c : Context) : c.Restates known c := by
  intro t
  cases c.get? t with
  | none => exact .none
  | some v => exact .some (.inl rfl)

/-- One more binding. -/
theorem Restates.bind (h : c.Restates known d) {t u : Token} (htu : Alike t u) {v w : Node}
    (hvw : v.Restates known w) : (c.bind t v).Restates known (d.bind u w) := by
  have hreading : t.label.reading = u.label.reading :=
    Prod.ext htu.value htu.isContent
  intro a
  by_cases ha : t.label.reading = a.label.reading
  · rw [get?_bind_self ha, get?_bind_self (hreading.symm.trans ha)]
    exact .some hvw
  · rw [get?_bind_of_ne ha, get?_bind_of_ne fun hu => ha (hreading.trans hu)]
    exact h a

/-- Several more bindings, of nodes with nothing left to reduce. -/
theorem Restates.overlay (h : c.Restates known d) {es fs : List (Token × Node)}
    (hinert : ∀ e ∈ es, e.2.Inert known) (hes : Alike es fs) :
    (c.overlay es).Restates known (d.overlay fs) := by
  induction es generalizing fs c d with
  | nil =>
    obtain rfl := alike_nil_iff.mp hes
    exact h
  | cons e es ih =>
    obtain ⟨f, fs, rfl, hef, hes⟩ := alike_cons_iff.mp hes
    obtain ⟨he, hinert⟩ := List.forall_mem_cons.mp hinert
    obtain ⟨hkey, hvalue⟩ := Prod.mk.inj hef
    exact ih (h.bind hkey (.inr ⟨he, hvalue⟩)) hinert hes

end Context

/-! ### Entries of members -/

/-- What two lists of entries that say the same have under a key. -/
theorem Alike.find? {es fs : Entries Token Node} (h : Alike es fs) (k : Token) :
    Option.Rel Alike (Entries.find? es k) (Entries.find? fs k) := by
  have hfind : ∀ gs : Entries Token Node,
      (Entries.find? gs k).map bare = Entries.find? (bare gs) (bare k) := fun gs =>
    (Entries.find?_map beq_bare bare gs k).symm
  have hsame : (Entries.find? es k).map bare = (Entries.find? fs k).map bare := by
    rw [hfind, hfind, h]
  generalize Entries.find? es k = x, Entries.find? fs k = y at hsame
  cases x with
  | none =>
    cases y with
    | none => exact .none
    | some f => exact absurd hsame (by simp)
  | some e =>
    cases y with
    | none => exact absurd hsame (by simp)
    | some f => exact .some (Option.some.inj hsame)

namespace Library

open Node

variable {m n : Node}

/-- What is under a key of a member is restated with it. -/
theorem restates_memberEntry (key : String) (h : m.Restates known n) :
    Option.Rel (Restates known) (memberEntry key m) (memberEntry key n) := by
  rcases h with rfl | ⟨hm, h⟩
  · cases memberEntry key m with
    | none => exact .none
    | some v => exact .some (.inl rfl)
  cases m with
  | block es o =>
    obtain ⟨fs, o', rfl, hes⟩ := h.block
    have hfind := hes.find? (.key key)
    simp only [memberEntry, Node.entries?, Option.bind_some, Entries.get?]
    cases he : Entries.find? es (.key key) with
    | none =>
      rw [he] at hfind
      generalize Entries.find? fs (.key key) = y at hfind ⊢
      cases hfind
      exact .none
    | some e =>
      rw [he] at hfind
      generalize Entries.find? fs (.key key) = y at hfind ⊢
      cases hfind with
      | some hef =>
        exact .some (.inr ⟨inert_block.mp hm e (List.mem_of_find?_eq_some he),
          (Prod.mk.inj hef).2⟩)
  | token t =>
    obtain ⟨t', rfl, -⟩ := h.token
    exact .none
  | call f ps o =>
    obtain ⟨ps', o', rfl, -⟩ := h.call
    exact .none
  | statement f ps o data =>
    obtain ⟨ps', o', data', rfl, -⟩ := h.statement
    exact .none
  | array is o =>
    obtain ⟨is', o', rfl, -⟩ := h.array
    exact .none

/-- A block without one of its entries, or the value of the only one that is left. -/
theorem restates_strip (key : String) (flatten : Bool) (h : m.Restates known n) :
    (strip key flatten m).Restates known (strip key flatten n) := by
  rcases h with rfl | ⟨hm, h⟩
  · exact .inl rfl
  cases m with
  | block es o =>
    obtain ⟨fs, o', rfl, hes⟩ := h.block
    have hrest : Alike (Entries.erase es (.key key)) (Entries.erase fs (.key key)) := by
      rw [Alike, bare_erase, bare_erase, hes]
    have hinert : ∀ e ∈ Entries.erase es (.key key), e.2.Inert known := fun e he =>
      inert_block.mp hm e (List.mem_filter.mp he).1
    unfold strip
    dsimp only
    generalize Entries.erase es (.key key) = x, Entries.erase fs (.key key) = y at hrest hinert ⊢
    have hblock : (Node.block x o).Restates known (.block y o') :=
      .inr ⟨inert_block.mpr hinert, by simp [Alike, show bare x = bare y from hrest]⟩
    -- The block is unwrapped exactly if there is one entry left.
    cases x with
    | nil =>
      obtain rfl := alike_nil_iff.mp hrest
      cases flatten <;> exact hblock
    | cons e x =>
      obtain ⟨f, y, rfl, hef, hrest⟩ := alike_cons_iff.mp hrest
      cases x with
      | nil =>
        obtain rfl := alike_nil_iff.mp hrest
        cases flatten with
        | true => exact .inr ⟨hinert e (by simp), (Prod.mk.inj hef).2⟩
        | false => exact hblock
      | cons e' x =>
        obtain ⟨f', y, rfl, -, -⟩ := alike_cons_iff.mp hrest
        cases flatten <;> exact hblock
  | token t =>
    obtain ⟨t', rfl, -⟩ := h.token
    exact .inr ⟨hm, h⟩
  | call f ps o =>
    obtain ⟨ps', o', rfl, -⟩ := h.call
    exact .inr ⟨hm, h⟩
  | statement f ps o data =>
    obtain ⟨ps', o', data', rfl, -⟩ := h.statement
    exact .inr ⟨hm, h⟩
  | array is o =>
    obtain ⟨is', o', rfl, -⟩ := h.array
    exact .inr ⟨hm, h⟩

end Library

/-! ### Proper answers -/

namespace Walk

variable {α β γ δ : Type} {R : α → β → Prop} {Q : γ → δ → Prop} {m₁ : Walk α} {m₂ : Walk β}

/-- Whether two proper answers are related, or the outcomes in their place are alike. -/
inductive Paired (R : α → β → Prop) : Except Outcome α → Except Outcome β → Prop
  | ok {a : α} {b : β} (h : R a b) : Paired R (.ok a) (.ok b)
  | error {o o' : Outcome} (h : Alike o o') : Paired R (.error o) (.error o')

theorem tracked_given {m₁ : Walk (Except Outcome α)} {m₂ : Walk (Except Outcome β)}
    {f₁ : α → Walk Outcome} {f₂ : β → Walk Outcome} (h : Tracked (Paired R) m₁ m₂)
    (hf : ∀ a b, R a b → Tracked Alike (f₁ a) (f₂ b)) :
    Tracked Alike (m₁.given f₁) (m₂.given f₂) := by
  refine tracked_bind h fun r r' hr => ?_
  cases hr with
  | ok hab => exact hf _ _ hab
  | error ho => exact tracked_pure ho

theorem tracked_also {m₁ : Walk (Except Outcome α)} {m₂ : Walk (Except Outcome β)}
    {f₁ : α → Walk (Except Outcome γ)} {f₂ : β → Walk (Except Outcome δ)}
    (h : Tracked (Paired R) m₁ m₂)
    (hf : ∀ a b, R a b → Tracked (Paired Q) (f₁ a) (f₂ b)) :
    Tracked (Paired Q) (m₁.also f₁) (m₂.also f₂) := by
  refine tracked_bind h fun r r' hr => ?_
  cases hr with
  | ok hab => exact hf _ _ hab
  | error ho => exact tracked_pure (.error ho)

/-- Notes make no difference. -/
theorem tracked_noted (notes notes' : List Note) (h : Tracked R m₁ m₂) :
    Tracked R (Walk.leave notes >>= fun _ => m₁) (Walk.leave notes' >>= fun _ => m₂) :=
  tracked_bind (R := fun _ _ => True) (fun _ => .inr ⟨.ok trivial, rfl⟩) fun _ _ _ => h

theorem tracked_ite {c : Prop} [Decidable c] {n₁ : Walk α} {n₂ : Walk β} (hm : Tracked R m₁ m₂)
    (hn : Tracked R n₁ n₂) : Tracked R (if c then m₁ else n₁) (if c then m₂ else n₂) := by
  split
  · exact hm
  · exact hn

/-- Two walks that come to one reading track each other. -/
theorem tracked_of_reads [Bare α] {r : Reading α} {m₁ m₂ : Walk (Except Outcome α)}
    (h₁ : Reads True r m₁) (h₂ : Reads True r m₂) : Tracked (Paired Alike) m₁ m₂ := by
  intro s
  obtain ⟨hstate₁, -, hends₁, hanswer₁⟩ := h₁ s fun _ _ => trivial
  obtain ⟨hstate₂, -, hends₂, hanswer₂⟩ := h₂ s fun _ _ => trivial
  obtain ⟨x, hx⟩ := hends₁ trivial
  obtain ⟨y, hy⟩ := hends₂ trivial
  have hxr := hanswer₁ x hx
  have hyr := hanswer₂ y hy
  rw [hx, hy]
  refine .inr ⟨.ok ?_, (hstate₁ trivial).trans (hstate₂ trivial).symm⟩
  cases r with
  | ok a =>
    cases x with
    | error o => exact hxr.elim
    | ok b =>
      cases y with
      | error o => exact hyr.elim
      | ok b' => exact .ok ((Alike.symm hxr).trans hyr)
  | error e =>
    cases x with
    | ok b => cases e <;> exact hxr.elim
    | error o =>
      cases y with
      | ok b => cases e <;> exact hyr.elim
      | error o' =>
        refine .error ?_
        cases e with
        | waits =>
          cases o with
          | pending =>
            cases o' with
            | pending => rfl
            | _ => exact hyr.elim
          | _ => exact hxr.elim
        | wrong =>
          obtain ⟨origin, rfl⟩ := hxr
          obtain ⟨origin', rfl⟩ := hyr
          rfl

end Walk

end ContentLang
