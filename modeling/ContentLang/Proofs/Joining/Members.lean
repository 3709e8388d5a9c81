import ContentLang.Proofs.Meaning.Reading
import ContentLang.Proofs.Walk.Inert

/-!
# Members of nested arrays

The members of a node are what is left when all arrays in it are taken apart
(`ContentLang.Reduce.membersOf`). A member is reduced within the bindings that the innermost array
around it is reduced in, so it is kept with them (`ContentLang.Member`). In the loading pass these
are the same for all.

Lists of nodes that are nested differently have the same members, nulls aside
(`ContentLang.Reduce.Renests.members`). The texts of a node are those of its members, one after the
other (`ContentLang.Reduce.textsOf_members`).
-/

namespace ContentLang

open Walk

/-- A node and the bindings that it is reduced in, unless it has captured others. -/
structure Member where
  context : Context
  node : Node

/-- The text of a token, unless it is null. -/
def TokenOf.text? (t : Token) : Option String := if t.isNull then none else some t.value

/-- The text of a member that is a token, unless it is null. -/
def Member.text? (m : Member) : Option String :=
  match m.node with
  | .token t => t.text?
  | _ => none

/-- Whether a node is a call of a late function. -/
def Node.IsLate (registry : Registry) (n : Node) : Prop :=
  ∃ f ps o function, n = .call f ps o ∧ Registry.get? registry f = some function ∧
    function.late = true

/-- Whether a member is a token or a call of a late function. -/
def Member.Simple (registry : Registry) (m : Member) : Prop :=
  (∃ t, m.node = .token t) ∨ m.node.IsLate registry

namespace Reduce

mutual

/-- **The members of a node**: those of its items, if it is an array, and otherwise itself. -/
def membersOf (env : Surroundings) : Context → Node → List Member
  | ctx, .array is o => membersOfAll env (contextOf env (.array is o) ctx) is
  | ctx, n => [⟨ctx, n⟩]

/-- The members of nodes, in order. -/
def membersOfAll (env : Surroundings) : Context → List Node → List Member
  | _, [] => []
  | ctx, n :: ns => membersOf env ctx n ++ membersOfAll env ctx ns

end

section

variable {env : Surroundings} {ctx : Context}

@[simp] theorem membersOf_token (t : Token) :
    membersOf env ctx (.token t) = [⟨ctx, .token t⟩] := by simp [membersOf]

@[simp] theorem membersOf_call (f : String) (ps : List Node) (o : Origin) :
    membersOf env ctx (.call f ps o) = [⟨ctx, .call f ps o⟩] := by simp [membersOf]

@[simp] theorem membersOf_statement (f : String) (ps : List Node) (o : Origin) (data : Node) :
    membersOf env ctx (.statement f ps o data) = [⟨ctx, .statement f ps o data⟩] := by
  simp [membersOf]

@[simp] theorem membersOf_block (es : List (Token × Node)) (o : Origin) :
    membersOf env ctx (.block es o) = [⟨ctx, .block es o⟩] := by simp [membersOf]

@[simp] theorem membersOf_array (is : List Node) (o : Origin) :
    membersOf env ctx (.array is o) = membersOfAll env (contextOf env (.array is o) ctx) is := by
  rw [membersOf]

theorem membersOfAll_append (ms ns : List Node) :
    membersOfAll env ctx (ms ++ ns) = membersOfAll env ctx ms ++ membersOfAll env ctx ns := by
  induction ms with
  | nil => rfl
  | cons m ms ih => simp only [List.cons_append, membersOfAll, ih, List.append_assoc]

/-- What holds of all members of nodes holds of those of each. -/
theorem forall_membersOfAll {P : Member → Prop} {ns : List Node} :
    (∀ m ∈ membersOfAll env ctx ns, P m) ↔ ∀ n ∈ ns, ∀ m ∈ membersOf env ctx n, P m := by
  induction ns with
  | nil => simp [membersOfAll]
  | cons n ns ih => rw [membersOfAll, List.forall_mem_append, ih, List.forall_mem_cons]

end

/-! ### Arrays nested differently -/

/-- **Whether some nodes are others nested differently**: an array among them may be put in the
place of its items, or the other way round, nulls may be added or left out, and so within arrays.
An array that is put there has captured no other bindings than those around it. -/
inductive Renests (env : Surroundings) : Context → List Node → List Node → Prop
  | refl (ctx : Context) (ns : List Node) : Renests env ctx ns ns
  | symm {ctx : Context} {ms ns : List Node} (h : Renests env ctx ms ns) : Renests env ctx ns ms
  | trans {ctx : Context} {ls ms ns : List Node} (h : Renests env ctx ls ms)
    (h' : Renests env ctx ms ns) : Renests env ctx ls ns
  | nest {ctx : Context} {is : List Node} {o : Origin} (ho : contextOf env (.array is o) ctx = ctx)
    (ms ns : List Node) : Renests env ctx (ms ++ is ++ ns) (ms ++ .array is o :: ns)
  | null {ctx : Context} {t : Token} (ht : t.isNull = true) (ms ns : List Node) :
    Renests env ctx (ms ++ ns) (ms ++ .token t :: ns)
  | inside {ctx : Context} {is js : List Node} {o : Origin}
    (h : Renests env (contextOf env (.array is o) ctx) is js) (ms ns : List Node) :
    Renests env ctx (ms ++ .array is o :: ns) (ms ++ .array js o :: ns)

/-- The members that are not null. -/
def withoutNulls (ms : List Member) : List Member := ms.filter fun m => !m.node.isNull

/-- **Nodes that are nested differently have the same members**, nulls aside. -/
theorem Renests.members {env : Surroundings} {ctx : Context} {ms ns : List Node}
    (h : Renests env ctx ms ns) :
    withoutNulls (membersOfAll env ctx ms) = withoutNulls (membersOfAll env ctx ns) := by
  induction h with
  | refl => rfl
  | symm _ ih => exact ih.symm
  | trans _ _ ih ih' => exact ih.trans ih'
  | nest ho ms ns => simp only [membersOfAll_append, membersOfAll, membersOf, ho, List.append_assoc]
  | null ht ms ns =>
    simp [withoutNulls, membersOfAll_append, membersOfAll, membersOf, Node.isNull, ht]
  | @inside ctx is js o h ms ns ih =>
    have hsame : contextOf env (.array js o) ctx = contextOf env (.array is o) ctx := rfl
    simp only [withoutNulls] at ih
    simp only [withoutNulls, membersOfAll_append, membersOfAll, membersOf, List.filter_append,
      hsame, ih]

/-- What is said of members that are not null can be said of those nested differently. -/
theorem Renests.forall_members {env : Surroundings} {ctx : Context} {ms ns : List Node}
    (h : Renests env ctx ms ns) {P : Member → Prop} (hnull : ∀ m, m.node.isNull = true → P m)
    (hms : ∀ m ∈ membersOfAll env ctx ms, P m) : ∀ m ∈ membersOfAll env ctx ns, P m := by
  intro m hm
  cases hisnull : m.node.isNull with
  | true => exact hnull m hisnull
  | false =>
    have hmem : m ∈ withoutNulls (membersOfAll env ctx ns) :=
      List.mem_filter.mpr ⟨hm, by rw [hisnull]; rfl⟩
    rw [← h.members] at hmem
    exact hms m (List.mem_filter.mp hmem).1

end Reduce

namespace Member

variable {registry : Registry}

/-- What is neither a token nor a call is not simple. -/
theorem not_simple {m : Member} (htoken : ∀ t, m.node ≠ .token t)
    (hcall : ∀ f ps o, m.node ≠ .call f ps o) : ¬ m.Simple registry := by
  rintro (⟨t, ht⟩ | ⟨f, ps, o, function, h, -⟩)
  · exact htoken t ht
  · exact hcall f ps o h

/-- A null is a token, and no call. -/
theorem simple_of_null {m : Member} (h : m.node.isNull = true) : m.Simple registry := by
  obtain ⟨c, n⟩ := m
  cases n with
  | token t => exact .inl ⟨t, rfl⟩
  | _ => exact absurd h (by simp [Node.isNull])

theorem not_late_of_null {m : Member} (h : m.node.isNull = true) : ¬ m.node.IsLate registry := by
  rintro ⟨f, ps, o, function, hcall, -, -⟩
  rw [hcall] at h
  exact absurd h (by simp [Node.isNull])

/-- A null has no text. -/
theorem text?_of_null {m : Member} (h : m.node.isNull = true) : m.text? = none := by
  obtain ⟨c, n⟩ := m
  cases n with
  | token t => exact if_pos h
  | _ => exact absurd h (by simp [Node.isNull])

/-- The texts of members are those of the members that are not null. -/
theorem texts_withoutNulls (ms : List Member) :
    (Reduce.withoutNulls ms).filterMap text? = ms.filterMap text? := by
  rw [Reduce.withoutNulls, List.filterMap_filter]
  refine List.filterMap_congr fun m _ => ?_
  cases hnull : m.node.isNull with
  | true => rw [text?_of_null hnull]; rfl
  | false => rfl

end Member

/-! ### Texts -/

namespace Reduce

variable {known : String → Bool} {env : Surroundings} {ctx : Context}

theorem textsOfAll_append (ms ns : List Node) :
    textsOfAll known (ms ++ ns) = (do
      let xs ← textsOfAll known ms
      let ys ← textsOfAll known ns
      return xs ++ ys) := by
  induction ms with
  | nil =>
    rw [List.nil_append, textsOfAll]
    cases textsOfAll known ns <;> rfl
  | cons m ms ih =>
    rw [List.cons_append, textsOfAll, textsOfAll, ih]
    cases textsOf known m with
    | error e => rfl
    | ok xs =>
      cases textsOfAll known ms with
      | error e => rfl
      | ok ys =>
        cases textsOfAll known ns with
        | error e => rfl
        | ok zs => exact congrArg Except.ok (List.append_assoc xs ys zs).symm

theorem textsOfAll_singleton (n : Node) : textsOfAll known [n] = textsOf known n := by
  rw [textsOfAll, textsOfAll]
  cases textsOf known n with
  | error e => rfl
  | ok xs => exact congrArg Except.ok (List.append_nil xs)

/-- The texts of nodes are those of their members, if that is so for each of them. -/
theorem textsOfAll_members {ns : List Node} (h : ∀ n ∈ ns, ∀ ctx : Context,
      textsOf known n = textsOfAll known ((membersOf env ctx n).map (·.node))) :
    textsOfAll known ns = textsOfAll known ((membersOfAll env ctx ns).map (·.node)) := by
  induction ns with
  | nil => rw [membersOfAll, List.map_nil]
  | cons n ns ih =>
    obtain ⟨hn, hns⟩ := List.forall_mem_cons.mp h
    rw [membersOfAll, List.map_append, textsOfAll_append, textsOfAll, hn ctx, ih hns]

/-- **The texts of a node are those of its members.** -/
theorem textsOf_members (n : Node) (ctx : Context) :
    textsOf known n = textsOfAll known ((membersOf env ctx n).map (·.node)) := by
  induction n generalizing ctx with
  | array is o ih =>
    rw [membersOf_array, textsOf]
    exact textsOfAll_members ih
  | token t => simp [textsOfAll_singleton]
  | call f ps o => simp [textsOfAll_singleton]
  | statement f ps o data => simp [textsOfAll_singleton]
  | block es o => simp [textsOfAll_singleton]

/-- Members that are all tokens have the texts of these. -/
theorem textsOfAll_tokens {ms : List Member} (h : ∀ m ∈ ms, ∃ t, m.node = .token t) :
    textsOfAll known (ms.map (·.node)) = .ok (ms.filterMap Member.text?) := by
  induction ms with
  | nil => rfl
  | cons m ms ih =>
    obtain ⟨⟨t, ht⟩, hms⟩ := List.forall_mem_cons.mp h
    have htext : m.text? = t.text? := by rw [Member.text?, ht]
    rw [List.map_cons, textsOfAll, ht, textsOf, ih hms, List.filterMap_cons, htext, TokenOf.text?]
    split <;> rfl

/-- One call of a late function among members is enough to wait. -/
theorem textsOfAll_late {registry : Registry} {ms : List Member}
    (h : ∀ m ∈ ms, m.Simple registry) (hlate : ∃ m ∈ ms, m.node.IsLate registry) :
    textsOfAll (Registry.isKnown registry) (ms.map (·.node)) = .error .waits := by
  induction ms with
  | nil =>
    obtain ⟨m, hm, -⟩ := hlate
    exact absurd hm List.not_mem_nil
  | cons m ms ih =>
    obtain ⟨hm, hms⟩ := List.forall_mem_cons.mp h
    rw [List.map_cons, textsOfAll]
    rcases hm with ⟨t, ht⟩ | ⟨f, ps, o, function, hcall, hget, -⟩
    · have hrest : ∃ m ∈ ms, m.node.IsLate registry := by
        obtain ⟨m', hm', hlate⟩ := hlate
        rcases List.mem_cons.mp hm' with rfl | hm'
        · obtain ⟨f, ps, o, function, hcall, -⟩ := hlate
          rw [ht] at hcall
          exact absurd hcall (by simp)
        · exact ⟨m', hm', hlate⟩
      rw [ht, textsOf, ih hms hrest]
      rfl
    · have hknown : Registry.isKnown registry f = true := by
        rw [← Bool.not_eq_false]
        intro hunknown
        rw [Registry.get?_of_not_isKnown hunknown] at hget
        exact absurd hget (by simp)
      have hstuck : textsOf (Registry.isKnown registry) (.call f ps o) = .error .waits := by
        simp [textsOf, Node.stuck, Node.isDeferred, Node.function?, hknown]
      rw [hcall, hstuck]
      rfl

end Reduce

end ContentLang
