import ContentLang.Proofs.Nodes.Bare
import ContentLang.Reduce

/-!
# Nodes without anything to reduce

A node is **inert** if it holds no call of anything known (`ContentLang.Node.Inert`): no
function of the registry and no construct, however deep. What is in it are values, and calls
that are left as they are. Whether a node is inert does not depend on where it stands
(`ContentLang.Alike.inert`).
-/

namespace ContentLang

/-! ### Inert nodes -/

namespace Node

theorem mem_callsOfAll {c : Call} {ns : List Node} :
    c ∈ callsOfAll ns ↔ ∃ n ∈ ns, c ∈ calls n := by
  rw [callsOfAll_eq, List.mem_flatMap]

theorem mem_callsOfEntries {c : Call} {es : List (Token × Node)} :
    c ∈ callsOfEntries es ↔ ∃ e ∈ es, c ∈ calls e.2 := by
  rw [callsOfEntries_eq, List.mem_flatMap]

variable {known : String → Bool}

/-- Whether no call in a node is of anything known. -/
def Inert (known : String → Bool) (n : Node) : Prop := ∀ c ∈ n.calls, known c.function = false

instance (n : Node) : Decidable (n.Inert known) :=
  inferInstanceAs (Decidable (∀ c ∈ n.calls, known c.function = false))

@[simp] theorem inert_token (t : Token) : (token t).Inert known := by simp [Inert, calls]

@[simp] theorem inert_array {items : List Node} {o : Origin} :
    (array items o).Inert known ↔ ∀ n ∈ items, n.Inert known := by
  simp only [Inert, calls, mem_callsOfAll]
  constructor
  · exact fun h n hn c hc => h c ⟨n, hn, hc⟩
  · rintro h c ⟨n, hn, hc⟩
    exact h n hn c hc

@[simp] theorem inert_block {es : List (Token × Node)} {o : Origin} :
    (block es o).Inert known ↔ ∀ e ∈ es, e.2.Inert known := by
  simp only [Inert, calls, mem_callsOfEntries]
  constructor
  · exact fun h e he c hc => h c ⟨e, he, hc⟩
  · rintro h c ⟨e, he, hc⟩
    exact h e he c hc

@[simp] theorem inert_call {f : String} {ps : List Node} {o : Origin} :
    (call f ps o).Inert known ↔ known f = false ∧ ∀ p ∈ ps, p.Inert known := by
  simp only [Inert, calls, List.forall_mem_cons, mem_callsOfAll]
  refine and_congr_right fun _ => ?_
  constructor
  · exact fun h p hp c hc => h c ⟨p, hp, hc⟩
  · rintro h c ⟨p, hp, hc⟩
    exact h p hp c hc

@[simp] theorem inert_statement {f : String} {ps : List Node} {o : Origin} {data : Node} :
    (statement f ps o data).Inert known ↔
      known f = false ∧ (∀ p ∈ ps, p.Inert known) ∧ data.Inert known := by
  have hparams : (call f ps o).Inert known ↔ known f = false ∧ ∀ p ∈ ps, p.Inert known :=
    inert_call
  simp only [Inert, calls, List.forall_mem_cons, List.mem_append] at hparams ⊢
  rw [← and_assoc, ← hparams, and_assoc]
  refine and_congr_right fun _ => ?_
  exact ⟨fun h => ⟨fun c hc => h c (.inl hc), fun c hc => h c (.inr hc)⟩,
    fun h c hc => hc.elim (h.1 c) (h.2 c)⟩

/-- An inert node is not left for later. -/
theorem Inert.function? {n : Node} (h : n.Inert known) {f : String} (hf : n.function? = some f) :
    known f = false := by
  cases n with
  | call g ps o =>
    obtain rfl : g = f := Option.some.inj hf
    exact (inert_call.mp h).1
  | statement g ps o data =>
    obtain rfl : g = f := Option.some.inj hf
    exact (inert_statement.mp h).1
  | _ => exact absurd hf (by simp [Node.function?])

end Node

/-- Nodes that are alike hold calls of the same names. -/
theorem Alike.inert {known : String → Bool} {m n : Node} (h : Alike m n) (hm : m.Inert known) :
    n.Inert known := by
  have hcalls : Alike m.calls n.calls := by
    rw [Alike, ← Node.calls_bare, h, Node.calls_bare]
  refine hcalls.forall_mem fun c hc c' hcc' => ?_
  have hname : (bare c).function = (bare c').function := congrArg Call.function hcc'
  exact hname ▸ hm c hc

/-! ### Names that are not known -/

namespace Registry

variable {registry : Registry} {name : String}

theorem not_isKnown_iff :
    isKnown registry name = false ↔ name ∉ constructs ∧ contains registry name = false := by
  simp [isKnown]

theorem get?_eq_none_iff : get? registry name = none ↔ contains registry name = false := by
  simp [contains, get?, Entries.contains, Entries.get?]

/-- What is not known is no construct. -/
theorem ne_of_not_isKnown (h : isKnown registry name = false) :
    name ≠ includeName ∧ name ≠ ifName ∧ name ≠ setName := by
  have hname := (not_isKnown_iff.mp h).1
  simpa [constructs] using hname

/-- What is not known is no function. -/
theorem get?_of_not_isKnown (h : isKnown registry name = false) : get? registry name = none :=
  get?_eq_none_iff.mpr (not_isKnown_iff.mp h).2

end Registry

end ContentLang
