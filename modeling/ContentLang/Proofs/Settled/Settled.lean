import ContentLang.Proofs.Meaning.Walks

/-!
# Settled nodes

A node is **settled** in a pass (`ContentLang.Node.Settled`) if the pass leaves it as it is. What
this comes to is which calls rest (`ContentLang.Rests`):

| a call | rests | in |
|---|---|---|
| of nothing that is known | always | both passes |
| of a late function | always | loading |
| of another function | if the function waits for a parameter | loading |
| `Include` | if the path is a call left for later | loading |
| `If` | if the condition is a call left for later | loading |

`Set^` never rests. Data stays with a call of nothing known and with an `If`; any other call
leaves it to be the next element.

In consumption the settled nodes are the inert ones. Whether a node is settled does not depend
on where it stands (`ContentLang.Node.Settled.alike`).
-/

namespace ContentLang

open Walk

/-- **Whether a function waits for one of its parameters**: whatever keeps the parameters, the
result is pending, and nothing but remarks is left. -/
def Function.Waits (f : Function) (known : String → Bool) (ps : List Node) : Prop :=
  ∀ {ev : Evaluator} {ends : Prop} {N : Node → Prop}, ev.isKnown = known → ev.Keeps ends N →
    ∀ (call : Call) (ctx : Context), (∀ p ∈ call.params, N p) → Alike ps call.params →
      Still ends (· = .pending) (f.reduce ev call ctx)

theorem Function.Waits.alike {f : Function} {known : String → Bool} {ps qs : List Node}
    (h : f.Waits known ps) (hqs : Alike ps qs) : f.Waits known qs :=
  fun hknown hev call ctx hN hcall => h hknown hev call ctx hN (hqs.trans hcall)

/-- A function waits for what is waited for when its parameters are read. -/
theorem Function.Means.waits {α : Type} {f : Function} {m : Meaning α} (hf : f.Means m)
    (hm : m.Lawful) {known : String → Bool} {ps : List Node}
    (hps : m.read known ps = .error .waits) : f.Waits known ps := by
  intro ev ends N hknown hev call ctx hN hcall
  have hread : m.read ev.isKnown call.params = .error .waits := by
    rw [hknown, ← hm.waits_bare, ← hcall, hm.waits_bare]
    exact hps
  have hmeets := hf hev call ctx hN fun h => absurd hread h
  refine hmeets.mono (Terms.quietIf_covers_quietIf fun _ => hread) id fun o ho => ?_
  rw [Meaning.outcome, hread] at ho
  exact Outcome.alike_pending_iff.mp ho

variable {registry : Registry} {late : Bool}

/-- **Whether a call with settled parameters stays** as it is. -/
inductive Rests (registry : Registry) (late : Bool) : String → List Node → Prop
  | unknown {f : String} {ps : List Node} (hf : registry.isKnown f = false) :
    Rests registry late f ps
  | late {f : String} {function : Function} {ps : List Node} (hpass : late = false)
    (hf : f ∉ constructs) (hget : registry.get? f = some function)
    (hlate : function.late = true) : Rests registry late f ps
  | waiting {f : String} {function : Function} {ps : List Node} (hpass : late = false)
    (hf : f ∉ constructs) (hget : registry.get? f = some function)
    (hlate : function.late = false) (hwaits : function.Waits registry.isKnown ps)
    (hknown : ¬ ∀ p ∈ ps, p.Inert registry.isKnown) : Rests registry late f ps
  | path {path : Node} {others : List Node} (hpass : late = false)
    (hpath : path.isDeferred registry.isKnown = true) (hothers : others.length ≤ 1) :
    Rests registry late includeName (path :: others)
  | condition {condition : Node} (hpass : late = false)
    (hcondition : condition.isDeferred registry.isKnown = true) :
    Rests registry late ifName [condition]

/-- A call that rests is of no construct, or it is one of those that wait. -/
theorem Rests.construct {f : String} {ps : List Node} (h : Rests registry late f ps)
    (hf : f ∈ constructs) :
    late = false ∧ ((f = includeName ∧ ∃ path others, ps = path :: others ∧
        path.isDeferred registry.isKnown = true ∧ others.length ≤ 1) ∨
      (f = ifName ∧ ∃ condition, ps = [condition] ∧
        condition.isDeferred registry.isKnown = true)) := by
  cases h with
  | unknown hunknown => exact absurd hf (Registry.not_isKnown_iff.mp hunknown).1
  | late _ hnot => exact absurd hf hnot
  | waiting _ hnot => exact absurd hf hnot
  | path hpass hpath hothers => exact ⟨hpass, .inl ⟨rfl, _, _, rfl, hpath, hothers⟩⟩
  | condition hpass hcondition => exact ⟨hpass, .inr ⟨rfl, _, rfl, hcondition⟩⟩

/-- Nothing is bound by a call that rests. -/
theorem Rests.ne_setName {f : String} {ps : List Node} (h : Rests registry late f ps) :
    f ≠ setName := by
  rintro rfl
  rcases (h.construct (by simp [constructs])).2 with ⟨h, -⟩ | ⟨h, -⟩
  · exact absurd h (by decide)
  · exact absurd h (by decide)

/-- **Whether a node stays as it is.** -/
inductive Node.Settled (registry : Registry) (late : Bool) : Node → Prop
  | token (t : Token) : Settled registry late (.token t)
  | call {f : String} {ps : List Node} {o : Origin} (hrests : Rests registry late f ps)
    (hps : ∀ p ∈ ps, Settled registry late p) : Settled registry late (.call f ps o)
  | statement {f : String} {ps : List Node} {o : Origin} {data : Node}
    (hrests : Rests registry late f ps) (hkeeps : f ≠ includeName ∧ registry.contains f = false)
    (hps : ∀ p ∈ ps, Settled registry late p) (hdata : Settled registry late data) :
    Settled registry late (.statement f ps o data)
  | block {es : List (Token × Node)} {o : Origin} (hes : ∀ e ∈ es, Settled registry late e.2) :
    Settled registry late (.block es o)
  | array {is : List Node} {o : Origin} (his : ∀ i ∈ is, Settled registry late i) :
    Settled registry late (.array is o)

namespace Node

@[simp] theorem settled_token (t : Token) : (token t).Settled registry late := .token t

@[simp] theorem settled_array {is : List Node} {o : Origin} :
    (array is o).Settled registry late ↔ ∀ i ∈ is, i.Settled registry late :=
  ⟨fun h => by cases h with | array his => exact his, .array⟩

@[simp] theorem settled_block {es : List (Token × Node)} {o : Origin} :
    (block es o).Settled registry late ↔ ∀ e ∈ es, e.2.Settled registry late :=
  ⟨fun h => by cases h with | block hes => exact hes, .block⟩

@[simp] theorem settled_call {f : String} {ps : List Node} {o : Origin} :
    (call f ps o).Settled registry late ↔
      Rests registry late f ps ∧ ∀ p ∈ ps, p.Settled registry late :=
  ⟨fun h => by cases h with | call hrests hps => exact ⟨hrests, hps⟩, fun h => .call h.1 h.2⟩

@[simp] theorem settled_statement {f : String} {ps : List Node} {o : Origin} {data : Node} :
    (statement f ps o data).Settled registry late ↔
      Rests registry late f ps ∧ (f ≠ includeName ∧ registry.contains f = false) ∧
        (∀ p ∈ ps, p.Settled registry late) ∧ data.Settled registry late :=
  ⟨fun h => by cases h with | statement h₁ h₂ h₃ h₄ => exact ⟨h₁, h₂, h₃, h₄⟩,
    fun h => .statement h.1 h.2.1 h.2.2.1 h.2.2.2⟩

theorem closed_settled : Closed (Settled registry late) :=
  ⟨settled_token, settled_array, settled_block⟩

end Node

/-! ### Settled nodes elsewhere -/

theorem Alike.isDeferred {m n : Node} (h : Alike m n) (known : String → Bool) :
    m.isDeferred known = n.isDeferred known := by
  rw [← Node.isDeferred_bare, h, Node.isDeferred_bare]

theorem Rests.alike {f : String} {ps qs : List Node} (h : Rests registry late f ps)
    (hqs : Alike ps qs) : Rests registry late f qs := by
  cases h with
  | unknown hf => exact .unknown hf
  | late hpass hf hget hlate => exact .late hpass hf hget hlate
  | waiting hpass hf hget hlate hwaits hknown =>
    refine .waiting hpass hf hget hlate (hwaits.alike hqs) fun h => hknown ?_
    exact hqs.symm.forall_mem fun q hq p hqp => hqp.inert (h q hq)
  | path hpass hpath hothers =>
    obtain ⟨path', others', rfl, hpath', hothers'⟩ := alike_cons_iff.mp hqs
    exact .path hpass (hpath'.isDeferred _ ▸ hpath) (hothers'.length ▸ hothers)
  | condition hpass hcondition =>
    obtain ⟨condition', others', rfl, hcondition', hothers'⟩ := alike_cons_iff.mp hqs
    obtain rfl := alike_nil_iff.mp hothers'
    exact .condition hpass (hcondition'.isDeferred _ ▸ hcondition)

theorem Node.Settled.alike {m n : Node} (hm : m.Settled registry late) (h : Alike m n) :
    n.Settled registry late := by
  induction m generalizing n with
  | token t =>
    obtain ⟨t', rfl, -⟩ := h.token
    exact .token t'
  | call f ps o ih =>
    obtain ⟨ps', o', rfl, hps, -⟩ := h.call
    obtain ⟨hrests, hsettled⟩ := Node.settled_call.mp hm
    exact .call (hrests.alike hps) (hps.forall_mem fun p hp q hpq => ih p hp (hsettled p hp) hpq)
  | statement f ps o data ih ihdata =>
    obtain ⟨ps', o', data', rfl, hps, -, hdata'⟩ := h.statement
    obtain ⟨hrests, hkeeps, hsettled, hdata⟩ := Node.settled_statement.mp hm
    exact .statement (hrests.alike hps) hkeeps
      (hps.forall_mem fun p hp q hpq => ih p hp (hsettled p hp) hpq) (ihdata hdata hdata')
  | block es o ih =>
    obtain ⟨es', o', rfl, hes⟩ := h.block
    have hsettled := Node.settled_block.mp hm
    exact .block (hes.forall_mem fun e he e' hee' =>
      ih e he (hsettled e he) (congrArg Prod.snd hee'))
  | array is o ih =>
    obtain ⟨is', o', rfl, his⟩ := h.array
    have hsettled := Node.settled_array.mp hm
    exact .array (his.forall_mem fun i hi j hij => ih i hi (hsettled i hi) hij)

/-! ### Inert nodes -/

/-- **An inert node is settled** in either pass. -/
theorem Node.Inert.settled {n : Node} (h : n.Inert registry.isKnown) :
    n.Settled registry late := by
  induction n with
  | token t => exact .token t
  | call f ps o ih =>
    obtain ⟨hf, hps⟩ := Node.inert_call.mp h
    exact .call (.unknown hf) fun p hp => ih p hp (hps p hp)
  | statement f ps o data ih ihdata =>
    obtain ⟨hf, hps, hdata⟩ := Node.inert_statement.mp h
    exact .statement (.unknown hf)
      ⟨(Registry.ne_of_not_isKnown hf).1, (Registry.not_isKnown_iff.mp hf).2⟩
      (fun p hp => ih p hp (hps p hp)) (ihdata hdata)
  | block es o ih => exact .block fun e he => ih e he (Node.inert_block.mp h e he)
  | array is o ih => exact .array fun i hi => ih i hi (Node.inert_array.mp h i hi)

/-! ### Late functions -/

/-- Whether a name is that of a late function. -/
def Registry.isLate (r : Registry) (name : String) : Bool := (get? r name).any (·.late)

example : ["Choose", "ChooseWeighted", "FilterByCondition"].all Registry.builtin.isLate := by
  decide

/-- What stands in a settled node rests, and stands on settled parameters. -/
theorem Node.Settled.of_mem_calls {late : Bool} {n : Node} (h : n.Settled registry late) :
    ∀ c ∈ n.calls, Rests registry late c.function c.params ∧
      ∀ p ∈ c.params, p.Settled registry late := by
  induction n with
  | token t => simp [calls]
  | call f ps o ih =>
    obtain ⟨hrests, hps⟩ := settled_call.mp h
    rw [calls, List.forall_mem_cons]
    refine ⟨⟨hrests, hps⟩, fun c hc => ?_⟩
    obtain ⟨p, hp, hcp⟩ := mem_callsOfAll.mp hc
    exact ih p hp (hps p hp) c hcp
  | statement f ps o data ih ihdata =>
    obtain ⟨hrests, -, hps, hdata⟩ := settled_statement.mp h
    rw [calls, List.forall_mem_cons, List.forall_mem_append]
    refine ⟨⟨hrests, hps⟩, fun c hc => ?_, ihdata hdata⟩
    obtain ⟨p, hp, hcp⟩ := mem_callsOfAll.mp hc
    exact ih p hp (hps p hp) c hcp
  | block es o ih =>
    intro c hc
    obtain ⟨e, he, hce⟩ := mem_callsOfEntries.mp hc
    exact ih e he (settled_block.mp h e he) c hce
  | array is o ih =>
    intro c hc
    obtain ⟨i, hi, hci⟩ := mem_callsOfAll.mp hc
    exact ih i hi (settled_array.mp h i hi) c hci

/-- A call that rests, though nothing in its parameters is known, is of nothing known or of a
late function. -/
theorem Rests.unknown_or_late {late : Bool} {f : String} {ps : List Node}
    (h : Rests registry late f ps) (hps : ∀ p ∈ ps, p.Inert registry.isKnown) :
    registry.isKnown f = false ∨ registry.isLate f = true := by
  cases h with
  | unknown hf => exact .inl hf
  | late _ _ hget hlate => exact .inr (by simp [Registry.isLate, hget, hlate])
  | waiting _ _ _ _ _ hknown => exact absurd hps hknown
  | @path path _ _ hpath => exact absurd (hps path (by simp)).isDeferred (by simp [hpath])
  | @condition c _ hcondition => exact absurd (hps c (by simp)).isDeferred (by simp [hcondition])

/-- **Where no late function is called nothing is left**: a settled node is inert. -/
theorem Node.Settled.inert {late : Bool} {n : Node} (h : n.Settled registry late)
    (hlate : n.Inert registry.isLate) : n.Inert registry.isKnown := by
  have hcall : ∀ {f : String} {ps : List Node}, Rests registry late f ps →
      registry.isLate f = false → (∀ p ∈ ps, p.Inert registry.isKnown) →
        registry.isKnown f = false := fun hrests hf hps =>
    (hrests.unknown_or_late hps).resolve_right (by simp [hf])
  induction n with
  | token t => exact inert_token t
  | call f ps o ih =>
    obtain ⟨hrests, hps⟩ := settled_call.mp h
    obtain ⟨hf, hpslate⟩ := inert_call.mp hlate
    have hinert := fun p hp => ih p hp (hps p hp) (hpslate p hp)
    exact inert_call.mpr ⟨hcall hrests hf hinert, hinert⟩
  | statement f ps o data ih ihdata =>
    obtain ⟨hrests, -, hps, hdata⟩ := settled_statement.mp h
    obtain ⟨hf, hpslate, hdatalate⟩ := inert_statement.mp hlate
    have hinert := fun p hp => ih p hp (hps p hp) (hpslate p hp)
    exact inert_statement.mpr ⟨hcall hrests hf hinert, hinert, ihdata hdata hdatalate⟩
  | block es o ih =>
    exact inert_block.mpr fun e he =>
      ih e he (settled_block.mp h e he) (inert_block.mp hlate e he)
  | array is o ih =>
    exact inert_array.mpr fun i hi =>
      ih i hi (settled_array.mp h i hi) (inert_array.mp hlate i hi)

end ContentLang
