import ContentLang.Proofs.Readiness.Reduction
import ContentLang.Proofs.Settled.Still

/-!
# What consumption leaves

What a node comes to in consumption holds nothing that is known: all its calls are of names
that are neither functions nor constructs. Reducing it once more, in either pass and with
whatever is bound, therefore gives the same again, and is done without a report, a question to
the host, or a random number (`ContentLang.Reduce.consumption_complete`). No late call is rolled
twice: functions reduce their parameters although these are reduced already, and rely on this.
-/

namespace ContentLang

/-- The nodes of an inert outcome. -/
theorem Outcome.Inert.forall_nodes {known : String → Bool} {o : Outcome} (h : o.Inert known) :
    ∀ n ∈ o.nodes, n.Inert known := by
  cases o with
  | value n => exact List.forall_mem_singleton.mpr h
  | splice items => exact h
  | empty => simp
  | pending => simp

namespace Reduce

/-- **Consumption is complete, and what it gives stays.** If the consumption pass comes to an
outcome, no node of the outcome calls a function or a construct, however deep. Reducing such a
node again, in either pass, in every context and from every state, gives a node that is the
same, leaves nothing but remarks and does not change the state; and it comes to an end if walks
may be nested as deep as the node is. So does reducing the one node that stands for the
outcome. -/
theorem consumption_complete (env env' : Surroundings) (node : Node) (ctx : Context)
    (s : WalkState) (o : Outcome) (hlate : env.late = true) (hregistry : env.registry = .builtin)
    (hregistry' : env'.registry = .builtin) (ho : (reduce env node ctx s).answer = .ok o) :
    ∀ m, (m ∈ o.nodes ∨ o.toNode? node.origin = some m) →
      (∀ c ∈ m.calls, Registry.builtin.isKnown c.function = false) ∧
      ∀ ctx' s',
        (m.depth ≤ env'.limit → ∃ out, (reduce env' m ctx' s').answer = .ok out) ∧
        (∀ out, (reduce env' m ctx' s').answer = .ok out →
          ∃ n, out = .value n ∧ m.same n = true) ∧
        (∀ note ∈ (reduce env' m ctx' s').notes, note.IsRemark) ∧
        (reduce env' m ctx' s').state = s' := by
  have hfaithful : env.Faithful := ⟨hlate, hregistry ▸ Function.faithful_builtin⟩
  have houtcome : o.Inert (Registry.isKnown env.registry) :=
    (propagates_reduce hfaithful node ctx s o ho).1
  intro m hm
  have hinert : m.Inert (Registry.isKnown env.registry) :=
    hm.elim (houtcome.forall_nodes m) houtcome.toNode
  rw [hregistry] at hinert
  refine ⟨hinert, fun ctx' s' => still_run env' ctx' s' ?_⟩
  rw [hregistry']
  exact hinert.settled

/-- A choice between two calls of a name that is not known, made in consumption. -/
theorem consumption_complete_choose :
    let env : Surroundings :=
      ⟨.builtin, .plain (fun _ => none) fun _ => none, .standard, true, ["main.txt"], 100⟩
    let x : Node := .call "f" [.token (.content "x" .unwritten)] .unwritten
    let node : Node := .call "Choose" [.array [x, x] .unwritten] .unwritten
    let s : WalkState := ⟨.standard 0, []⟩
    ∃ o, (reduce env node [] s).answer = .ok o ∧ o.nodes.length = 1 ∧ ∀ m ∈ o.nodes,
      (∀ c ∈ m.calls, Registry.builtin.isKnown c.function = false) ∧
      ∀ ctx' s', (∀ note ∈ (reduce env m ctx' s').notes, note.IsRemark) ∧
        (reduce env m ctx' s').state = s' := by
  intro env x node s
  have hrun : (match (reduce env node [] s).answer with
      | .ok o => decide (o.nodes.length = 1)
      | .error _ => false) = true := by decide +kernel
  cases ho : (reduce env node [] s).answer with
  | error halt =>
    rw [ho] at hrun
    exact absurd hrun Bool.false_ne_true
  | ok o =>
    rw [ho] at hrun
    refine ⟨o, rfl, of_decide_eq_true hrun, fun m hm => ?_⟩
    obtain ⟨hcalls, hagain⟩ :=
      consumption_complete env env node [] s o rfl rfl rfl ho m (.inl hm)
    exact ⟨hcalls, fun ctx' s' => (hagain ctx' s').2.2⟩

end Reduce

end ContentLang
