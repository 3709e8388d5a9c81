import ContentLang.Proofs.Loading.Ready
import ContentLang.Proofs.Settled.Still
import ContentLang.Proofs.Walk.Kin

/-!
# Settled nodes stay of their kind

A settled node that is reduced again stays what it was but for the bindings that are captured in
it: those of the context it is reduced in take the place of its own
(`ContentLang.Reduce.stays_inContext`). It is kin to what it was in every way of being kin that does
not look at bindings. What is said here beside `ContentLang.Reduce.still_inContext` is that the
identities in it, too, stay what they were.
-/

namespace ContentLang

open Walk

/-- Nodes that are kin one by one are alike. -/
theorem Node.Kin.alike_all {K : Kinship} {ms ns : List Node}
    (h : List.Forall₂ (Node.Kin K) ms ns) : Alike ms ns := by
  induction h with
  | nil => exact .refl []
  | cons h _ ih => exact alike_cons_iff.mpr ⟨_, _, rfl, h.alike, ih⟩

namespace Reduce

/-- The outcomes that are a node kin to the given one. -/
def Stays (K : Kinship) (n : Node) (o : Outcome) : Prop := ∃ m, o = .value m ∧ n.Kin K m

/-- Members that stay of their kind. -/
theorem listwise_kin {α : Type} (X : α → α → Prop) :
    Listwise (fun (a : α) l => ∃ b, l = [b] ∧ X a b) (List.Forall₂ X) where
  nil := .nil
  cons := by
    rintro a _ as bs ⟨b, rfl, hab⟩ h
    exact .cons hab h

section

variable {K : Kinship} (hK : ∀ c d, K.contexts c d) {env : Surroundings} {limit : Nat}

/-- Whether settled nodes stay of their kind, nested no deeper than a limit. -/
def Staying (K : Kinship) (env : Surroundings) (limit : Nat) : Prop :=
  ∀ (n : Node) (ctx : Context), n.Settled env.registry env.late → n.Kin K n →
    Gives (Stays K n) (inContext limit env n ctx)

variable (hrec : Staying K env limit) (ctx : Context)
include hrec

theorem stays_visit {n : Node} (hn : n.Settled env.registry env.late) (hkin : n.Kin K n) :
    Gives (Stays K n) (visit env (inContext limit) n ctx) :=
  hrec n _ hn hkin

theorem stays_param {p : Node} (hp : p.Settled env.registry env.late) (hkin : p.Kin K p) :
    Gives (fun o => ∃ q, o.toNode? p.origin = some q ∧ ∃ r, [q] = [r] ∧ p.Kin K r)
      (visit env (inContext limit) p ctx) :=
  (stays_visit hrec ctx hp hkin).imp fun _ ⟨q, ho, hpq⟩ => ⟨q, ho ▸ rfl, q, rfl, hpq⟩

/-! ### Calls -/

section

variable {f : String} {ps : List Node} {o : Origin} {data : Node}
  (hps : ∀ p ∈ ps, p.Settled env.registry env.late)

omit hrec in
/-- What stays settled is left as it is by the pass, which is all that functions look at. -/
theorem kept_of_settled {n : Node} (hn : n.Settled env.registry env.late) :
    Kept limit env False n :=
  ⟨hn, False.elim⟩

variable (hkin : List.Forall₂ (Node.Kin K) ps ps)
include hps hkin

theorem stays_reduceCallParams (f : String) (o : Origin) :
    Gives (fun r => ∃ qs, r = some ⟨f, qs, { o with context := ctx }⟩ ∧
        List.Forall₂ (Node.Kin K) ps qs)
      (reduceCallParams env (inContext limit) ⟨f, ps, o⟩ ctx) :=
  meets_reduceCallParams (listwise_kin _)
    (fun p hp => stays_param hrec ctx (hps p hp) (List.forall₂_same.mp hkin p hp)) f o

include hK

theorem stays_keepCall (hf : K.calls f) :
    Gives (Stays K (.call f ps o)) (keepCall env (inContext limit) ⟨f, ps, o⟩ none ctx) := by
  refine (meets_keepCall (listwise_kin _)
    (fun p hp => stays_param hrec ctx (hps p hp) (List.forall₂_same.mp hkin p hp)) f o).imp
      fun out hout => ?_
  obtain ⟨qs, rfl, hqs⟩ := hout
  exact ⟨_, rfl, .call hf hqs ⟨rfl, rfl, rfl, hK _ _⟩⟩

theorem stays_keepStatement (hf : K.calls f) (hdata : data.Settled env.registry env.late)
    (hdatakin : data.Kin K data) :
    Gives (Stays K (.statement f ps o data))
      (keepCall env (inContext limit) ⟨f, ps, o⟩ (some data) ctx) := by
  have hvisit : Gives (fun out => ∃ d, out.toNode? data.origin = some d ∧ data.Kin K d)
      (visit env (inContext limit) data ctx) :=
    (stays_visit hrec ctx hdata hdatakin).imp fun _ ⟨d, hd, hdd⟩ => ⟨d, hd ▸ rfl, hdd⟩
  refine (meets_keepStatement (listwise_kin _)
    (fun p hp => stays_param hrec ctx (hps p hp) (List.forall₂_same.mp hkin p hp)) f o hvisit).imp
      fun out hout => ?_
  obtain ⟨qs, d, rfl, hqs, hd⟩ := hout
  exact ⟨_, rfl, .statement hf hqs ⟨rfl, rfl, rfl, hK _ _⟩ hd⟩

theorem stays_callNamed (hrests : Rests env.registry env.late f ps) (hconstruct : f ∉ constructs)
    (hf : K.calls f) :
    Gives (Stays K (.call f ps o)) (callNamed env (inContext limit) ⟨f, ps, o⟩ none ctx) := by
  have hparams := stays_reduceCallParams hrec ctx hps hkin f o
  have hstays : ∀ {qs : List Node}, List.Forall₂ (Node.Kin K) ps qs →
      Stays K (.call f ps o) (.value (.call f qs { o with context := ctx })) := fun hqs =>
    ⟨_, rfl, .call hf hqs ⟨rfl, rfl, rfl, hK _ _⟩⟩
  unfold callNamed
  cases hrests with
  | unknown hunknown =>
    simp only [Registry.get?_of_not_isKnown hunknown]
    exact gives_after fun _ => stays_keepCall hK hrec ctx hps hkin hf
  | @late _ function _ hpass _ hget hlate =>
    simp only [hget]
    have hcall : Gives (Stays K (.call f ps o))
        (callFunction env (inContext limit) function ⟨f, ps, o⟩ ctx) := by
      unfold callFunction
      simp only [hlate, if_true, hpass, Bool.false_eq_true, if_false]
      refine gives_after fun _ => meets_bind hparams fun r hr => ?_
      obtain ⟨qs, rfl, hqs⟩ := hr
      exact meets_pure (hstays hqs)
    exact meets_bind hcall fun out hout => meets_pure hout
  | @waiting _ function _ hpass _ hget hlate hwaits _ =>
    simp only [hget]
    have hkeeps : (evaluator env (inContext limit)).Keeps False (Kept limit env False) :=
      keeps_evaluator (still_inContext limit) False.elim
    have hcall : Gives (Stays K (.call f ps o))
        (callFunction env (inContext limit) function ⟨f, ps, o⟩ ctx) := by
      unfold callFunction
      simp only [hlate, Bool.false_eq_true, if_false]
      refine meets_bind hparams fun r hr => ?_
      obtain ⟨qs, rfl, hqs⟩ := hr
      have halike : Alike ps qs := Node.Kin.alike_all hqs
      have hkept : ∀ q ∈ qs, Kept limit env False q :=
        halike.forall_mem fun p hp q hpq => hkeeps.alike hpq (kept_of_settled (hps p hp))
      have hpending : Gives (· = Outcome.pending) _ :=
        (hwaits rfl hkeeps ⟨f, qs, { o with context := ctx }⟩ ctx hkept halike).mono
          (Terms.quietIf_covers_any _) id fun _ h => h
      refine meets_bind hpending fun out hout => ?_
      subst hout
      simp only [Outcome.isPending, hpass, Bool.not_false, Bool.and_self, if_true]
      exact gives_after fun _ => meets_pure (hstays hqs)
    exact meets_bind hcall fun out hout => meets_pure hout
  | path => exact absurd hconstruct (by simp [constructs])
  | condition => exact absurd hconstruct (by simp [constructs])

end

omit hrec in
/-- A parameter that is a call left for later is waited for. -/
theorem gives_deferred {p : Node} (hp : p.Settled env.registry env.late)
    (hdeferred : p.isDeferred (Registry.isKnown env.registry) = true) :
    Gives (· = .error .pending) ((evaluator env (inContext limit)).requireToken p ctx) :=
  (still_deferred (still_inContext limit) False.elim ctx (kept_of_settled hp) hdeferred).mono
    (Terms.quietIf_covers_any _) id fun _ h => h

include hK

/-- A call that rests stays of its kind. -/
theorem stays_call {f : String} {ps : List Node} {o : Origin}
    (hrests : Rests env.registry env.late f ps) (hf : K.calls f)
    (hps : ∀ p ∈ ps, p.Settled env.registry env.late)
    (hkin : List.Forall₂ (Node.Kin K) ps ps) :
    Gives (Stays K (.call f ps o)) (call env (inContext limit) ⟨f, ps, o⟩ none ctx) := by
  have hkeep := stays_keepCall hK hrec ctx hps hkin hf (o := o)
  by_cases hconstruct : f ∈ constructs
  · obtain ⟨hpass, ⟨rfl, path, others, rfl, hpath, hothers⟩ | ⟨rfl, condition, rfl, hdeferred⟩⟩ :=
      hrests.construct hconstruct
    · have harity : (Arity.either 1 2).accepts (path :: others).length = true := by
        have hlength : others.length = 0 ∨ others.length = 1 := by omega
        simpa [Arity.accepts] using hlength
      refine meets_bind (P := Stays K _) ?_ fun out hout => meets_pure hout
      unfold includeCall
      simp only [harity, Bool.not_true, Bool.false_eq_true, if_false]
      refine meets_bind (gives_deferred ctx (hps path (by simp)) hpath) fun x hx => ?_
      subst hx
      simp only [hpass, Bool.false_eq_true, if_false]
      exact gives_after fun _ => hkeep
    · refine meets_bind (gives_deferred ctx (hps condition (by simp)) hdeferred) fun x hx => ?_
      subst hx
      simp only [hpass, Bool.false_eq_true, if_false]
      exact gives_after fun _ => hkeep
  · rw [call_eq_callNamed hconstruct]
    exact stays_callNamed hK hrec ctx hps hkin hrests hconstruct hf

/-- A call that rests and keeps its data stays of its kind, with the data. -/
theorem stays_statement {f : String} {ps : List Node} {o : Origin} {data : Node}
    (hrests : Rests env.registry env.late f ps)
    (hkeeps : f ≠ includeName ∧ Registry.contains env.registry f = false) (hf : K.calls f)
    (hps : ∀ p ∈ ps, p.Settled env.registry env.late) (hkin : List.Forall₂ (Node.Kin K) ps ps)
    (hdata : data.Settled env.registry env.late) (hdatakin : data.Kin K data) :
    Gives (Stays K (.statement f ps o data))
      (call env (inContext limit) ⟨f, ps, o⟩ (some data) ctx) := by
  have hkeep := stays_keepStatement hK hrec ctx hps hkin hf hdata hdatakin (o := o)
  by_cases hconstruct : f ∈ constructs
  · obtain ⟨hpass, ⟨rfl, -⟩ | ⟨rfl, condition, rfl, hdeferred⟩⟩ := hrests.construct hconstruct
    · exact absurd rfl hkeeps.1
    · refine meets_bind (gives_deferred ctx (hps condition (by simp)) hdeferred) fun x hx => ?_
      subst hx
      simp only [hpass, Bool.false_eq_true, if_false]
      exact gives_after fun _ => hkeep
  · rw [call_eq_callNamed hconstruct]
    unfold callNamed
    simp only [Registry.get?_eq_none_iff.mpr hkeeps.2]
    exact gives_after fun _ => hkeep

omit hK in
/-- A settled element is neither a binding nor followed by data of its own. -/
theorem stays_element {n : Node} (hn : n.Settled env.registry env.late) (hkin : n.Kin K n) :
    Gives (fun r => ∃ l, r = (some l, ctx) ∧ ∃ m, l = [m] ∧ n.Kin K m)
      (element env (inContext limit) ctx n) := by
  have hvisit : Gives (fun o => ∃ l, o.toItems? = some l ∧ ∃ m, l = [m] ∧ n.Kin K m)
      (visit env (inContext limit) n ctx) :=
    (stays_visit hrec ctx hn hkin).imp fun o ⟨m, ho, hm⟩ => ⟨[m], ho ▸ rfl, m, rfl, hm⟩
  have hplain := meets_plainElement hvisit
  cases n with
  | call f ps o =>
    obtain ⟨hrests, -⟩ := Node.settled_call.mp hn
    rw [element, if_neg hrests.ne_setName]
    exact hplain
  | statement f ps o data =>
    obtain ⟨hrests, ⟨hinclude, hcontains⟩, -⟩ := Node.settled_statement.mp hn
    have hdata : takesNoData env f = false := by simp [takesNoData, hinclude, hcontains]
    rw [element, if_neg hrests.ne_setName, hdata]
    exact hplain
  | token t => exact hplain
  | block es o => exact hplain
  | array is o => exact hplain

end

/-- **A settled node stays of its kind**, in every context. -/
theorem stays_inContext {K : Kinship} (hK : ∀ c d, K.contexts c d) (env : Surroundings)
    (limit : Nat) : Staying K env limit := by
  have horigin : ∀ (o : Origin) (ctx : Context), o.Kin K { o with context := ctx } :=
    fun o ctx => ⟨rfl, rfl, rfl, hK _ _⟩
  induction limit with
  | zero => exact fun _ _ _ _ => meets_halt _ id
  | succ limit hrec =>
    intro n ctx hn hkin
    cases hkin with
    | @token t _ _ =>
      exact meets_pure ⟨_, rfl, .token ⟨rfl, rfl, rfl, horigin t.origin ctx⟩⟩
    | @array is _ o _ his _ =>
      have hitems := Node.settled_array.mp hn
      refine meets_bind (meets_elements (listwise_kin _) fun i hi =>
        stays_element hrec ctx (hitems i hi) (List.forall₂_same.mp his i hi)) fun r hr => ?_
      obtain ⟨ms, rfl, hms⟩ := hr
      exact meets_pure ⟨_, rfl, .array hms (horigin o ctx)⟩
    | @columns es _ o _ hkeys hvalues _ =>
      have hes := Node.settled_block.mp hn
      have hself : ∀ e ∈ es, e.1.Kin K e.1 ∧ e.2.Kin K e.2 :=
        List.forall₂_same.mp (forall₂_rows.mpr ⟨hkeys, hvalues⟩)
      refine meets_bind (meets_entries (listwise_kin K.Entry) fun e he => ?_) fun r hr => ?_
      · refine (stays_visit hrec ctx (hes e he) (hself e he).2).imp fun out hout => ?_
        obtain ⟨m, rfl, hm⟩ := hout
        exact ⟨_, rfl, (e.1, m), rfl, (hself e he).1, hm⟩
      · obtain ⟨fs, rfl, hfs⟩ := hr
        exact meets_pure ⟨_, rfl, Node.kin_block hfs (horigin o ctx)⟩
    | @call f ps _ o _ hf hps _ =>
      obtain ⟨hrests, hsettled⟩ := Node.settled_call.mp hn
      exact stays_call hK hrec ctx hrests hf hsettled hps
    | @statement f ps _ o _ data _ hf hps _ hdata =>
      obtain ⟨hrests, hkeeps, hsettled, hdatasettled⟩ := Node.settled_statement.mp hn
      exact stays_statement hK hrec ctx hrests hkeeps hf hsettled hps hdatasettled hdata

end Reduce

end ContentLang
