import ContentLang.Proofs.Readiness.Reduction
import ContentLang.Proofs.Restating.Functions
import ContentLang.Proofs.Settled.Idle

/-!
# Reductions in contexts that are restated

In consumption a node comes to the same in contexts that are restated, wherever it stands, and so
do two nodes that say the same and have nothing left to reduce
(`ContentLang.Reduce.restating_inContext`). The runs leave the same state, or the first one is given
up as too deep.

That is proved by induction on the depth, for both kinds of nodes at once
(`ContentLang.Reduce.RestatingReducer`): what a name is bound to is reduced when it is read, and
that is a node with nothing left to reduce if it is not the same in both contexts.

Of this an include is one more case: a file comes to the same with bindings that are restated
(`ContentLang.Reduce.tracked_includeFile`).
-/

namespace ContentLang

open Walk

/-! ### Outcomes of several nodes -/

theorem Outcome.alike_ofItems {ms ns : List Node} (h : Alike ms ns) :
    Alike (ofItems ms) (ofItems ns) := by
  cases ms with
  | nil =>
    obtain rfl := alike_nil_iff.mp h
    rfl
  | cons m ms =>
    obtain ⟨n, ns, rfl, hmn, hms⟩ := alike_cons_iff.mp h
    cases ms with
    | nil =>
      obtain rfl := alike_nil_iff.mp hms
      exact congrArg value hmn
    | cons m' ms =>
      obtain ⟨n', ns, rfl, -, -⟩ := alike_cons_iff.mp hms
      exact congrArg splice h

namespace Reduce

theorem alike_spliced {ms ns : List Node} (h : Alike ms ns) : Alike (spliced ms) (spliced ns) := by
  have hitems := Outcome.alike_ofItems h
  cases ms with
  | nil =>
    obtain rfl := alike_nil_iff.mp h
    rfl
  | cons m ms =>
    obtain ⟨n, ns, rfl, hmn, hms⟩ := alike_cons_iff.mp h
    cases ms with
    | cons m' ms =>
      obtain ⟨n', ns, rfl, -, -⟩ := alike_cons_iff.mp hms
      cases m <;> cases n <;> exact hitems
    | nil =>
      obtain rfl := alike_nil_iff.mp hms
      cases m with
      | array is o =>
        obtain ⟨js, o', rfl, his⟩ := hmn.array
        exact congrArg Outcome.splice his
      | _ =>
        cases n with
        | array js o' => simp [Alike] at hmn
        | _ => exact hitems

/-- The names that are known in some surroundings. -/
abbrev known (env : Surroundings) : String → Bool := Registry.isKnown env.registry

/-- **Whether a way to reduce nodes comes to what is restated**, in consumption: on one node, in
contexts that are restated, and on nodes that are restated with nothing left to reduce, in any. -/
structure RestatingReducer (rec : Reducer) : Prop where
  same : ∀ {env : Surroundings}, env.late = true → env.registry = .builtin →
    ∀ (n : Node) {c d : Context}, c.Restates (known env) d →
      Tracked (Outcome.Restates (known env)) (rec env n c) (rec env n d)
  inert : ∀ {env : Surroundings}, env.late = true → ∀ {m n : Node}, m.Inert (known env) →
    Alike m n → ∀ c d : Context,
      Tracked (Outcome.Restates (known env)) (rec env m c) (rec env n d)

variable {rec : Reducer} {env : Surroundings} {c d : Context}

/-! ### Parameters -/

theorem tracked_reduceParams {ps qs : List Node}
    (h : List.Forall₂ (fun p q => Tracked (Outcome.Restates (known env)) (visit env rec p c)
      (visit env rec q d)) ps qs) :
    Tracked (Option.Rel (List.Forall₂ (Node.Restates (known env)))) (reduceParams env rec c ps)
      (reduceParams env rec d qs) := by
  induction h with
  | nil => exact tracked_pure (.some .nil)
  | @cons p q _ _ hpq _ ih =>
    refine tracked_bind hpq fun o o' ho => ?_
    have hnode := ho.toNode? p.origin q.origin
    generalize o.toNode? p.origin = x, o'.toNode? q.origin = y at hnode ⊢
    cases hnode with
    | none => exact tracked_pure .none
    | some hnode =>
      refine tracked_map ih fun r r' hr => ?_
      cases hr with
      | none => exact .none
      | some hr => exact .some (.cons hnode hr)

section

variable {ps qs : List Node}
  (h : List.Forall₂ (fun p q => Tracked (Outcome.Restates (known env)) (visit env rec p c)
    (visit env rec q d)) ps qs)
include h

theorem tracked_reduceCallParams (f : String) (o o' : Origin) :
    Tracked (Option.Rel fun x y => ∃ ps qs, List.Forall₂ (Node.Restates (known env)) ps qs ∧
        x = ⟨f, ps, { o with context := c }⟩ ∧ y = ⟨f, qs, { o' with context := d }⟩)
      (reduceCallParams env rec ⟨f, ps, o⟩ c) (reduceCallParams env rec ⟨f, qs, o'⟩ d) := by
  refine tracked_map (tracked_reduceParams h) fun r r' hr => ?_
  cases hr with
  | none => exact .none
  | some hr => exact .some ⟨_, _, hr, rfl, rfl⟩

theorem tracked_keepCall (f : String) {o o' : Origin} (ho : o.bare = OriginOf.bare o')
    {x y : Option Node} (hdata : Option.Rel (fun m n =>
      Tracked (Outcome.Restates (known env)) (visit env rec m c) (visit env rec n d)) x y) :
    Tracked Alike (keepCall env rec ⟨f, ps, o⟩ x c) (keepCall env rec ⟨f, qs, o'⟩ y d) := by
  refine tracked_bind (tracked_reduceCallParams h f o o') fun r r' hr => ?_
  cases hr with
  | none => exact tracked_pure rfl
  | some hr =>
    obtain ⟨ps', qs', hps, rfl, rfl⟩ := hr
    have hparams : bare ps' = bare qs' := Node.alike_of_restates hps
    cases hdata with
    | none => exact tracked_pure (by simp [Alike, Node.ofCall, hparams, ho])
    | @some m n hdata =>
      refine tracked_bind hdata fun out out' hout => ?_
      have hnode := hout.1.toNode? m.origin n.origin
      generalize out.toNode? m.origin = x, out'.toNode? n.origin = y at hnode ⊢
      cases hnode with
      | none => exact tracked_pure rfl
      | @some m' n' hmn =>
        exact tracked_pure (by
          simp [Alike, Node.ofStatement, hparams, ho, show bare m' = bare n' from hmn])

end

/-! ### Nodes with nothing left to reduce -/

section

variable (hlate : env.late = true)
  (hrec : ∀ {m n : Node}, m.Inert (known env) → Alike m n → ∀ c d : Context,
    Tracked (Outcome.Restates (known env)) (rec env m c) (rec env n d))
include hrec

/-- The parameters of a call of nothing known. -/
theorem tracked_inertParams {ps qs : List Node} (hps : ∀ p ∈ ps, p.Inert (known env))
    (h : Alike ps qs) (c d : Context) :
    List.Forall₂ (fun p q => Tracked (Outcome.Restates (known env)) (visit env rec p c)
      (visit env rec q d)) ps qs := by
  induction ps generalizing qs with
  | nil =>
    obtain rfl := alike_nil_iff.mp h
    exact .nil
  | cons p ps ih =>
    obtain ⟨q, qs, rfl, hpq, hps'⟩ := alike_cons_iff.mp h
    obtain ⟨hp, hps⟩ := List.forall_mem_cons.mp hps
    exact .cons (hrec hp hpq _ _) (ih hps hps')

/-- The entries of a block. -/
theorem tracked_inertEntries {es fs : List (Token × Node)} (hes : ∀ e ∈ es, e.2.Inert (known env))
    (h : Alike es fs) (c d : Context) :
    List.Forall₂ (fun e f => Tracked (Option.Rel Alike) (entriesOf env rec c e)
      (entriesOf env rec d f)) es fs := by
  induction es generalizing fs with
  | nil =>
    obtain rfl := alike_nil_iff.mp h
    exact .nil
  | cons e es ih =>
    obtain ⟨f, fs, rfl, hef, hes'⟩ := alike_cons_iff.mp h
    obtain ⟨he, hes⟩ := List.forall_mem_cons.mp hes
    obtain ⟨hkey, hvalue⟩ := Prod.mk.inj hef
    exact .cons (tracked_map (hrec he hvalue _ _) fun _ _ ho => ho.1.toEntries? hkey _ _)
      (ih hes hes')

include hlate

theorem tracked_inertStep {m n : Node} (hm : m.Inert (known env)) (h : Alike m n)
    (c d : Context) : Tracked Alike (step rec env m c) (step rec env n d) := by
  cases m with
  | token t =>
    obtain ⟨t', rfl, ht⟩ := h.token
    exact tracked_pure (congrArg (Outcome.value <| Node.token ·) ht)
  | array is o =>
    obtain ⟨js, o', rfl, his⟩ := h.array
    have hinert := Node.inert_array.mp hm
    have hinert' := Node.inert_array.mp (h.inert hm)
    refine tracked_bind (R := Option.Rel Alike) ?_ fun r r' hr => ?_
    · rw [elements_eq_inTurn hlate _ _ fun i hi => (hinert i hi).settled,
        elements_eq_inTurn hlate _ _ fun i hi => (hinert' i hi).settled]
      exact tracked_inTurn Alike.append (.refl []) ((tracked_inertParams hrec hinert his c d).imp
        fun _ _ h => tracked_map h fun _ _ ho => ho.1.toItems?)
    · cases hr with
      | none => exact tracked_pure rfl
      | some hr => exact tracked_pure (by simpa [Alike] using hr)
  | block es o =>
    obtain ⟨fs, o', rfl, hes⟩ := h.block
    have hinert := Node.inert_block.mp hm
    refine tracked_bind (R := Option.Rel Alike) ?_ fun r r' hr => ?_
    · rw [entries_eq_inTurn hlate, entries_eq_inTurn hlate]
      exact tracked_inTurn Alike.append (.refl []) (tracked_inertEntries hrec hinert hes c d)
    · cases hr with
      | none => exact tracked_pure rfl
      | some hr => exact tracked_pure (by simpa [Alike] using hr)
  | call f ps o =>
    obtain ⟨qs, o', rfl, hps, ho⟩ := h.call
    obtain ⟨hf, hinert⟩ := Node.inert_call.mp hm
    show Tracked Alike (call env rec ⟨f, ps, o⟩ none c) (call env rec ⟨f, qs, o'⟩ none d)
    have hparams := tracked_inertParams hrec hinert hps c d
    rw [call_eq_callNamed (Registry.not_isKnown_iff.mp hf).1,
      call_eq_callNamed (Registry.not_isKnown_iff.mp hf).1]
    unfold callNamed
    simp only [Registry.get?_of_not_isKnown hf]
    exact tracked_noted _ _ (tracked_keepCall hparams f ho .none)
  | statement f ps o data =>
    obtain ⟨qs, o', data', rfl, hps, ho, hdata⟩ := h.statement
    obtain ⟨hf, hinert, hd⟩ := Node.inert_statement.mp hm
    show Tracked Alike (call env rec ⟨f, ps, o⟩ (some data) c)
      (call env rec ⟨f, qs, o'⟩ (some data') d)
    have hparams := tracked_inertParams hrec hinert hps c d
    rw [call_eq_callNamed (Registry.not_isKnown_iff.mp hf).1,
      call_eq_callNamed (Registry.not_isKnown_iff.mp hf).1]
    unfold callNamed
    simp only [Registry.get?_of_not_isKnown hf]
    exact tracked_noted _ _ (tracked_keepCall hparams f ho (.some (hrec hd hdata _ _)))

end

/-! ### One node in two contexts -/

section

variable (hrec : RestatingReducer rec) (hlate : env.late = true)
  (hregistry : env.registry = .builtin) (hctx : c.Restates (known env) d)
include hrec hlate hregistry

/-- What functions may do comes to what is restated. -/
theorem restating_evaluator : (evaluator env rec).Restating := by
  intro m n c d hmn hctx
  show Tracked _ (rec env m (contextOf env m c)) (rec env n (contextOf env n d))
  rcases hmn with rfl | ⟨hm, hmn⟩
  · refine hrec.same hlate hregistry m ?_
    -- Bindings that were captured are the same on both sides.
    unfold contextOf
    split
    · exact Context.restates_refl _
    · exact hctx
  · exact hrec.inert hlate hm hmn _ _

include hctx

theorem tracked_visit (n : Node) :
    Tracked (Outcome.Restates (known env)) (visit env rec n c) (visit env rec n d) :=
  restating_evaluator hrec hlate hregistry (.inl rfl) hctx

theorem tracked_visits (ns : List Node) :
    List.Forall₂ (fun m n => Tracked (Outcome.Restates (known env)) (visit env rec m c)
      (visit env rec n d)) ns ns :=
  List.forall₂_same.mpr fun n _ => tracked_visit hrec hlate hregistry hctx n

theorem tracked_required (n : Node) :
    Tracked (Paired Alike) ((evaluator env rec).requireToken n c)
      ((evaluator env rec).requireToken n d) :=
  Evaluator.tracked_requireToken (restating_evaluator hrec hlate hregistry) hctx (.inl rfl)

theorem tracked_keptCall (call : Call) (data : Option Node) :
    Tracked Alike (keepCall env rec call data c) (keepCall env rec call data d) := by
  refine tracked_keepCall (tracked_visits hrec hlate hregistry hctx call.params) _ rfl ?_
  cases data with
  | none => exact .none
  | some n => exact .some (tracked_visit hrec hlate hregistry hctx n)

theorem tracked_withTrailing {o o' : Outcome} (ho : Alike o o') (data : Option Node) :
    Tracked Alike (withTrailing env rec o data c) (withTrailing env rec o' data d) := by
  cases data with
  | none => exact tracked_pure ho
  | some n =>
    refine tracked_bind (tracked_visit hrec hlate hregistry hctx n) fun t t' ht => ?_
    have hitems := ho.toItems?
    have hmore := ht.1.toItems?
    generalize o.toItems? = is, o'.toItems? = is', t.toItems? = js, t'.toItems? = js'
      at hitems hmore ⊢
    cases hitems with
    | none => exact tracked_pure rfl
    | some hitems =>
      cases hmore with
      | none => exact tracked_pure rfl
      | some hmore => exact tracked_pure (Outcome.alike_ofItems (hitems.append hmore))

/-! ### Bindings and functions -/

theorem tracked_binding (call : Call) :
    Tracked (Context.Restates (known env)) (bind env rec call c) (bind env rec call d) := by
  have hleft : ∀ notes notes', Tracked (Context.Restates (known env))
      (Walk.leave notes >>= fun _ => pure c) (Walk.leave notes' >>= fun _ => pure d) :=
    fun _ _ => tracked_noted _ _ (tracked_pure hctx)
  unfold bind
  split
  next name value _ =>
    refine tracked_bind (tracked_required hrec hlate hregistry hctx name) fun r r' hr => ?_
    cases hr with
    | ok htu =>
      refine tracked_bind (tracked_visit hrec hlate hregistry hctx value) fun o o' ho => ?_
      have hnode := ho.toNode? value.origin value.origin
      generalize o.toNode? value.origin = x, o'.toNode? value.origin = y at hnode ⊢
      cases hnode with
      | none => exact hleft _ _
      | some hnode => exact tracked_noted _ _ (tracked_pure (hctx.bind htu hnode))
    | @error o o' ho =>
      cases o with
      | pending =>
        rw [Outcome.alike_pending_iff.mp ho]
        exact tracked_noted _ _ (hleft _ _)
      | empty =>
        rw [Outcome.alike_empty_iff.mp ho]
        exact tracked_pure hctx
      | value v =>
        obtain ⟨v', rfl, -⟩ := Outcome.alike_value_iff.mp ho
        exact tracked_pure hctx
      | splice is =>
        obtain ⟨js, rfl, -⟩ := Outcome.alike_splice_iff.mp ho
        exact tracked_pure hctx
  next => exact hleft _ _

theorem tracked_callFunction {f : Function} (hf : f.Restating) (call : Call) :
    Tracked Alike (callFunction env rec f call c) (callFunction env rec f call d) := by
  have hreduce := fun {c' d' : Call} (h : c'.Restates (known env) d') =>
    hf _ (restating_evaluator hrec hlate hregistry) h hctx
  unfold callFunction
  simp only [hlate, if_true, Bool.not_true, Bool.and_false, Bool.false_eq_true, if_false]
  refine tracked_ite (hreduce ⟨rfl, Node.restates_all _, rfl, rfl⟩) ?_
  refine tracked_bind (tracked_reduceCallParams (tracked_visits hrec hlate hregistry hctx
    call.params) call.function call.origin call.origin) fun r r' hr => ?_
  cases hr with
  | none => exact tracked_pure rfl
  | some hr =>
    obtain ⟨ps, qs, hps, rfl, rfl⟩ := hr
    exact tracked_bind (hreduce ⟨rfl, hps, rfl, rfl⟩) fun _ _ ho => tracked_pure ho

theorem tracked_callNamed (call : Call) (data : Option Node) :
    Tracked Alike (callNamed env rec call data c) (callNamed env rec call data d) := by
  unfold callNamed
  cases hget : Registry.get? env.registry call.function with
  | none => exact tracked_noted _ _ (tracked_keptCall hrec hlate hregistry hctx call data)
  | some function =>
    obtain ⟨e, he, rfl⟩ := Registry.mem_of_get? hget
    refine tracked_bind (tracked_callFunction hrec hlate hregistry hctx
      (Library.restating_builtin e (hregistry ▸ he)) call) fun o o' ho => ?_
    have htrailing := tracked_withTrailing hrec hlate hregistry hctx ho data
    cases data with
    | none => exact htrailing
    | some _ => exact tracked_noted _ _ htrailing

/-! ### Conditions -/

theorem tracked_condition (call : Call) (data : Option Node) :
    Tracked Alike (conditional env rec call data c) (conditional env rec call data d) := by
  unfold conditional
  split
  next condition _ =>
    refine tracked_bind (tracked_required hrec hlate hregistry hctx condition) fun r r' hr => ?_
    cases hr with
    | @ok t u htu =>
      have htrue : t.isTrue = u.isTrue := by
        simp only [TokenOf.isTrue, htu.value, htu.isContent]
      dsimp only
      rw [htrue]
      refine tracked_ite ?_ (tracked_pure rfl)
      cases data with
      | some n => exact (tracked_visit hrec hlate hregistry hctx n).imp fun _ _ h => h.1
      | none => exact tracked_noted _ _ (tracked_pure rfl)
    | @error o o' ho =>
      cases o with
      | pending =>
        rw [Outcome.alike_pending_iff.mp ho]
        simp only [hlate, if_true]
        exact tracked_pure rfl
      | empty =>
        rw [Outcome.alike_empty_iff.mp ho]
        exact tracked_pure rfl
      | value v =>
        obtain ⟨v', rfl, -⟩ := Outcome.alike_value_iff.mp ho
        exact tracked_pure ho
      | splice is =>
        obtain ⟨js, rfl, -⟩ := Outcome.alike_splice_iff.mp ho
        exact tracked_pure ho
  next => exact tracked_noted _ _ (tracked_pure rfl)

/-! ### Sequences -/

/-- What an element gives, and the context after it. -/
def ElementRestates (env : Surroundings) (x y : Option (List Node) × Context) : Prop :=
  Option.Rel Alike x.1 y.1 ∧ x.2.Restates (known env) y.2

theorem tracked_plainElement (n : Node) :
    Tracked (ElementRestates env) (plainElement env rec c n) (plainElement env rec d n) := by
  rw [plainElement_late hlate, plainElement_late hlate]
  exact tracked_map (tracked_visit hrec hlate hregistry hctx n) fun _ _ ho =>
    ⟨ho.1.toItems?, hctx⟩

theorem tracked_element (n : Node) :
    Tracked (ElementRestates env) (element env rec c n) (element env rec d n) := by
  induction n generalizing c d with
  | token t => exact tracked_plainElement hrec hlate hregistry hctx _
  | block es o => exact tracked_plainElement hrec hlate hregistry hctx _
  | array is o => exact tracked_plainElement hrec hlate hregistry hctx _
  | call f ps o =>
    rw [element, element]
    exact tracked_ite (tracked_map (tracked_binding hrec hlate hregistry hctx ⟨f, ps, o⟩)
      fun _ _ h => ⟨.some (.refl []), h⟩) (tracked_plainElement hrec hlate hregistry hctx _)
  | statement f ps o data _ ihdata =>
    have hnext : Tracked (ElementRestates env)
        (elementAnd env rec c (.call f ps o) (element env rec c data))
        (elementAnd env rec d (.call f ps o) (element env rec d data)) := by
      unfold elementAnd
      refine tracked_bind (hrec.same hlate hregistry _ hctx) fun o o' ho => ?_
      rw [orKept_late hlate, orKept_late hlate, pure_bind, pure_bind]
      have hitems := ho.1.toItems?
      generalize o.toItems? = x, o'.toItems? = y at hitems ⊢
      cases hitems with
      | none => exact tracked_pure ⟨.none, hctx⟩
      | some hitems =>
        refine tracked_map (ihdata hctx) fun a b hab => ⟨?_, hab.2⟩
        obtain ⟨more, c'⟩ := a
        obtain ⟨more', d'⟩ := b
        have hmore : Option.Rel Alike more more' := hab.1
        cases hmore with
        | none => exact .none
        | some hmore => exact .some (hitems.append hmore)
    rw [element_statement, element_statement]
    refine tracked_ite (tracked_bind (tracked_binding hrec hlate hregistry hctx ⟨f, ps, o⟩)
      fun _ _ h => ihdata h) ?_
    exact tracked_ite (tracked_ite (tracked_noted _ _ hnext) hnext)
      (tracked_plainElement hrec hlate hregistry hctx _)

theorem tracked_elements (ns : List Node) :
    Tracked (Option.Rel Alike) (elements env rec c ns) (elements env rec d ns) := by
  induction ns generalizing c d with
  | nil => exact tracked_pure (.some (.refl []))
  | cons n ns ih =>
    refine tracked_bind (tracked_element hrec hlate hregistry hctx n) fun x y hxy => ?_
    obtain ⟨items, c'⟩ := x
    obtain ⟨items', d'⟩ := y
    have hitems : Option.Rel Alike items items' := hxy.1
    cases hitems with
    | none => exact tracked_pure .none
    | some hitems =>
      refine tracked_map (ih hxy.2) fun more more' hmore => ?_
      cases hmore with
      | none => exact .none
      | some hmore => exact .some (hitems.append hmore)

theorem tracked_entries (es : List (Token × Node)) :
    Tracked (Option.Rel Alike) (entries env rec c es) (entries env rec d es) := by
  rw [entries_eq_inTurn hlate, entries_eq_inTurn hlate]
  exact tracked_inTurn Alike.append (.refl []) (List.forall₂_same.mpr fun e _ =>
    tracked_map (tracked_visit hrec hlate hregistry hctx e.2) fun _ _ ho =>
      ho.1.toEntries? (.refl _) _ _)

/-! ### Includes -/

omit hrec hlate hregistry hctx in
theorem tracked_notIncluded (call : Call) (problem : Problem) :
    Tracked Alike (notIncluded call problem) (notIncluded call problem) :=
  tracked_refl Alike.refl _

/-- The bindings that a file is included with have nothing left to reduce. -/
theorem tracked_overrides (call : Call) (params : List Node) :
    Tracked (Paired fun es fs : List (Token × Node) =>
        Alike es fs ∧ ∀ e ∈ es, e.2.Inert (known env))
      (overrides env rec call c params) (overrides env rec call d params) := by
  let R (es fs : List (Token × Node)) : Prop := Alike es fs ∧ ∀ e ∈ es, e.2.Inert (known env)
  cases params with
  | nil => exact tracked_pure (.ok ⟨.refl [], by simp⟩)
  | cons param others =>
    have hwrong : ∀ found found', Tracked (Paired R)
        (do return .error (← overrides.wrong call param found))
        (do return .error (← overrides.wrong call param found')) := fun _ _ =>
      tracked_map (R := Alike) (tracked_noted _ _ (tracked_pure rfl)) fun _ _ h => .error h
    have hnull : ∀ {m n : Node}, Alike m n → Tracked (Paired R)
        (if m.isNull then pure (.ok []) else do
          return .error (← overrides.wrong call param m.kind))
        (if n.isNull then pure (.ok []) else do
          return .error (← overrides.wrong call param n.kind)) := by
      intro m n h
      have hisNull : m.isNull = n.isNull := by
        rw [← Node.isNull_bare, h, Node.isNull_bare]
      rw [hisNull]
      exact tracked_ite (tracked_pure (.ok ⟨.refl [], by simp⟩)) (hwrong _ _)
    refine tracked_bind (tracked_visit hrec hlate hregistry hctx param) fun o o' ho => ?_
    cases o with
    | pending =>
      rw [Outcome.alike_pending_iff.mp ho.1]
      simp only [hlate, if_true]
      exact tracked_pure (.error rfl)
    | empty =>
      rw [Outcome.alike_empty_iff.mp ho.1]
      exact hwrong .nothing .nothing
    | splice is =>
      obtain ⟨js, rfl, -⟩ := ho.splice
      exact hwrong .array .array
    | value m =>
      obtain ⟨n, rfl, -, hmn⟩ := ho.value
      cases m with
      | block es o =>
        obtain ⟨fs, o', rfl, hes⟩ := hmn.block
        exact tracked_pure (.ok ⟨hes, Node.inert_block.mp ho.2⟩)
      | _ =>
        cases n with
        | block fs o' => simp [Alike] at hmn
        | _ => exact hnull hmn

theorem tracked_includeText (call : Call) (file text : String) :
    Tracked Alike (includeText env rec call file text c)
      (includeText env rec call file text d) := by
  have hwithin : (env.within file).late = true := hlate
  refine tracked_noted _ _ (tracked_noted _ _ (tracked_bind
    (tracked_elements hrec hwithin hregistry hctx _) fun r r' hr => ?_))
  cases hr with
  | none => exact tracked_pure rfl
  | some hr => exact tracked_pure (alike_spliced hr)

/-- **What a file comes to depends on the bindings it is included with only up to restating.** -/
theorem tracked_includeFile (call : Call) (file : String) :
    Tracked Alike (includeFile env rec call file c) (includeFile env rec call file d) := by
  refine tracked_ite (tracked_notIncluded _ _) (tracked_ite (tracked_notIncluded _ _)
    (tracked_bind (tracked_refl (R := (· = ·)) (fun _ => rfl) _) fun text text' htext => ?_))
  subst htext
  cases text with
  | none => exact tracked_notIncluded _ _
  | some text => exact tracked_includeText hrec hlate hregistry hctx call file text

theorem tracked_includeCall (call : Call) :
    Tracked Alike (includeCall env rec call c) (includeCall env rec call d) := by
  unfold includeCall
  split
  next => exact tracked_notIncluded _ _
  next path others _ =>
    refine tracked_ite (tracked_notIncluded _ _)
      (tracked_bind (tracked_required hrec hlate hregistry hctx path) fun r r' hr => ?_)
    cases hr with
    | @ok t u htu =>
      refine tracked_bind (tracked_overrides hrec hlate hregistry hctx call others)
        fun x y hxy => ?_
      cases hxy with
      | error ho => exact tracked_pure ho
      | ok hes =>
        dsimp only
        rw [htu.value]
        exact tracked_includeFile hrec hlate hregistry (hctx.overlay hes.2 hes.1) call _
    | @error o o' ho =>
      cases o with
      | pending =>
        rw [Outcome.alike_pending_iff.mp ho]
        simp only [hlate, if_true]
        exact tracked_pure rfl
      | empty =>
        rw [Outcome.alike_empty_iff.mp ho]
        exact tracked_pure rfl
      | value v =>
        obtain ⟨v', rfl, -⟩ := Outcome.alike_value_iff.mp ho
        exact tracked_pure ho
      | splice is =>
        obtain ⟨js, rfl, -⟩ := Outcome.alike_splice_iff.mp ho
        exact tracked_pure ho

/-! ### One node -/

theorem tracked_call (call : Call) (data : Option Node) :
    Tracked Alike (Reduce.call env rec call data c) (Reduce.call env rec call data d) := by
  unfold Reduce.call
  refine tracked_ite (tracked_bind (tracked_includeCall hrec hlate hregistry hctx call)
    fun _ _ ho => tracked_withTrailing hrec hlate hregistry hctx ho data) ?_
  refine tracked_ite (tracked_condition hrec hlate hregistry hctx call data) (tracked_ite ?_
    (tracked_callNamed hrec hlate hregistry hctx call data))
  refine tracked_bind (tracked_binding hrec hlate hregistry hctx call) fun c' d' hctx => ?_
  cases data with
  | none => exact tracked_pure rfl
  | some n => exact (tracked_visit hrec hlate hregistry hctx n).imp fun _ _ h => h.1

theorem tracked_step (n : Node) : Tracked Alike (step rec env n c) (step rec env n d) := by
  cases n with
  | token t => exact tracked_pure rfl
  | array is o =>
    refine tracked_bind (tracked_elements hrec hlate hregistry hctx is) fun r r' hr => ?_
    cases hr with
    | none => exact tracked_pure rfl
    | some hr => exact tracked_pure (by simpa [Alike] using hr)
  | block es o =>
    refine tracked_bind (tracked_entries hrec hlate hregistry hctx es) fun r r' hr => ?_
    cases hr with
    | none => exact tracked_pure rfl
    | some hr => exact tracked_pure (by simpa [Alike] using hr)
  | call f ps o => exact tracked_call hrec hlate hregistry hctx ⟨f, ps, o⟩ none
  | statement f ps o data => exact tracked_call hrec hlate hregistry hctx ⟨f, ps, o⟩ (some data)

end

/-! ### Any depth -/

/-- **Reduction comes to what is restated**, however deep it may be nested. -/
theorem restating_inContext (limit : Nat) : RestatingReducer (inContext limit) := by
  induction limit with
  | zero => exact ⟨fun _ _ _ _ _ _ _ => .inl rfl, fun _ _ _ _ _ _ _ _ => .inl rfl⟩
  | succ limit ih =>
    refine ⟨fun {env} hlate hregistry n c d hctx => ?_, fun {env} hlate m n hm hmn c d => ?_⟩
    · refine (tracked_step ih hlate hregistry hctx n).and fun s o ho => ?_
      have hfaithful : env.Faithful := ⟨hlate, hregistry ▸ Function.faithful_builtin⟩
      exact (propagates_inContext (limit + 1) env hfaithful n c s o ho).1
    · refine (tracked_inertStep hlate (ih.inert hlate) hm hmn c d).and fun s o ho => ?_
      rcases idle_inert hlate (limit + 1) c hm s with hdeep | ⟨_, ha, ⟨m', rfl, hm'⟩, -⟩
      · exact absurd (ho.symm.trans hdeep) (by simp)
      · obtain rfl := Except.ok.inj (ho.symm.trans ha)
        exact hm'.inert hm

end Reduce

end ContentLang
