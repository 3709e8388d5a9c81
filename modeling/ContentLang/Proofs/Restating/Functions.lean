import ContentLang.Proofs.Restating.Nodes

/-!
# Functions of what is restated

The functions of the language come to outcomes that are alike if their parameters and the bindings
are restated (`ContentLang.Library.restating_builtin`). They draw the same on the way and remember
the same, as their calls have the same identities; and one may be given up as too deep.

Of a function this is said for an evaluator that comes to what is restated itself
(`ContentLang.Evaluator.Restating`), so that it is one case of an induction on the depth. There is
one lemma for each way in which functions read their parameters, and one for each function.

Only the function that reads a binding looks one up. What it finds is marked on either side
(`ContentLang.Node.Restates.markUid`) before it is reduced.
-/

namespace ContentLang

open Walk

/-- **Whether an evaluator comes to what is restated**, given nodes and contexts that are. -/
def Evaluator.Restating (ev : Evaluator) : Prop :=
  ∀ {m n : Node} {c d : Context}, m.Restates ev.isKnown n → c.Restates ev.isKnown d →
    Tracked (Outcome.Restates ev.isKnown) (ev.reduce m c) (ev.reduce n d)

namespace Evaluator

variable {ev : Evaluator} {c d : Call} {m n : Node}

/-! ### Faults -/

theorem tracked_expectedValue (m n : Node) (found found' : Kind) :
    Tracked (Paired (Alike (α := Token))) (expectedValue m found) (expectedValue n found') :=
  tracked_noted _ _ (tracked_pure (.error rfl))

theorem tracked_wrongArity (c d : Call) (expected : Arity) :
    Tracked Alike (wrongArity c expected) (wrongArity d expected) :=
  tracked_noted _ _ (tracked_pure rfl)

theorem tracked_invalidArgument (c d : Call) (m n : Node) (fault fault' : Fault) :
    Tracked Alike (invalidArgument c m fault) (invalidArgument d n fault') :=
  tracked_noted _ _ (tracked_pure rfl)

theorem tracked_invalid {α β : Type} {R : α → β → Prop} (c d : Call) (m n : Node)
    (fault fault' : Fault) :
    Tracked (Paired R) (do return .error (← invalidArgument c m fault))
      (do return .error (← invalidArgument d n fault')) :=
  tracked_map (tracked_invalidArgument c d m n fault fault') fun _ _ h => .error h

theorem isDeferred_alike (h : Alike m n) : ev.isDeferred m = ev.isDeferred n := by
  rw [isDeferred_of_alike (.refl m), isDeferred_of_alike h]

/-- What is done with a node that is no collection. -/
theorem tracked_noCollection {α β : Type} {R : α → β → Prop} (c d : Call) {p q : Node}
    (h : Alike m n) (fault fault' : Fault) :
    Tracked (Paired R)
      (if ev.isDeferred m then pure (.error .pending) else do
        return .error (← invalidArgument c p fault))
      (if ev.isDeferred n then pure (.error .pending) else do
        return .error (← invalidArgument d q fault')) := by
  rw [isDeferred_alike h]
  exact tracked_ite (tracked_pure (.error rfl)) (tracked_invalid c d p q fault fault')

theorem tracked_withFirst (hparams : List.Forall₂ (Node.Restates ev.isKnown) c.params d.params)
    (expected : Arity) {f₁ f₂ : Node → List Node → Walk Outcome}
    (h : ∀ {m n ms ns}, m.Restates ev.isKnown n → List.Forall₂ (Node.Restates ev.isKnown) ms ns →
      Tracked Alike (f₁ m ms) (f₂ n ns)) :
    Tracked Alike (withFirst c expected f₁) (withFirst d expected f₂) := by
  have hwrong := tracked_wrongArity c d expected
  unfold withFirst
  rw [hparams.length_eq]
  generalize c.params = ps, d.params = qs at hparams
  cases hparams with
  | nil => exact hwrong
  | cons hm hms => exact tracked_ite (h hm hms) hwrong

/-! ### Parameters -/

section

variable (hev : ev.Restating) {ctx ctx' : Context} (hctx : ctx.Restates ev.isKnown ctx')
include hev hctx

theorem tracked_requireToken (h : m.Restates ev.isKnown n) :
    Tracked (Paired Alike) (ev.requireToken m ctx) (ev.requireToken n ctx') := by
  have hleft : ∀ f : String, Tracked (Paired (Alike (α := Token)))
      (if ev.isKnown f then pure (.error .pending) else do
        Walk.report m.origin (.unknownFunction f (closestName f ev.knownNames))
        return .error (.error m.origin))
      (if ev.isKnown f then pure (.error .pending) else do
        Walk.report n.origin (.unknownFunction f (closestName f ev.knownNames))
        return .error (.error n.origin)) := fun f =>
    tracked_ite (tracked_pure (.error rfl)) (tracked_noted _ _ (tracked_pure (.error rfl)))
  refine tracked_bind (hev h hctx) fun o o' ho => ?_
  cases o with
  | pending =>
    rw [Outcome.alike_pending_iff.mp ho.1]
    exact tracked_pure (.error rfl)
  | empty =>
    rw [Outcome.alike_empty_iff.mp ho.1]
    exact tracked_expectedValue m n _ _
  | splice is =>
    obtain ⟨js, rfl, -⟩ := ho.splice
    exact tracked_expectedValue m n _ _
  | value found =>
    obtain ⟨found', rfl, -, hfound⟩ := ho.value
    cases found with
    | token t =>
      obtain ⟨t', rfl, ht⟩ := hfound.token
      exact tracked_pure (.ok ht)
    | call f ps o =>
      obtain ⟨ps', o', rfl, -⟩ := hfound.call
      exact hleft f
    | statement f ps o data =>
      obtain ⟨ps', o', data', rfl, -⟩ := hfound.statement
      exact hleft f
    | block es o =>
      obtain ⟨es', o', rfl, -⟩ := hfound.block
      exact tracked_expectedValue m n _ _
    | array is o =>
      obtain ⟨is', o', rfl, -⟩ := hfound.array
      exact tracked_expectedValue m n _ _

theorem tracked_requireTokens {ms ns : List Node}
    (h : List.Forall₂ (Node.Restates ev.isKnown) ms ns) :
    Tracked (Paired Alike) (ev.requireTokens ctx ms) (ev.requireTokens ctx' ns) := by
  induction h with
  | nil => exact tracked_pure (.ok (.refl []))
  | cons hm _ ih =>
    exact tracked_also (tracked_requireToken hev hctx hm) fun t u htu =>
      tracked_also ih fun ts us htus =>
        tracked_pure (.ok (alike_cons_iff.mpr ⟨u, us, rfl, htu, htus⟩))

theorem tracked_token? (h : m.Restates ev.isKnown n) :
    Tracked (Option.Rel Alike) (ev.token? m ctx) (ev.token? n ctx') := by
  refine tracked_bind (hev h hctx) fun o o' ho => ?_
  cases o with
  | pending =>
    rw [Outcome.alike_pending_iff.mp ho.1]
    exact tracked_pure .none
  | empty =>
    rw [Outcome.alike_empty_iff.mp ho.1]
    exact tracked_pure .none
  | splice is =>
    obtain ⟨js, rfl, -⟩ := ho.splice
    exact tracked_pure .none
  | value found =>
    obtain ⟨found', rfl, -, hfound⟩ := ho.value
    cases found with
    | token t =>
      obtain ⟨t', rfl, ht⟩ := hfound.token
      exact tracked_pure (.some ht)
    | call f ps o =>
      obtain ⟨ps', o', rfl, -⟩ := hfound.call
      exact tracked_pure .none
    | statement f ps o data =>
      obtain ⟨ps', o', data', rfl, -⟩ := hfound.statement
      exact tracked_pure .none
    | block es o =>
      obtain ⟨es', o', rfl, -⟩ := hfound.block
      exact tracked_pure .none
    | array is o =>
      obtain ⟨is', o', rfl, -⟩ := hfound.array
      exact tracked_pure .none

theorem tracked_members (c d : Call) (h : m.Restates ev.isKnown n) :
    Tracked (Paired (List.Forall₂ (Node.Restates ev.isKnown))) (ev.members c m ctx)
      (ev.members d n ctx') := by
  have hreduced := hev h hctx
  have halike := h.alike
  cases m with
  | array is o =>
    obtain ⟨js, o', rfl, his⟩ := h.array
    exact tracked_pure (.ok his)
  | _ =>
    cases n with
    | array js o' => simp [Alike] at halike
    | _ =>
      refine tracked_bind hreduced fun o o' ho => ?_
      cases o with
      | pending =>
        rw [Outcome.alike_pending_iff.mp ho.1]
        exact tracked_pure (.error rfl)
      | empty =>
        rw [Outcome.alike_empty_iff.mp ho.1]
        exact tracked_invalid _ _ _ _ _ _
      | splice is =>
        obtain ⟨js, rfl, his, -⟩ := ho.splice
        exact tracked_pure (.ok his)
      | value found =>
        obtain ⟨found', rfl, hrestates, hfound⟩ := ho.value
        cases found with
        | array is o =>
          obtain ⟨js, o', rfl, his⟩ := hrestates.array
          exact tracked_pure (.ok his)
        | _ =>
          cases found' with
          | array js o' => simp [Alike] at hfound
          | _ => exact tracked_noCollection _ _ hfound _ _

end

end Evaluator

/-- **Whether a function comes to the same, given calls and contexts that are restated**, if its
evaluator does. -/
def Function.Restating (f : Function) : Prop :=
  ∀ ev : Evaluator, ev.Restating → ∀ {c d : Call} {ctx ctx' : Context}, c.Restates ev.isKnown d →
    ctx.Restates ev.isKnown ctx' → Tracked Alike (f.reduce ev c ctx) (f.reduce ev d ctx')

namespace Library

open Evaluator

section

variable {ev : Evaluator} (hev : ev.Restating) {ctx ctx' : Context}
  (hctx : ctx.Restates ev.isKnown ctx')

/-! ### Assets and texts -/

theorem restating_assetWith (f : Evaluator → String → Walk String) :
    (assetWith f).Restating := by
  intro ev hev c d ctx ctx' hcall hctx
  refine tracked_withFirst hcall.params _ fun hpath _ =>
    tracked_given (tracked_requireToken hev hctx hpath) fun t u htu => ?_
  rw [hcall.file, htu.value]
  refine tracked_bind (tracked_refl (R := (· = ·)) (fun _ => rfl) _) fun a b hab => ?_
  rw [hab]
  exact tracked_pure rfl

theorem restating_concatenate : concatenate.Restating := by
  intro ev hev c d ctx ctx' hcall hctx
  refine tracked_given (tracked_requireTokens hev hctx hcall.params) fun ts us htus => ?_
  rw [values_eq htus]
  exact tracked_pure rfl

theorem tracked_collectAll {f₁ f₂ : Node → Walk (Except Outcome (List String))} {ms ns : List Node}
    (h : List.Forall₂ (fun m n => Tracked (Paired (· = ·)) (f₁ m) (f₂ n)) ms ns) :
    Tracked (Paired (· = ·)) (collectAll f₁ ms) (collectAll f₂ ns) := by
  induction h with
  | nil => exact tracked_pure (.ok rfl)
  | cons hm _ ih =>
    refine tracked_also hm fun xs xs' hxs => tracked_also ih fun ys ys' hys => ?_
    rw [hxs, hys]
    exact tracked_pure (.ok rfl)

include hev hctx

theorem tracked_collect (fuel : Nat) {m n : Node} (h : m.Restates ev.isKnown n) :
    Tracked (Paired (· = ·)) (collect ev ctx fuel m) (collect ev ctx' fuel n) := by
  induction fuel generalizing m n with
  | zero => exact fun _ => .inl rfl
  | succ fuel ih =>
    have hreduced := hev h hctx
    have halike := h.alike
    have hall : ∀ {is js : List Node}, List.Forall₂ (Node.Restates ev.isKnown) is js →
        Tracked (Paired (· = ·)) (collectAll (collect ev ctx fuel) is)
          (collectAll (collect ev ctx' fuel) js) := fun h =>
      tracked_collectAll (h.imp fun _ _ h => ih h)
    have htoken : Tracked (Paired (· = ·))
        ((ev.requireToken m ctx).also fun t => return .ok [t.value])
        ((ev.requireToken n ctx').also fun t => return .ok [t.value]) :=
      tracked_also (tracked_requireToken hev hctx h) fun t u htu =>
        tracked_pure (.ok (congrArg (fun s => [s]) htu.value))
    cases m with
    | array is o =>
      obtain ⟨js, o', rfl, his⟩ := h.array
      exact hall his
    | _ =>
      cases n with
      | array js o' => simp [Alike] at halike
      | _ =>
        refine tracked_bind hreduced fun o o' ho => ?_
        cases o with
        | pending =>
          rw [Outcome.alike_pending_iff.mp ho.1]
          exact tracked_pure (.error rfl)
        | empty =>
          rw [Outcome.alike_empty_iff.mp ho.1]
          exact tracked_pure (.ok rfl)
        | splice is =>
          obtain ⟨js, rfl, his, -⟩ := ho.splice
          exact hall his
        | value found =>
          obtain ⟨found', rfl, hrestates, hfound⟩ := ho.value
          cases found with
          | array is o =>
            obtain ⟨js, o', rfl, his⟩ := hrestates.array
            exact hall his
          | token t =>
            obtain ⟨t', rfl, ht⟩ := hfound.token
            refine tracked_pure (.ok ?_)
            rw [ht.isNull, ht.value]
          | _ =>
            cases found' with
            | array js o' => simp [Alike] at hfound
            | token t => simp [Alike] at hfound
            | _ => exact htoken

omit hev hctx in
theorem restating_join : join.Restating := by
  intro ev hev c d ctx ctx' hcall hctx
  refine tracked_withFirst hcall.params _ fun hseparator hitems =>
    tracked_given (tracked_requireToken hev hctx hseparator) fun t u htu =>
      tracked_given (tracked_collectAll (hitems.imp fun _ _ h => tracked_collect hev hctx _ h))
        fun xs ys hxs => ?_
  rw [htu.value, hxs]
  exact tracked_pure rfl

/-! ### Collections and records -/

omit hev hctx in
/-- What has been combined does not depend on where it stands. -/
theorem tracked_combineNode (c d : Call) (p q : Node) {acc acc' : Combined}
    (hacc : Alike acc acc') {m n : Node} (hmn : Alike m n) (hnull : m.isNull = false) :
    Tracked (Paired Alike) (combineNode ev c p acc m) (combineNode ev d q acc' n) :=
  tracked_of_reads (reads_combineNode c p (.refl acc) (.refl m) hnull)
    (reads_combineNode d q hacc hmn hnull)

theorem tracked_combineAll (c d : Call) {acc acc' : Combined} (hacc : Alike acc acc')
    {ms ns : List Node} (h : List.Forall₂ (Node.Restates ev.isKnown) ms ns) :
    Tracked (Paired Alike) (combineAll ev c ctx acc ms) (combineAll ev d ctx' acc' ns) := by
  induction h generalizing acc acc' with
  | nil => exact tracked_pure (.ok hacc)
  | cons hm _ ih =>
    refine tracked_bind (hev hm hctx) fun o o' ho => ?_
    cases o with
    | pending =>
      rw [Outcome.alike_pending_iff.mp ho.1]
      exact tracked_pure (.error rfl)
    | empty =>
      rw [Outcome.alike_empty_iff.mp ho.1]
      exact ih hacc
    | splice is =>
      obtain ⟨js, rfl, -, his⟩ := ho.splice
      exact tracked_also (tracked_combineNode c d _ _ hacc (by simpa [Alike] using his) rfl)
        fun _ _ h => ih h
    | value found =>
      obtain ⟨found', rfl, -, hfound⟩ := ho.value
      have hnull : found.isNull = found'.isNull := by
        rw [← Node.isNull_bare, hfound, Node.isNull_bare]
      dsimp only
      rw [← hnull]
      split
      · exact ih hacc
      next hproper =>
        exact tracked_also (tracked_combineNode c d _ _ hacc hfound (by simpa using hproper))
          fun _ _ h => ih h

omit hev hctx in
theorem restating_combine : combine.Restating := by
  intro ev hev c d ctx ctx' hcall hctx
  refine tracked_given (tracked_combineAll hev hctx c d (.refl Combined.nothing) hcall.params)
    fun acc acc' hacc => ?_
  cases acc <;> cases acc' <;> simp [Alike] at hacc
  · exact tracked_pure rfl
  · exact tracked_pure (by simpa [Alike] using hacc)
  · exact tracked_pure (by simpa [Alike] using hacc)

theorem tracked_withoutElements {removed removed' : List Token} (hremoved : Alike removed removed')
    {ms ns : List Node} (h : List.Forall₂ (Node.Restates ev.isKnown) ms ns) :
    Tracked Alike (withoutElements ev ctx removed ms) (withoutElements ev ctx' removed' ns) := by
  induction h with
  | nil => exact tracked_pure (.refl [])
  | @cons m n ms ns hm _ ih =>
    refine tracked_bind (tracked_token? hev hctx hm) fun t t' ht =>
      tracked_bind ih fun rest rest' hrest => ?_
    have hkept : Alike (m :: rest) (n :: rest') :=
      alike_cons_iff.mpr ⟨n, rest', rfl, hm.alike, hrest⟩
    cases ht with
    | none => exact tracked_pure hkept
    | @some t u htu =>
      have hcontains : removed.contains t = removed'.contains u := by
        rw [← contains_bare, hremoved, htu, contains_bare]
      refine tracked_pure ?_
      rw [hcontains]
      split
      · exact hrest
      · exact hkept

omit hev hctx in
theorem restating_remove : remove.Restating := by
  intro ev hev c d ctx ctx' hcall hctx
  refine tracked_withFirst hcall.params _ fun {p q _ _} hcollection htokens =>
    tracked_given (tracked_requireTokens hev hctx htokens) fun ts us htus =>
      tracked_bind (hev hcollection hctx) fun o o' ho => ?_
  have hinvalid := fun fault fault' => tracked_invalidArgument c d p q fault fault'
  have hother : ∀ {m n : Node}, Alike m n → Tracked Alike
      (if ev.isDeferred m then pure .pending
        else invalidArgument c p (.notACollection m.kind))
      (if ev.isDeferred n then pure .pending
        else invalidArgument d q (.notACollection n.kind)) := by
    intro m n h
    rw [isDeferred_alike h]
    exact tracked_ite (tracked_pure rfl) (hinvalid _ _)
  cases o with
  | pending =>
    rw [Outcome.alike_pending_iff.mp ho.1]
    exact tracked_pure rfl
  | empty =>
    rw [Outcome.alike_empty_iff.mp ho.1]
    exact hinvalid _ _
  | splice is =>
    obtain ⟨js, rfl, -⟩ := ho.splice
    exact hinvalid _ _
  | value found =>
    obtain ⟨found', rfl, hrestates, hfound⟩ := ho.value
    cases found with
    | array is o =>
      obtain ⟨js, o', rfl, his⟩ := hrestates.array
      exact tracked_map (tracked_withoutElements hev hctx htus his) fun _ _ h => by
        simpa [Alike] using h
    | block es o =>
      obtain ⟨es', o', rfl, hes⟩ := hfound.block
      refine tracked_pure ?_
      simp [Alike, bare_withoutKeys, show bare es = bare es' from hes,
        show bare ts = bare us from htus]
    | _ =>
      cases found' with
      | array js o' => simp [Alike] at hfound
      | block es o' => simp [Alike] at hfound
      | _ => exact hother hfound

theorem tracked_recordEntries (c d : Call) (component : Component)
    (fields : List (String × Option String)) {ms ns : List Node}
    (h : List.Forall₂ (Node.Restates ev.isKnown) ms ns) :
    Tracked (Paired Alike) (recordEntries ev c ctx component fields ms)
      (recordEntries ev d ctx' component fields ns) := by
  induction fields generalizing ms ns with
  | nil => exact tracked_pure (.ok (.refl []))
  | cons field fields ih =>
    obtain ⟨key, fallback⟩ := field
    have hmore : ∀ {es fs : Entries Token Node} {t u : Token}, Alike t u → Alike es fs →
        Alike ((.content key c.origin, Node.token t) :: es)
          ((.content key d.origin, Node.token u) :: fs) := fun ht hes =>
      alike_cons_iff.mpr ⟨_, _, rfl, congrArg (Prod.mk _ <| Node.token ·) ht, hes⟩
    cases h with
    | nil =>
      cases fallback with
      | none => exact tracked_pure (.error rfl)
      | some fallback =>
        exact tracked_also (ih .nil) fun es fs hes => tracked_pure (.ok (hmore rfl hes))
    | @cons m n _ _ hm hms =>
      refine tracked_also (tracked_requireToken hev hctx hm) fun t u htu => ?_
      rw [htu.value]
      cases component.fault? u.value with
      | some fault => exact tracked_invalid c d m n fault fault
      | none =>
        exact tracked_also (ih hms) fun es fs hes => tracked_pure (.ok (hmore htu hes))

omit hev hctx in
theorem restating_record (k : RecordKind) : (record k).Restating := by
  intro ev hev c d ctx ctx' hcall hctx
  show Tracked Alike (withArity c k.arity _) (withArity d k.arity _)
  unfold withArity
  rw [hcall.params.length_eq]
  refine tracked_ite (tracked_given
    (tracked_recordEntries hev hctx c d k.component k.fields hcall.params) fun es fs hes => ?_)
    (tracked_wrongArity c d k.arity)
  exact tracked_pure (by simpa [Alike] using hes)

/-! ### Bindings -/

omit hev hctx in
theorem restating_readBinding : readBinding.Restating := by
  intro ev hev c d ctx ctx' hcall hctx
  refine tracked_withFirst hcall.params _ fun hname hothers =>
    tracked_given (tracked_requireToken hev hctx hname) fun t u htu => ?_
  have hvalue := hctx u
  rw [← Context.get?_of_alike htu ctx] at hvalue
  generalize ctx.get? t = x, ctx'.get? u = y at hvalue ⊢
  cases hvalue with
  | some hvalue =>
    dsimp only
    rw [hcall.uid]
    exact (hev (hvalue.markUid _) hctx).imp fun _ _ h => h.1
  | none =>
    cases hothers with
    | nil =>
      rw [htu.value]
      exact tracked_noted _ _ (tracked_pure rfl)
    | cons hfallback _ => exact (hev hfallback hctx).imp fun _ _ h => h.1

/-! ### Choices -/

omit hev hctx in
/-- The same tokens spell the same options. -/
theorem ofTokens_alike {ts us : List Token} (h : Alike ts us) (uid : String) :
    ChoiceOptions.ofTokens uid ts = ChoiceOptions.ofTokens uid us := by
  have htake : ∀ options : ChoiceOptions,
      ts.foldl ChoiceOptions.take options = us.foldl ChoiceOptions.take options := by
    induction ts generalizing us with
    | nil =>
      obtain rfl := alike_nil_iff.mp h
      exact fun _ => rfl
    | cons t ts ih =>
      obtain ⟨u, us, rfl, htu, htus⟩ := alike_cons_iff.mp h
      intro options
      rw [List.foldl_cons, List.foldl_cons, ih htus]
      simp only [ChoiceOptions.take, htu.value]
  simp only [ChoiceOptions.ofTokens, htake]

theorem tracked_withMembers {c d : Call} (hcall : c.Restates ev.isKnown d)
    {f₁ f₂ : Node → List Node → ChoiceOptions → Walk Outcome}
    (h : ∀ {m n ms ns} options, m.Restates ev.isKnown n →
      List.Forall₂ (Node.Restates ev.isKnown) ms ns →
        Tracked Alike (f₁ m ms options) (f₂ n ns options)) :
    Tracked Alike (withMembers ev c ctx f₁) (withMembers ev d ctx' f₂) := by
  refine tracked_withFirst hcall.params _ fun hlist hoptions =>
    tracked_given (tracked_members hev hctx c d hlist) fun ms ns hmembers =>
      tracked_given (tracked_requireTokens hev hctx hoptions) fun ts us htus => ?_
  cases hmembers with
  | nil => exact tracked_invalidArgument _ _ _ _ _ _
  | cons hm hms =>
    rw [hcall.uid, ofTokens_alike htus]
    exact h _ hlist (.cons hm hms)

/-- The member at an index is reduced, after whatever was done with it. -/
theorem tracked_picked (c d : Call) {ms ns : List Node}
    (hmembers : List.Forall₂ (Node.Restates ev.isKnown) ms ns) (i : Nat) {f : Node → Node}
    (hf : ∀ {m n}, m.Restates ev.isKnown n → (f m).Restates ev.isKnown (f n)) :
    Tracked Alike
      (match ms[i]? with
        | some member => ev.reduce (f member) ctx
        | none => pure (.error c.origin))
      (match ns[i]? with
        | some member => ev.reduce (f member) ctx'
        | none => pure (.error d.origin)) := by
  have hmember := Simulation.getElem? hmembers i
  generalize ms[i]? = x, ns[i]? = y at hmember ⊢
  cases hmember with
  | none => exact tracked_pure rfl
  | some hmember => exact (hev (hf hmember) hctx).imp fun _ _ h => h.1

omit hev hctx in
theorem restating_choose : choose.Restating := by
  intro ev hev c d ctx ctx' hcall hctx
  refine tracked_withMembers hev hctx hcall fun {_ _ ms ns} options _ hmembers => ?_
  rw [hmembers.length_eq]
  refine tracked_bind (tracked_refl (R := (· = ·)) (fun _ => rfl) _) fun i j hij => ?_
  subst hij
  exact tracked_picked hev hctx c d hmembers i fun h => h

theorem tracked_weights {ms ns : List Node}
    (h : List.Forall₂ (Node.Restates ev.isKnown) ms ns) :
    Tracked (Paired (· = ·)) (weights ev ctx ms) (weights ev ctx' ns) := by
  induction h with
  | nil => exact tracked_pure (.ok rfl)
  | @cons m n ms ns hm _ ih =>
    have hmore : ∀ x : Float, Tracked (Paired (· = ·))
        ((weights ev ctx ms).also fun xs => pure (.ok (x :: xs)))
        ((weights ev ctx' ns).also fun xs => pure (.ok (x :: xs))) := fun x =>
      tracked_also ih fun xs ys hxs => tracked_pure (.ok (congrArg (x :: ·) hxs))
    have hweight : ∀ {t u : Token}, Alike t u →
        Tracked (· = ·) (weightOf t) (weightOf u) := by
      intro t u htu
      unfold weightOf
      rw [htu.value]
      cases weight? u.value with
      | some x => exact tracked_pure rfl
      | none => exact tracked_noted _ _ (tracked_pure rfl)
    have hentry := restates_memberEntry weightKey hm
    unfold weights
    generalize memberEntry weightKey m = x, memberEntry weightKey n = y at hentry ⊢
    cases hentry with
    | none => exact hmore 1.0
    | some hentry =>
      refine tracked_bind (tracked_requireToken hev hctx hentry) fun r r' hr => ?_
      cases hr with
      | ok htu =>
        refine tracked_bind (hweight htu) fun x y hxy => ?_
        subst hxy
        exact hmore x
      | @error o o' ho =>
        cases o with
        | pending =>
          rw [Outcome.alike_pending_iff.mp ho]
          exact tracked_pure (.error rfl)
        | empty =>
          rw [Outcome.alike_empty_iff.mp ho]
          exact hmore 1.0
        | value v =>
          obtain ⟨v', rfl, -⟩ := Outcome.alike_value_iff.mp ho
          exact hmore 1.0
        | splice is =>
          obtain ⟨js, rfl, -⟩ := Outcome.alike_splice_iff.mp ho
          exact hmore 1.0

omit hev hctx in
theorem restating_chooseWeighted : chooseWeighted.Restating := by
  intro ev hev c d ctx ctx' hcall hctx
  refine tracked_withMembers hev hctx hcall fun options hlist hmembers =>
    tracked_given (tracked_weights hev hctx hmembers) fun xs ys hxs => ?_
  subst hxs
  cases xs with
  | nil => exact tracked_invalidArgument _ _ _ _ _ _
  | cons x xs =>
    refine tracked_ite (tracked_invalidArgument _ _ _ _ _ _)
      (tracked_ite (fun _ => .inr ⟨.error _, rfl⟩) ?_)
    refine tracked_bind (tracked_refl (R := (· = ·)) (fun _ => rfl) _) fun i j hij => ?_
    subst hij
    exact tracked_picked hev hctx c d hmembers i fun h => restates_strip _ options.flatten h

/-! ### Filters -/

theorem tracked_admits {m n : Node} (h : m.Restates ev.isKnown n) :
    Tracked (Paired (· = ·)) (admits ev ctx m) (admits ev ctx' n) := by
  have hentry := restates_memberEntry conditionKey h
  unfold admits
  generalize memberEntry conditionKey m = x, memberEntry conditionKey n = y at hentry ⊢
  cases hentry with
  | none => exact tracked_pure (.ok rfl)
  | some hentry =>
    refine tracked_also (tracked_requireToken hev hctx hentry) fun t u htu => ?_
    rw [htu.value]
    refine tracked_bind (tracked_refl (R := (· = ·)) (fun _ => rfl) _) fun answer answer' h => ?_
    subst h
    cases answer with
    | none => exact tracked_pure (.error rfl)
    | some answer => exact tracked_pure (.ok rfl)

theorem tracked_keepMembers (flatten : Bool) {ms ns : List Node}
    (h : List.Forall₂ (Node.Restates ev.isKnown) ms ns) :
    Tracked (Paired fun x y => Alike x.1 y.1 ∧ x.2 = y.2) (keepMembers ev ctx flatten ms)
      (keepMembers ev ctx' flatten ns) := by
  induction h with
  | nil => exact tracked_pure (.ok ⟨.refl [], rfl⟩)
  | cons hm _ ih =>
    refine tracked_also (tracked_admits hev hctx hm) fun answer answer' hanswer => ?_
    subst hanswer
    refine tracked_ite ?_ ?_
    · exact tracked_also ih fun x y hxy =>
        tracked_pure (.ok ⟨hxy.1, congrArg (false :: ·) hxy.2⟩)
    · refine tracked_bind (hev (restates_strip _ flatten hm) hctx) fun o o' ho => ?_
      have hitems := ho.1.toItems?
      generalize o.toItems? = x, o'.toItems? = y at hitems ⊢
      cases hitems with
      | none => exact tracked_pure (.error rfl)
      | some hitems =>
        exact tracked_also ih fun x y hxy => tracked_pure (.ok ⟨hitems.append hxy.1,
          congrArg (answer.toList ++ ·) hxy.2⟩)

omit hev hctx in
theorem restating_filter : filter.Restating := by
  intro ev hev c d ctx ctx' hcall hctx
  refine tracked_withFirst hcall.params _ fun hlist hoptions =>
    tracked_given (tracked_members hev hctx c d hlist) fun ms ns hmembers =>
      tracked_given (tracked_requireTokens hev hctx hoptions) fun ts us htus => ?_
  have hflatten : ts.any (·.value == flattenOption) = us.any (·.value == flattenOption) := by
    have hany : ∀ vs : List Token, vs.any (·.value == flattenOption) =
        (vs.map (·.value)).any (· == flattenOption) := fun vs => by
      rw [List.any_map]
      rfl
    rw [hany, hany, values_eq htus]
  rw [hflatten]
  refine tracked_given (tracked_keepMembers hev hctx _ hmembers) fun x y hxy => ?_
  rw [hcall.function, hcall.uid, hxy.2]
  refine tracked_bind (tracked_refl (R := (· = ·)) (fun _ => rfl) _) fun _ _ _ => ?_
  exact tracked_pure (by simpa [Alike] using hxy.1)

end

/-- **The functions of the language come to the same, given what is restated.** -/
theorem restating_builtin : ∀ e ∈ Registry.builtin, e.2.Restating := by
  simp only [Registry.builtin, List.forall_mem_cons]
  exact ⟨restating_assetWith _, restating_assetWith _, restating_concatenate, restating_join,
    restating_choose, restating_chooseWeighted, restating_filter, restating_combine,
    restating_remove, restating_record _, restating_record _, restating_record _,
    restating_record _, restating_readBinding, by simp⟩

end Library

end ContentLang
