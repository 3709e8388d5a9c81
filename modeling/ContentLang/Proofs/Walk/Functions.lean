import ContentLang.Proofs.Walk.Simulation

/-!
# The functions of the language respect simulations

A function that is given related ways to reduce nodes gives related walks on kin calls
(`ContentLang.Simulation.Respects`). This holds of every function of the language
(`ContentLang.Simulation.respects_builtin`); late functions count in the consumption pass alone.

One function gives up by itself: `ChooseWeighted`, if weights add up to infinity. What it does
then may be replaced by anything else (`ContentLang.Registry.builtinElse`), the same in both
runs or not, as long as the simulation respects it.
-/

namespace ContentLang

/-! ### Infinite weights -/

/-- Picks a member by weight, and goes on otherwise if the weights add up to infinity. -/
def Library.chooseWeightedElse (otherwise : Call → Node → Walk Outcome) : Function :=
  .forgetful true fun ev call ctx =>
    withMembers ev call ctx fun list members options =>
      (weights ev ctx members).given fun xs =>
        match xs with
        | [] => Evaluator.invalidArgument call list .nothingToChoose
        | x :: xs => do
          let w := Weighted.ofWeights x xs
          if w.total == 0.0 then Evaluator.invalidArgument call list .weightless
          else if w.total.isInf then otherwise call list
          else
            let i ← pickWeighted ev options w
            match members[i]? with
            | some member => ev.reduce (strip weightKey options.flatten member) ctx
            | none => return .error call.origin

@[simp] theorem Library.late_chooseWeightedElse (otherwise : Call → Node → Walk Outcome) :
    (chooseWeightedElse otherwise).late = true := rfl

/-- What `ChooseWeighted` does with weights that add up to infinity. -/
def Library.givenUp : Call → Node → Walk Outcome := fun _ _ => Walk.halt .infiniteWeight

/-- The name of the function that picks by weight. -/
def Library.weightedName : String := "ChooseWeighted"

/-- The functions of the language, with something else done about weights that add up to
infinity. -/
def Registry.builtinElse (otherwise : Call → Node → Walk Outcome) : Registry :=
  builtin.map fun e =>
    if e.1 = Library.weightedName then (e.1, Library.chooseWeightedElse otherwise) else e

theorem Registry.builtinElse_eq (otherwise : Call → Node → Walk Outcome) :
    builtinElse otherwise =
      [("@", Library.assetName), ("@@", Library.assetFile),
        ("Concatenate", Library.concatenate), ("Join", Library.join), ("Choose", Library.choose),
        ("ChooseWeighted", Library.chooseWeightedElse otherwise),
        ("FilterByCondition", Library.filter), ("Combine", Library.combine),
        ("Remove", Library.remove), ("Vector2", Library.record .vector),
        ("Point", Library.record .vector), ("Rectangle", Library.record .rectangle),
        ("Color", Library.record .color), ("^", Library.readBinding)] := rfl

theorem Registry.builtinElse_givenUp : builtinElse Library.givenUp = builtin := rfl

namespace Simulation

variable {late : Bool} {w₁ w₂ : World} (S : Simulation late w₁ w₂)

/-- **Whether two functions respect a simulation**, where they are reduced at all. -/
structure Respects (f g : Function) : Prop where
  sameLate : f.late = g.late
  reduce : (f.late = true → late = true) → ∀ (ev : Evaluator) {k₁ k₂ : Nat}
    {r₁ r₂ : Node → Context → Walk Outcome}, S.Within k₁ k₂ → S.Agree r₁ r₂ →
      ∀ {c d : Call} {ctx ctx' : Context}, c.Kin S.kin d → S.kin.contexts ctx ctx' →
        S.rel (Outcome.Kin S.kin) (f.reduce (ev.under w₁ k₁ r₁) c ctx)
          (g.reduce (ev.under w₂ k₂ r₂) d ctx')

section

variable {S} {r₁ r₂ : Node → Context → Walk Outcome} (hr : S.Agree r₁ r₂) (ev : Evaluator)
  {k₁ k₂ : Nat} (hk : S.Within k₁ k₂) {c d : Call} (hcall : c.Kin S.kin d) {ctx ctx' : Context}
  (hctx : S.kin.contexts ctx ctx')
include hr hctx

/-! ### Assets and texts -/

include hcall in
theorem assetWith {f : Evaluator → String → Walk String}
    (hf : ∀ path, S.rel (· = ·) (f (ev.under w₁ k₁ r₁) path) (f (ev.under w₂ k₂ r₂) path)) :
    S.rel (Outcome.Kin S.kin) ((Library.assetWith f).reduce (ev.under w₁ k₁ r₁) c ctx)
      ((Library.assetWith f).reduce (ev.under w₂ k₂ r₂) d ctx') := by
  refine S.withFirst hcall _ fun hpath _ =>
    S.given (requireToken hr ev hctx hpath) fun path path' hpath => ?_
  rw [hcall.origin.location, hpath.value]
  refine S.map (hf _) fun a b hab => ?_
  rw [hab]
  exact .token (hcall.origin.content b)

include hcall in
theorem concatenate :
    S.rel (Outcome.Kin S.kin) (Library.concatenate.reduce (ev.under w₁ k₁ r₁) c ctx)
      (Library.concatenate.reduce (ev.under w₂ k₂ r₂) d ctx') := by
  refine S.given (requireTokens hr ev hctx hcall.params) fun ts us htokens => ?_
  rw [TokenOf.Kin.values htokens]
  exact S.pure (.token (hcall.origin.content _))

omit hr hctx in
theorem collectAll {f₁ f₂ : Node → Walk (Except Outcome (List String))} {ms ns : List Node}
    (hnodes : List.Forall₂ (Node.Kin S.kin) ms ns)
    (h : ∀ {m n}, m.Kin S.kin n → S.rel (S.kin.Given (· = ·)) (f₁ m) (f₂ n)) :
    S.rel (S.kin.Given (· = ·)) (Library.collectAll f₁ ms) (Library.collectAll f₂ ns) := by
  induction hnodes with
  | nil => exact S.pure (.ok rfl)
  | cons hn _ ih =>
    refine S.also (h hn) fun xs xs' hxs => S.also ih fun ys ys' hys => ?_
    rw [hxs, hys]
    exact S.pure (.ok rfl)

theorem collect {m n : Node} (hnode : m.Kin S.kin n) {fuel fuel' : Nat}
    (hfuel : S.Within fuel fuel') :
    S.rel (S.kin.Given (· = ·)) (Library.collect (ev.under w₁ k₁ r₁) ctx fuel m)
      (Library.collect (ev.under w₂ k₂ r₂) ctx' fuel' n) := by
  induction fuel generalizing fuel' m n with
  | zero => exact S.spent hfuel (fun k => Library.collect (ev.under w₂ k₂ r₂) ctx' k n) rfl
  | succ fuel ih =>
    obtain ⟨fuel', rfl, hless⟩ := S.within_succ hfuel
    have hreduced := hr hnode hctx
    have hrequired : S.rel (S.kin.Given (TokenOf.Kin S.kin))
        ((ev.under w₁ k₁ r₁).requireToken m ctx) ((ev.under w₂ k₂ r₂).requireToken n ctx') :=
      requireToken hr ev hctx hnode
    have hall := fun {is js : List Node} (his : List.Forall₂ (Node.Kin S.kin) is js) =>
      collectAll his fun hn => ih hn hless
    cases hnode
    case array his _ => exact hall his
    all_goals
      refine S.bind hreduced fun x y hxy => ?_
      cases hxy with
      | pending => exact S.pure (.error .pending)
      | empty => exact S.pure (.ok rfl)
      | splice his => exact hall his
      | value hfound =>
        cases hfound
        case array his _ => exact hall his
        case token ht =>
          refine S.pure (.ok ?_)
          rw [ht.isNull, ht.value]
        all_goals
          refine S.also hrequired fun s t ht => ?_
          rw [ht.value]
          exact S.pure (.ok rfl)

include hk hcall in
theorem join :
    S.rel (Outcome.Kin S.kin) (Library.join.reduce (ev.under w₁ k₁ r₁) c ctx)
      (Library.join.reduce (ev.under w₂ k₂ r₂) d ctx') := by
  refine S.withFirst hcall _ fun hseparator hitems =>
    S.given (requireToken hr ev hctx hseparator) fun s t hst =>
      S.given (collectAll hitems fun hn => collect hr ev hctx hn hk) fun xs ys hxs => ?_
  rw [hst.value, hxs]
  exact S.pure (.token (hcall.origin.content _))

/-! ### Collections and records -/

/-- Whether what has been combined is made of kin nodes. -/
inductive CombinedKin (K : Kinship) : Library.Combined → Library.Combined → Prop
  | nothing : CombinedKin K .nothing .nothing
  | items {ms ns : List Node} (h : List.Forall₂ (Node.Kin K) ms ns) :
    CombinedKin K (.items ms) (.items ns)
  | entries {es fs : Entries Token Node} (h : List.Forall₂ K.Entry es fs) :
    CombinedKin K (.entries es) (.entries fs)

omit hr hctx in
theorem mergeEntries {place place' : Location} (hplace : place = place') (function : String)
    {es es' fs fs' : Entries Token Node} (hold : List.Forall₂ S.kin.Entry es es')
    (hnew : List.Forall₂ S.kin.Entry fs fs') :
    S.rel (List.Forall₂ S.kin.Entry) (Library.mergeEntries place function es fs)
      (Library.mergeEntries place' function es' fs') := by
  induction hnew generalizing es es' with
  | nil => exact S.pure hold
  | cons hef _ ih =>
    have hmore := ih (Entries.kin_insert hold hef.1 hef.2)
    unfold Library.mergeEntries
    rw [Entries.kin_contains hold hef.1.beq, hef.1.value]
    exact S.ite .rfl (S.bind_same (S.remarkAt _ hplace _) fun _ => hmore) hmore

omit hr hctx in
include hcall in
theorem combineNode {param param' : Node} (hparam : param.Kin S.kin param')
    {acc acc' : Library.Combined} (hacc : CombinedKin S.kin acc acc') {m n : Node}
    (hnode : m.Kin S.kin n) :
    S.rel (S.kin.Given (CombinedKin S.kin))
      (Library.combineNode (ev.under w₁ k₁ r₁) c param acc m)
      (Library.combineNode (ev.under w₂ k₂ r₂) d param' acc' n) := by
  have hinvalid := fun fault => S.invalid (R := CombinedKin S.kin) hcall hparam fault
  have hother : S.rel (S.kin.Given (CombinedKin S.kin))
      (if ev.isDeferred m then Pure.pure (.error .pending) else do
        return .error (← Evaluator.invalidArgument c param (.notACollection m.kind)))
      (if ev.isDeferred n then Pure.pure (.error .pending) else do
        return .error (← Evaluator.invalidArgument d param' (.notACollection n.kind))) := by
    rw [Evaluator.isDeferred, Evaluator.isDeferred, hnode.function?, hnode.kind]
    exact S.ite .rfl (S.pure (.error .pending)) (hinvalid _)
  have hplace : param.location = param'.location := hparam.origin.location
  cases hnode with
  | token _ => cases hacc <;> exact hother
  | call _ _ _ => cases hacc <;> exact hother
  | statement _ _ _ _ => cases hacc <;> exact hother
  | array his _ =>
    cases hacc with
    | nothing => exact S.pure (.ok (.items his))
    | items hjs => exact S.pure (.ok (.items (List.rel_append hjs his)))
    | entries _ => exact hinvalid _
  | columns hkeys hvalues _ =>
    have hes := forall₂_rows.mpr ⟨hkeys, hvalues⟩
    have hmerged : ∀ {old old' : Entries Token Node}, List.Forall₂ S.kin.Entry old old' →
        S.rel (List.Forall₂ S.kin.Entry) _ _ := fun hold =>
      mergeEntries hplace c.function hold hes
    rw [hcall.function] at hmerged
    unfold Library.combineNode
    rw [hcall.function]
    cases hacc with
    | nothing => exact S.map (hmerged .nil) fun _ _ h => .ok (.entries h)
    | items _ => exact hinvalid _
    | entries hfs => exact S.map (hmerged hfs) fun _ _ h => .ok (.entries h)

include hcall in
theorem combineAll {acc acc' : Library.Combined} (hacc : CombinedKin S.kin acc acc')
    {ms ns : List Node} (hparams : List.Forall₂ (Node.Kin S.kin) ms ns) :
    S.rel (S.kin.Given (CombinedKin S.kin))
      (Library.combineAll (ev.under w₁ k₁ r₁) c ctx acc ms)
      (Library.combineAll (ev.under w₂ k₂ r₂) d ctx' acc' ns) := by
  induction hparams generalizing acc acc' with
  | nil => exact S.pure (.ok hacc)
  | cons hparam _ ih =>
    refine S.bind (hr hparam hctx) fun x y hxy => ?_
    cases hxy with
    | pending => exact S.pure (.error .pending)
    | empty => exact ih hacc
    | splice his =>
      exact S.also (combineNode ev hcall hparam hacc (.array his hparam.origin)) fun _ _ h => ih h
    | value hfound =>
      refine S.ite (by rw [hfound.isNull]) (ih hacc) ?_
      exact S.also (combineNode ev hcall hparam hacc hfound) fun _ _ h => ih h

include hcall in
theorem combine :
    S.rel (Outcome.Kin S.kin) (Library.combine.reduce (ev.under w₁ k₁ r₁) c ctx)
      (Library.combine.reduce (ev.under w₂ k₂ r₂) d ctx') := by
  refine S.given (combineAll hr ev hcall hctx .nothing hcall.params) fun acc acc' hacc => ?_
  cases hacc with
  | nothing => exact S.pure .empty
  | items his => exact S.pure (.value (.array his hcall.origin))
  | entries hes => exact S.pure (.value (Node.kin_block hes hcall.origin))

theorem withoutElements {removed removed' : List Token}
    (hremoved : List.Forall₂ (TokenOf.Kin S.kin) removed removed') {ms ns : List Node}
    (hnodes : List.Forall₂ (Node.Kin S.kin) ms ns) :
    S.rel (List.Forall₂ (Node.Kin S.kin))
      (Library.withoutElements (ev.under w₁ k₁ r₁) ctx removed ms)
      (Library.withoutElements (ev.under w₂ k₂ r₂) ctx' removed' ns) := by
  induction hnodes with
  | nil => exact S.pure .nil
  | cons hn _ ih =>
    refine S.bind (token? hr ev hctx hn) fun t t' ht => S.bind ih fun rest rest' hrest => ?_
    cases ht with
    | none => exact S.pure (.cons hn hrest)
    | some ht =>
      refine S.pure ?_
      rw [ht.contains hremoved]
      split
      · exact hrest
      · exact .cons hn hrest

omit hr hctx in
theorem withoutKeys {es fs : Entries Token Node} (hes : List.Forall₂ S.kin.Entry es fs)
    {removed removed' : List Token} (hremoved : List.Forall₂ (TokenOf.Kin S.kin) removed removed') :
    List.Forall₂ S.kin.Entry (Library.withoutKeys es removed)
      (Library.withoutKeys fs removed') := by
  unfold Library.withoutKeys
  induction hremoved generalizing es fs with
  | nil => exact hes
  | cons hk _ ih => exact ih (Entries.kin_erase hes hk.beq)

include hcall in
theorem remove :
    S.rel (Outcome.Kin S.kin) (Library.remove.reduce (ev.under w₁ k₁ r₁) c ctx)
      (Library.remove.reduce (ev.under w₂ k₂ r₂) d ctx') := by
  refine S.withFirst hcall _ fun {m n _ _} hcollection htokens =>
    S.given (requireTokens hr ev hctx htokens) fun removed removed' hremoved =>
      S.bind (hr hcollection hctx) fun x y hxy => ?_
  have hinvalid := fun fault => S.invalidArgument hcall hcollection fault
  have hother : ∀ {m' n' : Node}, m'.Kin S.kin n' → S.rel (Outcome.Kin S.kin)
      (if ev.isDeferred m' then Pure.pure .pending
        else Evaluator.invalidArgument c m (.notACollection m'.kind))
      (if ev.isDeferred n' then Pure.pure .pending
        else Evaluator.invalidArgument d n (.notACollection n'.kind)) := by
    intro m' n' h
    rw [Evaluator.isDeferred, Evaluator.isDeferred, h.function?, h.kind]
    exact S.ite .rfl (S.pure .pending) (hinvalid _)
  cases hxy with
  | pending => exact S.pure .pending
  | empty => exact hinvalid _
  | splice _ => exact hinvalid _
  | value hfound =>
    have hfound' := hother hfound
    cases hfound with
    | array his ho =>
      exact S.map (withoutElements hr ev hctx hremoved his) fun _ _ h => .value (.array h ho)
    | columns hkeys hvalues ho =>
      have hes := forall₂_rows.mpr ⟨hkeys, hvalues⟩
      exact S.pure (.value (Node.kin_block (withoutKeys hes hremoved) ho))
    | token _ => exact hfound'
    | call _ _ _ => exact hfound'
    | statement _ _ _ _ => exact hfound'

include hcall in
theorem recordEntries (component : Library.Component) (fields : List (String × Option String))
    {ms ns : List Node} (hparams : List.Forall₂ (Node.Kin S.kin) ms ns) :
    S.rel (S.kin.Given (List.Forall₂ S.kin.Entry))
      (Library.recordEntries (ev.under w₁ k₁ r₁) c ctx component fields ms)
      (Library.recordEntries (ev.under w₂ k₂ r₂) d ctx' component fields ns) := by
  have hkey := fun key => hcall.origin.content key
  induction fields generalizing ms ns with
  | nil => exact S.pure (.ok .nil)
  | cons field fields ih =>
    obtain ⟨key, fallback⟩ := field
    cases hparams with
    | nil =>
      cases fallback with
      | none => exact S.pure (.error (.token hcall.origin.error))
      | some fallback =>
        exact S.also (ih .nil) fun _ _ hes =>
          S.pure (.ok (.cons ⟨hkey key, .token (hkey fallback)⟩ hes))
    | cons hparam hparams =>
      refine S.also (requireToken hr ev hctx hparam) fun s t hst => ?_
      rw [hst.value]
      cases component.fault? t.value with
      | none =>
        exact S.also (ih hparams) fun _ _ hes => S.pure (.ok (.cons ⟨hkey key, .token hst⟩ hes))
      | some fault => exact S.invalid hcall hparam fault

include hcall in
theorem record (kind : Library.RecordKind) :
    S.rel (Outcome.Kin S.kin) ((Library.record kind).reduce (ev.under w₁ k₁ r₁) c ctx)
      ((Library.record kind).reduce (ev.under w₂ k₂ r₂) d ctx') := by
  refine S.withArity hcall _ (S.given ?_ fun _ _ hes =>
    S.pure (.value (Node.kin_block hes hcall.origin)))
  exact recordEntries hr ev hcall hctx kind.component kind.fields hcall.params

/-! ### Bindings -/

include hcall in
theorem readBinding (hread : S.kin.calls "^") :
    S.rel (Outcome.Kin S.kin) (Library.readBinding.reduce (ev.under w₁ k₁ r₁) c ctx)
      (Library.readBinding.reduce (ev.under w₂ k₂ r₂) d ctx') := by
  refine S.withFirst hcall _ fun hname hothers =>
    S.given (requireToken hr ev hctx hname) fun s t hst => ?_
  have hvalue := S.scope.read hread hctx hst
  generalize Context.get? ctx s = x, Context.get? ctx' t = y at hvalue ⊢
  cases hvalue with
  | some hvalue =>
    refine hr ?_ hctx
    rw [hcall.origin.uid]
    exact hvalue.markUid _
  | none =>
    cases hothers with
    | nil =>
      rw [hst.value]
      exact S.map (S.report hcall.origin _) fun _ _ _ => .token (hcall.origin.content _)
    | cons hfallback _ => exact hr hfallback hctx

/-! ### Choices and filters -/

omit hr hctx in
/-- Kin tokens spell the same options. -/
theorem ofTokens {ts us : List Token} (htokens : List.Forall₂ (TokenOf.Kin S.kin) ts us)
    (uid : String) :
    Library.ChoiceOptions.ofTokens uid ts = Library.ChoiceOptions.ofTokens uid us := by
  have htake : ∀ options : Library.ChoiceOptions,
      ts.foldl Library.ChoiceOptions.take options =
        us.foldl Library.ChoiceOptions.take options := by
    induction htokens with
    | nil => exact fun _ => rfl
    | cons ht _ ih =>
      intro options
      rw [List.foldl_cons, List.foldl_cons, ih]
      simp only [Library.ChoiceOptions.take, ht.value]
  simp only [Library.ChoiceOptions.ofTokens, htake]

include hcall in
theorem withMembers {f₁ f₂ : Node → List Node → Library.ChoiceOptions → Walk Outcome}
    (h : ∀ {m n ms ns} options, m.Kin S.kin n → List.Forall₂ (Node.Kin S.kin) ms ns →
      S.rel (Outcome.Kin S.kin) (f₁ m ms options) (f₂ n ns options)) :
    S.rel (Outcome.Kin S.kin) (Library.withMembers (ev.under w₁ k₁ r₁) c ctx f₁)
      (Library.withMembers (ev.under w₂ k₂ r₂) d ctx' f₂) := by
  refine S.withFirst hcall _ fun hlist hoptions =>
    S.given (members hr ev hctx hcall hlist) fun ms ns hmembers =>
      S.given (requireTokens hr ev hctx hoptions) fun ts us htokens => ?_
  cases hmembers with
  | nil => exact S.invalidArgument hcall hlist _
  | cons hm hms =>
    rw [hcall.origin.uid, ofTokens htokens]
    exact h _ hlist (.cons hm hms)

omit hr hctx in
theorem getElem? {α β : Type} {R : α → β → Prop} {as : List α} {bs : List β}
    (h : List.Forall₂ R as bs) (i : Nat) : Option.Rel R as[i]? bs[i]? := by
  induction h generalizing i with
  | nil => exact .none
  | cons h _ ih =>
    cases i with
    | zero => exact .some h
    | succ i => exact ih i

include hcall in
/-- The member at an index is reduced, after whatever was done with it. -/
theorem picked {ms ns : List Node} (hmembers : List.Forall₂ (Node.Kin S.kin) ms ns) (i : Nat)
    {f : Node → Node} (hf : ∀ {m n}, m.Kin S.kin n → (f m).Kin S.kin (f n)) :
    S.rel (Outcome.Kin S.kin)
      (match ms[i]? with
        | some member => r₁ (f member) ctx
        | none => Pure.pure (.error c.origin))
      (match ns[i]? with
        | some member => r₂ (f member) ctx'
        | none => Pure.pure (.error d.origin)) := by
  have hmember := getElem? hmembers i
  generalize ms[i]? = x, ns[i]? = y at hmember ⊢
  cases hmember with
  | none => exact S.pure (.token hcall.origin.error)
  | some hmember => exact hr (hf hmember) hctx

include hk hcall in
theorem choose (hlate : late = true) :
    S.rel (Outcome.Kin S.kin) (Library.choose.reduce (ev.under w₁ k₁ r₁) c ctx)
      (Library.choose.reduce (ev.under w₂ k₂ r₂) d ctx') := by
  obtain rfl := S.within_late hlate hk
  simp only [Library.choose, Function.forgetful]
  refine S.withMembers hr ev hcall hctx fun {_ _ ms ns} options _ hmembers => ?_
  rw [hmembers.length_eq]
  refine S.bind_same (S.sample hlate ev r₁ r₂ k₁ k₁ _ _ _) fun i => ?_
  exact picked hr hcall hctx hmembers i fun h => h

omit hr hctx in
theorem memberEntry (key : String) {m n : Node} (hnode : m.Kin S.kin n) :
    Option.Rel (Node.Kin S.kin) (Library.memberEntry key m) (Library.memberEntry key n) := by
  have hentries := hnode.entries?
  unfold Library.memberEntry
  generalize m.entries? = x, n.entries? = y at hentries ⊢
  cases hentries with
  | none => exact .none
  | some hes => exact Entries.kin_get? hes (beq_iff_alike.mpr (.refl _))

omit hr hctx in
theorem strip (key : String) (flatten : Bool) {m n : Node} (hnode : m.Kin S.kin n) :
    (Library.strip key flatten m).Kin S.kin (Library.strip key flatten n) := by
  cases hnode with
  | token ht => exact .token ht
  | call hf hps ho => exact .call hf hps ho
  | statement hf hps ho hdata => exact .statement hf hps ho hdata
  | array his ho => exact .array his ho
  | @columns es fs o o' hkeys hvalues ho =>
    have hrest := Entries.kin_erase (forall₂_rows.mpr ⟨hkeys, hvalues⟩)
      (beq_iff_alike.mpr (.refl (TokenOf.key key)))
    unfold Library.strip
    dsimp only
    generalize Entries.erase es (.key key) = x, Entries.erase fs (.key key) = y at hrest ⊢
    have hblock := Node.kin_block hrest ho
    -- The block is unwrapped exactly if there is one entry left.
    cases hrest with
    | nil => cases flatten <;> exact hblock
    | cons he hes =>
      cases hes with
      | nil =>
        cases flatten with
        | true => exact he.2
        | false => exact hblock
      | cons he' hes => cases flatten <;> exact hblock

omit hr hctx in
theorem weightOf {s t : Token} (hst : s.Kin S.kin t) :
    S.rel (· = ·) (Library.weightOf s) (Library.weightOf t) := by
  unfold Library.weightOf
  rw [hst.value, hst.origin.location]
  cases Library.weight? t.value with
  | some x => exact S.pure rfl
  | none => exact S.map (S.remarkAt _ rfl _) fun _ _ _ => rfl

theorem weights {ms ns : List Node} (hmembers : List.Forall₂ (Node.Kin S.kin) ms ns) :
    S.rel (S.kin.Given (· = ·)) (Library.weights (ev.under w₁ k₁ r₁) ctx ms)
      (Library.weights (ev.under w₂ k₂ r₂) ctx' ns) := by
  induction hmembers with
  | nil => exact S.pure (.ok rfl)
  | @cons m n ms ns hm _ ih =>
    have hmore : ∀ x : Float, S.rel (S.kin.Given (· = ·))
        ((Library.weights (ev.under w₁ k₁ r₁) ctx ms).also fun xs => Pure.pure (.ok (x :: xs)))
        ((Library.weights (ev.under w₂ k₂ r₂) ctx' ns).also fun xs => Pure.pure (.ok (x :: xs))) :=
      fun x => S.also ih fun xs ys hxs => S.pure (.ok (congrArg (x :: ·) hxs))
    have hentry := memberEntry (S := S) Library.weightKey hm
    unfold Library.weights
    generalize Library.memberEntry Library.weightKey m = x,
      Library.memberEntry Library.weightKey n = y at hentry ⊢
    cases hentry with
    | none => exact hmore 1.0
    | some hentry =>
      refine S.bind (requireToken hr ev hctx hentry) fun s t hst => ?_
      cases hst with
      | ok hst => exact S.bind_same (weightOf hst) hmore
      | error ho =>
        cases ho with
        | pending => exact S.pure (.error .pending)
        | value _ => exact hmore 1.0
        | empty => exact hmore 1.0
        | splice _ => exact hmore 1.0

include hcall in
theorem chooseWeightedElse (hlate : late = true) {o₁ o₂ : Call → Node → Walk Outcome}
    (ho : ∀ {c d : Call} {m n : Node}, c.Kin S.kin d → m.Kin S.kin n →
      S.rel (Outcome.Kin S.kin) (o₁ c m) (o₂ d n)) :
    S.rel (Outcome.Kin S.kin)
      ((Library.chooseWeightedElse o₁).reduce (ev.under w₁ k₁ r₁) c ctx)
      ((Library.chooseWeightedElse o₂).reduce (ev.under w₂ k₂ r₂) d ctx') := by
  simp only [Library.chooseWeightedElse, Function.forgetful]
  refine S.withMembers hr ev hcall hctx fun options hlist hmembers =>
    S.given (weights hr ev hctx hmembers) fun xs ys hxs => ?_
  subst hxs
  cases xs with
  | nil => exact S.invalidArgument hcall hlist _
  | cons x xs =>
    refine S.ite .rfl (S.invalidArgument hcall hlist _) (S.ite .rfl (ho hcall hlist) ?_)
    refine S.bind_same (S.sample hlate ev r₁ r₂ k₁ k₂ _ _ _) fun i => ?_
    exact picked hr hcall hctx hmembers i fun h => strip Library.weightKey options.flatten h

theorem admits (hlate : late = true) {m n : Node} (hnode : m.Kin S.kin n) :
    S.rel (S.kin.Given (· = ·)) (Library.admits (ev.under w₁ k₁ r₁) ctx m)
      (Library.admits (ev.under w₂ k₂ r₂) ctx' n) := by
  have hentry := memberEntry (S := S) Library.conditionKey hnode
  unfold Library.admits
  generalize Library.memberEntry Library.conditionKey m = x,
    Library.memberEntry Library.conditionKey n = y at hentry ⊢
  cases hentry with
  | none => exact S.pure (.ok rfl)
  | some hentry =>
    -- The only function that asks for conditions, and it is late.
    refine S.also (requireToken hr ev hctx hentry) fun s t hst => ?_
    rw [hst.value]
    refine S.bind_same (S.askCondition hlate t.value) fun answer => ?_
    cases answer with
    | none => exact S.pure (.error .pending)
    | some answer => exact S.pure (.ok rfl)

theorem keepMembers (hlate : late = true) (flatten : Bool) {ms ns : List Node}
    (hmembers : List.Forall₂ (Node.Kin S.kin) ms ns) :
    S.rel (S.kin.Given fun x y => List.Forall₂ (Node.Kin S.kin) x.1 y.1 ∧ x.2 = y.2)
      (Library.keepMembers (ev.under w₁ k₁ r₁) ctx flatten ms)
      (Library.keepMembers (ev.under w₂ k₂ r₂) ctx' flatten ns) := by
  induction hmembers with
  | nil => exact S.pure (.ok ⟨.nil, rfl⟩)
  | cons hm _ ih =>
    refine S.also (admits hr ev hctx hlate hm) fun answer answer' hanswer => ?_
    subst hanswer
    refine S.ite .rfl ?_ ?_
    · exact S.also ih fun x y hxy => S.pure (.ok ⟨hxy.1, congrArg (false :: ·) hxy.2⟩)
    · refine S.bind (hr (strip _ flatten hm) hctx) fun o o' ho => ?_
      have hitems := ho.toItems?
      generalize o.toItems? = x, o'.toItems? = y at hitems ⊢
      cases hitems with
      | none => exact S.pure (.error .pending)
      | some hitems =>
        exact S.also ih fun x y hxy => S.pure (.ok ⟨List.rel_append hitems hxy.1,
          congrArg (answer.toList ++ ·) hxy.2⟩)

include hcall in
theorem filter (hlate : late = true) :
    S.rel (Outcome.Kin S.kin) (Library.filter.reduce (ev.under w₁ k₁ r₁) c ctx)
      (Library.filter.reduce (ev.under w₂ k₂ r₂) d ctx') := by
  refine S.withFirst hcall _ fun hlist hoptions =>
    S.given (members hr ev hctx hcall hlist) fun ms ns hmembers =>
      S.given (requireTokens hr ev hctx hoptions) fun ts us htokens => ?_
  have hflatten : ts.any (·.value == Library.flattenOption) =
      us.any (·.value == Library.flattenOption) := by
    have hany : ∀ vs : List Token, vs.any (·.value == Library.flattenOption) =
        (vs.map (·.value)).any (· == Library.flattenOption) := fun vs => by
      rw [List.any_map]
      rfl
    rw [hany, hany, TokenOf.Kin.values htokens]
  dsimp only
  rw [hflatten]
  refine S.given (keepMembers hr ev hctx hlate _ hmembers) fun x y hxy => ?_
  rw [hcall.function, hcall.origin.uid, hxy.2]
  exact S.bind_same (S.remember hlate _ _ _) fun _ => S.pure (.value (.array hxy.1 hcall.origin))

end

/-! ### All functions -/

/-- Whether functions with the same names respect a simulation, as far as they may be called. -/
def RespectsAll (r r' : Registry) : Prop :=
  List.Forall₂ (fun e e' => e.1 = e'.1 ∧ (S.kin.calls e.1 → S.Respects e.2 e'.2)) r r'

/-- **The functions of the language respect every simulation** that what is done about infinite
weights respects. -/
theorem respects_builtinElse {o₁ o₂ : Call → Node → Walk Outcome}
    (ho : late = true → ∀ {c d : Call} {m n : Node}, c.Kin S.kin d → m.Kin S.kin n →
      S.rel (Outcome.Kin S.kin) (o₁ c m) (o₂ d n)) :
    S.RespectsAll (.builtinElse o₁) (.builtinElse o₂) := by
  -- Functions that are not late respect the simulation in both passes.
  have hasset : S.Respects Library.assetName Library.assetName :=
    ⟨rfl, fun _ ev _ _ _ _ _ hr _ _ _ _ hcall hctx => assetWith hr ev hcall hctx S.askAsset⟩
  have hfile : S.Respects Library.assetFile Library.assetFile :=
    ⟨rfl, fun _ ev _ _ _ _ _ hr _ _ _ _ hcall hctx => assetWith hr ev hcall hctx fun path =>
      S.pure (congrArg (Path.compose · path) S.contentRoot)⟩
  have hconcatenate : S.Respects Library.concatenate Library.concatenate :=
    ⟨rfl, fun _ ev _ _ _ _ _ hr _ _ _ _ hcall hctx => concatenate hr ev hcall hctx⟩
  have hjoin : S.Respects Library.join Library.join :=
    ⟨rfl, fun _ ev _ _ _ _ hk hr _ _ _ _ hcall hctx => join hr ev hk hcall hctx⟩
  have hcombine : S.Respects Library.combine Library.combine :=
    ⟨rfl, fun _ ev _ _ _ _ _ hr _ _ _ _ hcall hctx => combine hr ev hcall hctx⟩
  have hremove : S.Respects Library.remove Library.remove :=
    ⟨rfl, fun _ ev _ _ _ _ _ hr _ _ _ _ hcall hctx => remove hr ev hcall hctx⟩
  have hrecord : ∀ kind, S.Respects (Library.record kind) (Library.record kind) := fun kind =>
    ⟨rfl, fun _ ev _ _ _ _ _ hr _ _ _ _ hcall hctx => record hr ev hcall hctx kind⟩
  have hread : S.kin.calls "^" → S.Respects Library.readBinding Library.readBinding := fun h =>
    ⟨rfl, fun _ ev _ _ _ _ _ hr _ _ _ _ hcall hctx => readBinding hr ev hcall hctx h⟩
  -- The late ones are reduced in consumption alone.
  have hchoose : S.Respects Library.choose Library.choose :=
    ⟨rfl, fun hlate ev _ _ _ _ hk hr _ _ _ _ hcall hctx =>
      choose hr ev hk hcall hctx (hlate rfl)⟩
  have hweighted : S.Respects (Library.chooseWeightedElse o₁) (Library.chooseWeightedElse o₂) :=
    ⟨by simp, fun hlate ev _ _ _ _ _ hr _ _ _ _ hcall hctx =>
      chooseWeightedElse hr ev hcall hctx (hlate (by simp)) (ho (hlate (by simp)))⟩
  have hfilter : S.Respects Library.filter Library.filter :=
    ⟨rfl, fun hlate ev _ _ _ _ _ hr _ _ _ _ hcall hctx =>
      filter hr ev hcall hctx (hlate rfl)⟩
  rw [RespectsAll, Registry.builtinElse_eq, Registry.builtinElse_eq]
  exact .cons ⟨rfl, fun _ => hasset⟩ <| .cons ⟨rfl, fun _ => hfile⟩ <|
    .cons ⟨rfl, fun _ => hconcatenate⟩ <| .cons ⟨rfl, fun _ => hjoin⟩ <|
    .cons ⟨rfl, fun _ => hchoose⟩ <| .cons ⟨rfl, fun _ => hweighted⟩ <|
    .cons ⟨rfl, fun _ => hfilter⟩ <| .cons ⟨rfl, fun _ => hcombine⟩ <|
    .cons ⟨rfl, fun _ => hremove⟩ <| .cons ⟨rfl, fun _ => hrecord _⟩ <|
    .cons ⟨rfl, fun _ => hrecord _⟩ <| .cons ⟨rfl, fun _ => hrecord _⟩ <|
    .cons ⟨rfl, fun _ => hrecord _⟩ <| .cons ⟨rfl, hread⟩ .nil

/-- The functions of the language respect a simulation that a walk given up for infinite weights
respects. -/
theorem respects_builtin (hgiven : late = true → ∀ {α β : Type} {R : α → β → Prop},
    S.rel R (Walk.halt .infiniteWeight : Walk α) (Walk.halt .infiniteWeight : Walk β)) :
    S.RespectsAll .builtin .builtin := by
  rw [← Registry.builtinElse_givenUp]
  exact S.respects_builtinElse fun hlate {_ _ _ _} _ _ => hgiven hlate

end Simulation

end ContentLang
