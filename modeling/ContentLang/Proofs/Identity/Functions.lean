import ContentLang.Proofs.Deferral.Builds
import ContentLang.Proofs.Identity.Apart
import ContentLang.Proofs.Loading.Ready

/-!
# Functions keep identities apart

What a function gives in the loading pass stems from its call (`ContentLang.Function.Stemming`),
if what its evaluator reduces stems from the nodes that are reduced, and each bound value has
identities that are apart. There are three sorts of functions.

* Most give a node without any call, whatever they are given.
* `Combine` and `Remove` give calls that are in their parameters, each at most as often as there.
* `^` gives a copy of what is bound, marked with the identity of its call. So the value may be
  read any number of times, although the calls in it are the same each time.
-/

namespace ContentLang

open Node Reduce Uid Walk

/-- The identities of an outcome. -/
def Outcome.uids (o : Outcome) : List String := uidsOfAll o.nodes

@[simp] theorem Outcome.uids_value (n : Node) : (value n).uids = n.uids := List.append_nil _

@[simp] theorem Outcome.uids_splice (items : List Node) : (splice items).uids = uidsOfAll items :=
  rfl

@[simp] theorem Outcome.uids_empty : empty.uids = [] := rfl

@[simp] theorem Outcome.uids_pending : pending.uids = [] := rfl

/-- Whether each value that is bound has identities that are apart. Those of different values may
well be the same. -/
def Context.Apart (ctx : Context) : Prop := ∀ e ∈ ctx, AllApart e.2.uids

/-- Whether a walk gives an outcome that stems from identities. -/
abbrev Sprouts (us : List String) (m : Walk Outcome) : Prop :=
  Gives (fun o => Stems us o.uids) m

/-- Whether a way to reduce nodes gives what stems from them. -/
def Sprouting (reduce : Node → Context → Walk Outcome) : Prop :=
  ∀ node ctx, AllApart node.uids → ctx.Apart → Sprouts node.uids (reduce node ctx)

/-- **Whether what a function gives stems from its call.** -/
def Function.Stemming (f : Function) : Prop :=
  ∀ ev : Evaluator, Sprouting ev.reduce → ∀ (call : Call) (ctx : Context), AllApart call.uids →
    ctx.Apart → Sprouts call.uids (f.reduce ev call ctx)

/-! ### Nodes without calls -/

/-- Whether there is no call in a node. -/
def Node.Callless (n : Node) : Prop := n.uids = []

theorem layered_callless : Layered (fun _ => True) Callless Callless where
  token := uids_token
  array := by simp [Callless, uidsOfAll]
  block := by simp [Callless, uidsOfEntries]

/-- What holds no call stems from anything. -/
theorem Outcome.One.stems {o : Outcome} (h : o.One Callless) (us : List String) :
    Stems us o.uids := by
  have hnone : o.uids = [] := by
    cases o with
    | value n => exact (uids_value n).trans h
    | splice items => exact h.elim
    | empty => rfl
    | pending => rfl
  rw [hnone]
  exact stems_nil us

section

variable {α β : Type} {Q : α → Prop} {us : List String}

theorem sprouts_callless {m : Walk Outcome} (h : Always (Outcome.One Callless) m) :
    Sprouts us m :=
  h.imp fun _ ho => ho.stems us

/-- What ends a function early holds no call. -/
theorem sprouts_given {m : Walk (Except Outcome α)} {f : α → Walk Outcome}
    (hm : Always (Gathers Callless Q) m) (hf : ∀ a, Q a → Sprouts us (f a)) :
    Sprouts us (m.given f) := by
  refine meets_bind hm fun r hr => ?_
  cases r with
  | ok a => exact hf a hr
  | error o => exact meets_pure (hr.stems us)

theorem sprouts_withFirst {call : Call} {expected : Arity} {f : Node → List Node → Walk Outcome}
    (hf : ∀ first others, call.params = first :: others → Sprouts us (f first others)) :
    Sprouts us (Evaluator.withFirst call expected f) := by
  have hwrong : Sprouts us (Evaluator.wrongArity call expected) :=
    sprouts_callless (Evaluator.always_wrongArity layered_callless call expected)
  unfold Evaluator.withFirst
  split
  next first others hparams => exact meets_ite (fun _ => hf first others hparams) fun _ => hwrong
  next => exact hwrong

end

namespace Library

theorem stemming_assetWith (f : Evaluator → String → Walk String) : (assetWith f).Stemming := by
  intro ev hev call ctx _ _
  refine sprouts_withFirst fun path others _ =>
    sprouts_given (Evaluator.always_requireToken layered_callless ev path ctx) fun t _ => ?_
  exact gives_after fun _ => meets_pure (stems_nil _)

theorem stemming_concatenate : concatenate.Stemming := by
  intro ev hev call ctx _ _
  exact sprouts_given (Evaluator.always_requireTokens layered_callless ev call.params ctx)
    fun ts _ => meets_pure (stems_nil _)

theorem stemming_join : join.Stemming := by
  intro ev hev call ctx _ _
  refine sprouts_withFirst fun separator items _ =>
    sprouts_given (Evaluator.always_requireToken layered_callless ev separator ctx) fun t _ => ?_
  have htexts : Always (Gathers Callless fun _ : List String => True)
      (collectAll (collect ev ctx ev.limit) items) :=
    always_collectAll (always_collect layered_callless ev ctx ev.limit) items
  exact sprouts_given htexts fun texts _ => meets_pure (stems_nil _)

theorem stemming_record (k : RecordKind) : (record k).Stemming := by
  intro ev hev call ctx _ _
  refine sprouts_callless (meets_ite (fun _ => ?_) fun _ =>
    Evaluator.always_wrongArity layered_callless call _)
  have hentries := always_recordEntries layered_callless uids_token ev call ctx k.component
    k.fields call.params
  exact always_given hentries fun es hes => meets_pure (layered_callless.block.mpr ⟨trivial, hes⟩)

/-! ### Collections -/

/-- The identities in what has been combined. -/
def Combined.uids : Combined → List String
  | .nothing => []
  | .items ns => uidsOfAll ns
  | .entries es => uidsOfEntries es

/-- An entry that is inserted adds its identities, and may push out others. -/
theorem uidsOfEntries_insert (m : Entries Token Node) (k : Token) (n : Node) :
    (uidsOfEntries (Entries.insert m k n)).Subperm (uidsOfEntries m ++ n.uids) := by
  unfold Entries.insert
  split
  next old _ =>
    have herased : (uidsOfEntries (Entries.erase m k)).Sublist (uidsOfEntries m) :=
      flatMap_sublist List.filter_sublist _
    simpa using (herased.append_right n.uids).subperm
  next =>
    rw [uidsOfEntries_append]
    exact (List.subperm_append_left _).mpr (by simp [List.Subperm.refl])

theorem gives_mergeEntries (location : Location) (function : String) (m es : Entries Token Node) :
    Gives (fun r => (uidsOfEntries r).Subperm (uidsOfEntries m ++ uidsOfEntries es))
      (mergeEntries location function m es) := by
  induction es generalizing m with
  | nil => exact meets_pure (by simp [List.Subperm.refl])
  | cons e es ih =>
    obtain ⟨k, n⟩ := e
    have hrest : Gives (fun r => (uidsOfEntries r).Subperm
        (uidsOfEntries m ++ uidsOfEntries ((k, n) :: es)))
        (mergeEntries location function (Entries.insert m k n) es) := by
      refine (ih (Entries.insert m k n)).imp fun r hr => hr.trans ?_
      rw [uidsOfEntries_cons, ← List.append_assoc]
      exact (List.subperm_append_right _).mpr (uidsOfEntries_insert m k n)
    unfold mergeEntries
    exact meets_ite (fun _ => gives_after fun _ => hrest) fun _ => hrest

/-- One more parameter adds its identities to those of what has been combined. -/
theorem gives_combineNode (ev : Evaluator) (call : Call) (param : Node) (acc : Combined)
    (node : Node) :
    Always (Gathers Callless fun acc' : Combined => acc'.uids.Subperm (acc.uids ++ node.uids))
      (combineNode ev call param acc node) := by
  have hfault := fun fault => Evaluator.always_fault
    (Q := fun acc' : Combined => acc'.uids.Subperm (acc.uids ++ node.uids))
    layered_callless call param fault
  have hmerged : ∀ (m es : Entries Token Node),
      (uidsOfEntries m ++ uidsOfEntries es).Subperm (acc.uids ++ node.uids) →
      Always (Gathers Callless fun acc' : Combined => acc'.uids.Subperm (acc.uids ++ node.uids))
        (do return .ok (.entries (← mergeEntries param.location call.function m es))) :=
    fun m es h => meets_map (gives_mergeEntries _ _ m es) fun r hr => hr.trans h
  have hitems : ∀ ns, (uidsOfAll ns).Subperm (acc.uids ++ node.uids) →
      Always (Gathers Callless fun acc' : Combined => acc'.uids.Subperm (acc.uids ++ node.uids))
        (pure (.ok (.items ns))) := fun ns h => meets_pure h
  unfold combineNode
  split
  · exact hitems _ (by simp [Combined.uids, List.Subperm.refl])
  · exact hitems _ (by simp [Combined.uids, List.Subperm.refl])
  · exact hmerged [] _ (by simp [Combined.uids, List.Subperm.refl])
  · exact hmerged _ _ (by simp [Combined.uids, List.Subperm.refl])
  · exact hfault _
  · exact hfault _
  · exact meets_ite (fun _ => meets_pure trivial) fun _ => hfault _

/-- What is combined stems from the parameters that came before and those that are left. -/
theorem gives_combineAll {ev : Evaluator} (hev : Sprouting ev.reduce) (call : Call)
    {ctx : Context} (hctx : ctx.Apart) {us : List String} {acc : Combined} {ps : List Node}
    (hus : AllApart (us ++ uidsOfAll ps)) (hacc : Stems us acc.uids) :
    Always (Gathers Callless fun acc' : Combined => Stems (us ++ uidsOfAll ps) acc'.uids)
      (combineAll ev call ctx acc ps) := by
  induction ps generalizing us acc with
  | nil =>
    rw [uidsOfAll_nil, List.append_nil]
    exact meets_pure hacc
  | cons p ps ih =>
    rw [uidsOfAll_cons, ← List.append_assoc] at hus ⊢
    have hbefore := (List.pairwise_append.mp hus).1
    have hp : AllApart p.uids := (List.pairwise_append.mp hbefore).2.1
    have hnode : ∀ node : Node, Stems p.uids node.uids →
        Always (Gathers Callless fun acc' : Combined =>
          Stems (us ++ p.uids ++ uidsOfAll ps) acc'.uids)
          ((combineNode ev call p acc node).also fun acc' => combineAll ev call ctx acc' ps) :=
      fun node hn => always_also (gives_combineNode ev call p acc node) fun acc' hacc' =>
        ih hus ((hacc.append hbefore hn).subperm hacc')
    have hskip : Always (Gathers Callless fun acc' : Combined =>
        Stems (us ++ p.uids ++ uidsOfAll ps) acc'.uids) (combineAll ev call ctx acc ps) :=
      ih hus (hacc.mono (List.subset_append_left _ _))
    refine meets_bind (hev p ctx hp hctx) fun o ho => ?_
    cases o with
    | pending => exact meets_pure trivial
    | empty => exact hskip
    | splice items => exact hnode (.array items p.origin) (by simpa using ho)
    | value n =>
      exact meets_ite (fun _ => hskip) fun _ => hnode n (by simpa using ho)

theorem stemming_combine : combine.Stemming := by
  intro ev hev call ctx hcall hctx
  have hparams : AllApart ([call.origin.uid] ++ uidsOfAll call.params) := hcall
  have hacc : Stems [call.origin.uid] Combined.nothing.uids := stems_nil _
  refine sprouts_given (gives_combineAll hev call hctx hparams hacc) fun acc hacc => ?_
  cases acc with
  | nothing => exact meets_pure (stems_nil _)
  | items ns =>
    have hns : Stems call.uids (uidsOfAll ns) := hacc
    exact meets_pure (by simpa using hns)
  | entries es =>
    have hes : Stems call.uids (uidsOfEntries es) := hacc
    exact meets_pure (by simpa using hes)

theorem gives_withoutElements (ev : Evaluator) (ctx : Context) (removed : List Token)
    (ns : List Node) :
    Gives (fun r => r.Sublist ns) (withoutElements ev ctx removed ns) := by
  induction ns with
  | nil => exact meets_pure (.refl [])
  | cons n ns ih =>
    refine gives_after fun t => meets_bind ih fun rest hrest => ?_
    cases t with
    | none => exact meets_pure (hrest.cons_cons n)
    | some t =>
      refine meets_pure ?_
      split
      · exact hrest.cons n
      · exact hrest.cons_cons n

theorem withoutKeys_sublist (es : Entries Token Node) (removed : List Token) :
    (withoutKeys es removed).Sublist es := by
  induction removed generalizing es with
  | nil => exact .refl es
  | cons k removed ih => exact (ih (Entries.erase es k)).trans List.filter_sublist

theorem stemming_remove : remove.Stemming := by
  intro ev hev call ctx hcall hctx
  refine sprouts_withFirst fun collection tokens hparams => ?_
  have htokens := Evaluator.always_requireTokens layered_callless ev tokens ctx
  refine sprouts_given htokens fun removed _ => ?_
  have hsub : collection.uids ⊆ call.uids :=
    List.subset_cons_of_subset _ (uids_subset_of_mem (by simp [hparams]))
  have hcollection : AllApart collection.uids := by
    rw [Call.uids, hparams, uidsOfAll_cons] at hcall
    exact (List.pairwise_append.mp (List.pairwise_cons.mp hcall).2).1
  have hinvalid : ∀ fault, Sprouts call.uids (Evaluator.invalidArgument call collection fault) :=
    fun fault => sprouts_callless (Evaluator.always_invalidArgument layered_callless _ _ fault)
  refine meets_bind (hev collection ctx hcollection hctx) fun o ho => ?_
  cases o with
  | pending => exact meets_pure (stems_nil _)
  | empty => exact hinvalid _
  | splice items => exact hinvalid _
  | value n =>
    have hother : Sprouts call.uids (if ev.isDeferred n then return .pending
        else Evaluator.invalidArgument call collection (.notACollection n.kind)) :=
      meets_ite (fun _ => meets_pure (stems_nil _)) fun _ => hinvalid _
    cases n with
    | token t => exact hother
    | call f ps o => exact hother
    | statement f ps o d => exact hother
    | array is o =>
      refine meets_map (gives_withoutElements ev ctx removed is) fun r hr => ?_
      have his : Stems collection.uids (uidsOfAll is) := by simpa using ho
      have hleft : Stems collection.uids (uidsOfAll r) := his.subperm (flatMap_sublist hr _).subperm
      simpa  using hleft.mono hsub
    | block es o =>
      have hes : Stems collection.uids (uidsOfEntries es) := by simpa using ho
      have hleft : Stems collection.uids (uidsOfEntries (withoutKeys es removed)) :=
        hes.subperm (flatMap_sublist (withoutKeys_sublist es removed) _).subperm
      exact meets_pure (by simpa using hleft.mono hsub)

/-! ### Bindings -/

/-- **A value is copied to where it is read**, and so marked that it may be read again. -/
theorem stemming_readBinding : readBinding.Stemming := by
  intro ev hev call ctx hcall hctx
  refine sprouts_withFirst fun name others hparams =>
    sprouts_given (Evaluator.always_requireToken layered_callless ev name ctx) fun t _ => ?_
  cases hget : Context.get? ctx t with
  | some value =>
    obtain ⟨e, he, rfl⟩ := Context.mem_of_get? hget
    have hmarked : Stems call.uids (e.2.markUid (call.origin.uid ++ ">")).uids := by
      rw [uids_markUid]
      exact (stems_marked call.origin.uid (hctx e he)).mono (by simp [Call.uids])
    exact (hev _ ctx hmarked.apart hctx).imp fun o ho => hmarked.trans ho
  | none =>
    cases others with
    | nil => exact gives_after fun _ => meets_pure (stems_nil _)
    | cons fallback others =>
      have hfallback : AllApart fallback.uids := by
        rw [Call.uids, hparams, uidsOfAll_cons, uidsOfAll_cons] at hcall
        exact (List.pairwise_append.mp (List.pairwise_append.mp
          (List.pairwise_cons.mp hcall).2).2.1).1
      exact (hev fallback ctx hfallback hctx).imp fun o ho => ho.mono
        (List.subset_cons_of_subset _ (uids_subset_of_mem (by simp [hparams])))

end Library

/-- **The functions of the language that are not late keep identities apart.** -/
theorem Function.stemming_builtin : ∀ e ∈ Registry.builtin, e.2.late = true ∨ e.2.Stemming := by
  open Library in
  simp only [Registry.builtin, List.forall_mem_cons]
  exact ⟨.inr (stemming_assetWith _), .inr (stemming_assetWith _), .inr stemming_concatenate,
    .inr stemming_join, .inl rfl, .inl rfl, .inl rfl, .inr stemming_combine, .inr stemming_remove,
    .inr (stemming_record _), .inr (stemming_record _), .inr (stemming_record _),
    .inr (stemming_record _), .inr stemming_readBinding, by simp⟩

end ContentLang
