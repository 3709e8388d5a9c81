import ContentLang.Proofs.Identity.Functions
import ContentLang.Proofs.Identity.Written
import ContentLang.Proofs.Walk.Reduction

/-!
# The loading pass keeps identities apart

What the loading pass makes of a node stems from it (`ContentLang.Reduce.sprouts_reduce`): the
identities in the result are apart from one another, and each lies within one that is in the node.
One lemma for each part of a step; what two parts of a node give stems from different
identities of the node, and so may be put together.

Two places bring in identities that are not in the node. The elements of an included file are
apart, as those of any text are (`ContentLang.apart_parseText`), and are marked with the
identity of the `Include`. The value of a binding is what the pass made of some other node,
perhaps the same that another read gives, and is marked with the identity of the `^`.
-/

namespace ContentLang

open Node Uid Walk

namespace Outcome

variable {o : Outcome} {origin : Origin} {n : Node} {items : List Node}

theorem uids_of_toNode? (h : o.toNode? origin = some n) : n.uids = o.uids := by
  cases o with
  | value m =>
    obtain rfl : m = n := Option.some.inj h
    exact (uids_value m).symm
  | empty =>
    obtain rfl : Node.token (.null origin) = n := Option.some.inj h
    exact uids_token _
  | splice items =>
    obtain rfl : Node.array items origin = n := Option.some.inj h
    exact uids_array
  | pending => exact nomatch h

theorem uids_of_toItems? (h : o.toItems? = some items) : uidsOfAll items = o.uids := by
  cases o with
  | value m =>
    obtain rfl : [m] = items := Option.some.inj h
    rfl
  | empty =>
    obtain rfl : [] = items := Option.some.inj h
    rfl
  | splice items' =>
    obtain rfl : items' = items := Option.some.inj h
    rfl
  | pending => exact nomatch h

theorem uids_ofItems (items : List Node) : (ofItems items).uids = uidsOfAll items := by
  match items with
  | [] => rfl
  | [n] => rfl
  | _ :: _ :: _ => rfl

theorem uids_spliced (items : List Node) : (Reduce.spliced items).uids = uidsOfAll items := by
  unfold Reduce.spliced
  split
  · simp
  · exact uids_ofItems _

end Outcome

/-! ### Lists whose members are apart -/

section

variable {n m : Node} {ns : List Node} {es : List (Token × Node)} {us vs : List String}

theorem Uid.AllApart.left (h : AllApart (us ++ vs)) : AllApart us := (List.pairwise_append.mp h).1

theorem Uid.AllApart.right (h : AllApart (us ++ vs)) : AllApart vs :=
  (List.pairwise_append.mp h).2.1

theorem Uid.AllApart.node (h : AllApart (uidsOfAll ns)) (hn : n ∈ ns) : AllApart n.uids := by
  rw [uidsOfAll, AllApart, List.pairwise_flatMap] at h
  exact h.1 n hn

theorem Uid.AllApart.entry (h : AllApart (uidsOfEntries es)) {e : Token × Node} (he : e ∈ es) :
    AllApart e.2.uids := by
  rw [uidsOfEntries, AllApart, List.pairwise_flatMap] at h
  exact h.1 e he

end

theorem Context.apart_bind {ctx : Context} {name : Token} {value : Node} (hctx : ctx.Apart)
    (hvalue : AllApart value.uids) : (ctx.bind name value).Apart :=
  Entries.forall_insert (Q := fun n : Node => AllApart n.uids) hctx hvalue

theorem Context.apart_overlay {ctx : Context} {es : List (Token × Node)} (hctx : ctx.Apart)
    (hes : ∀ e ∈ es, AllApart e.2.uids) : (ctx.overlay es).Apart := by
  refine Entries.forall_overlay (Q := fun n : Node => AllApart n.uids) hctx fun e he => ?_
  obtain ⟨e', he', rfl⟩ := List.mem_map.mp he
  exact hes e' he'

/-- Whether surroundings are those of the loading pass, with functions that keep identities
apart. -/
structure Surroundings.Sprouts (env : Surroundings) : Prop where
  late : env.late = false
  functions : ∀ e ∈ env.registry, e.2.late = true ∨ e.2.Stemming

namespace Reduce

/-- **Whether a way to reduce nodes keeps identities apart** in the loading pass. -/
def SproutingReducer (rec : Reducer) : Prop :=
  ∀ env : Surroundings, env.Sprouts → Sprouting (rec env)

section

variable {rec : Reducer} (hrec : SproutingReducer rec) {env : Surroundings} (henv : env.Sprouts)
  {ctx : Context} (hctx : ctx.Apart)
include hrec henv hctx

/-! ### Parts -/

theorem sprouts_visit {n : Node} (hn : AllApart n.uids) : Sprouts n.uids (visit env rec n ctx) := by
  rw [visit_loading henv.late]
  exact hrec env henv n ctx hn hctx

omit hctx in
theorem sprouting_evaluator : Sprouting (evaluator env rec).reduce :=
  fun _ _ hn hctx => sprouts_visit hrec henv hctx hn

omit hrec henv hctx in
/-- A node that is kept has the identities it had. -/
theorem sprouts_orKept {n : Node} (hn : AllApart n.uids) {o : Outcome} (ho : Stems n.uids o.uids) :
    Sprouts n.uids (orKept env o n ctx) := by
  have hkept : Gives (· = n.withContext ctx) (keep n ctx) :=
    gives_after fun _ => meets_pure rfl
  refine meets_ite (fun _ => meets_map hkept fun m hm => ?_) fun _ => meets_pure ho
  rw [hm, Outcome.uids_value, uids_withContext]
  exact .refl hn

theorem sprouts_reduceParams {ps : List Node} (hps : AllApart (uidsOfAll ps)) :
    Gives (fun r => Stems (uidsOfAll ps) (uidsOfAll (r.getD [])))
      (reduceParams env rec ctx ps) := by
  induction ps with
  | nil => exact meets_pure (stems_nil _)
  | cons p ps ih =>
    rw [uidsOfAll_cons] at hps ⊢
    refine meets_bind (sprouts_visit hrec henv hctx hps.left) fun o ho => ?_
    cases hq : o.toNode? p.origin with
    | none => exact meets_pure (stems_nil _)
    | some q =>
      refine meets_map (ih hps.right) fun r hr => ?_
      cases r with
      | none => exact stems_nil _
      | some qs =>
        rw [← Outcome.uids_of_toNode? hq] at ho
        exact .append hps ho hr

theorem sprouts_reduceCallParams {c : Call} (hc : AllApart c.uids) :
    Gives (fun r => ∀ processed, r = some processed → Stems c.uids processed.uids)
      (reduceCallParams env rec c ctx) := by
  refine meets_map (sprouts_reduceParams hrec henv hctx (List.pairwise_cons.mp hc).2) fun r hr => ?_
  rintro processed hprocessed
  obtain ⟨qs, rfl, rfl⟩ := Option.map_eq_some_iff.mp hprocessed
  exact .cons hc hr

/-- The identities in data that may follow a call. -/
def dataUids (data : Option Node) : List String := uidsOfAll data.toList

theorem sprouts_keepCall {c : Call} {data : Option Node} (hc : AllApart (c.uids ++ dataUids data)) :
    Sprouts (c.uids ++ dataUids data) (keepCall env rec c data ctx) := by
  refine meets_bind (sprouts_reduceCallParams hrec henv hctx hc.left) fun r hr => ?_
  cases r with
  | none => exact meets_pure (stems_nil _)
  | some processed =>
    cases data with
    | none =>
      refine meets_pure ?_
      rw [Outcome.uids_value, uids_ofCall]
      exact (hr processed rfl).mono (List.subset_append_left _ _)
    | some data =>
      have hdata : AllApart data.uids := hc.right.node (by simp)
      refine meets_bind (sprouts_visit hrec henv hctx hdata) fun o ho => ?_
      cases hd : o.toNode? data.origin with
      | none => exact meets_pure (stems_nil _)
      | some d =>
        refine meets_pure ?_
        rw [← Outcome.uids_of_toNode? hd] at ho
        rw [Outcome.uids_value, uids_ofStatement]
        exact .append hc (hr processed rfl) (by simpa [dataUids] using ho)

theorem sprouts_withTrailing {us : List String} {outcome : Outcome} {data : Option Node}
    (hus : AllApart (us ++ dataUids data)) (ho : Stems us outcome.uids) :
    Sprouts (us ++ dataUids data) (withTrailing env rec outcome data ctx) := by
  cases data with
  | none => exact meets_pure (ho.mono (List.subset_append_left _ _))
  | some data =>
    have hdata : AllApart data.uids := hus.right.node (by simp)
    refine meets_bind (sprouts_visit hrec henv hctx hdata) fun trailing ht => ?_
    cases hi : outcome.toItems? with
    | none => exact meets_pure (stems_nil _)
    | some items =>
      cases hm : trailing.toItems? with
      | none => exact meets_pure (stems_nil _)
      | some more =>
        refine meets_pure ?_
        rw [← Outcome.uids_of_toItems? hi] at ho
        rw [← Outcome.uids_of_toItems? hm] at ht
        rw [Outcome.uids_ofItems, uidsOfAll_append]
        exact .append hus ho (by simpa [dataUids] using ht)

/-! ### Bindings -/

/-- A value that is bound is one whose identities are apart. -/
theorem gives_bind {c : Call} (hc : AllApart c.uids) :
    Gives Context.Apart (bind env rec c ctx) := by
  unfold bind
  split
  next name value hparams =>
    refine gives_after fun key => ?_
    have hvalue : AllApart value.uids :=
      Uid.AllApart.node (List.pairwise_cons.mp hc).2 (by simp [hparams])
    cases key with
    | ok key =>
      refine meets_bind (sprouts_visit hrec henv hctx hvalue) fun o ho => ?_
      cases hn : o.toNode? value.origin with
      | none => exact gives_after fun _ => meets_pure hctx
      | some n =>
        rw [← Outcome.uids_of_toNode? hn] at ho
        exact gives_after fun _ => meets_pure (Context.apart_bind hctx ho.apart)
    | error out =>
      cases out with
      | pending => exact gives_after fun _ => gives_after fun _ => meets_pure hctx
      | value n => exact meets_pure hctx
      | empty => exact meets_pure hctx
      | splice items => exact meets_pure hctx
  next => exact gives_after fun _ => meets_pure hctx

/-! ### Functions -/

theorem sprouts_callFunction {function : Function}
    (hfunction : function.late = true ∨ function.Stemming) {c : Call} (hc : AllApart c.uids) :
    Sprouts c.uids (callFunction env rec function c ctx) := by
  have hparams := sprouts_reduceCallParams hrec henv hctx hc
  have hkept : ∀ processed : Call, Stems c.uids processed.uids →
      Stems c.uids (Outcome.value (.ofCall processed)).uids := by
    intro processed h
    rwa [Outcome.uids_value, uids_ofCall]
  unfold callFunction
  cases hlate : function.late with
  | true =>
    simp only [if_true, henv.late, Bool.false_eq_true, if_false]
    refine gives_after fun _ => meets_bind hparams fun r hr => ?_
    cases r with
    | none => exact meets_pure (stems_nil _)
    | some processed => exact meets_pure (hkept processed (hr processed rfl))
  | false =>
    simp only [Bool.false_eq_true, if_false]
    have hstemming : function.Stemming := hfunction.resolve_left (by simp [hlate])
    refine meets_bind hparams fun r hr => ?_
    cases r with
    | none => exact meets_pure (stems_nil _)
    | some processed =>
      have hprocessed := hr processed rfl
      refine meets_bind (hstemming _ (sprouting_evaluator hrec henv) processed ctx hprocessed.apart
        hctx) fun out hout => ?_
      exact meets_ite (fun _ => gives_after fun _ => meets_pure (hkept processed hprocessed))
        fun _ => meets_pure (hprocessed.trans hout)

theorem sprouts_callNamed {c : Call} {data : Option Node}
    (hc : AllApart (c.uids ++ dataUids data)) :
    Sprouts (c.uids ++ dataUids data) (callNamed env rec c data ctx) := by
  unfold callNamed
  cases hget : Registry.get? env.registry c.function with
  | none => exact gives_after fun _ => sprouts_keepCall hrec henv hctx hc
  | some function =>
    obtain ⟨e, he, rfl⟩ := Registry.mem_of_get? hget
    refine meets_bind (sprouts_callFunction hrec henv hctx (henv.functions e he) hc.left)
      fun out hout => ?_
    have htrailing := sprouts_withTrailing hrec henv hctx hc hout
    exact meets_ite (fun _ => gives_after fun _ => htrailing) fun _ => htrailing

/-! ### Conditions -/

theorem sprouts_conditional {c : Call} {data : Option Node}
    (hc : AllApart (c.uids ++ dataUids data)) :
    Sprouts (c.uids ++ dataUids data) (conditional env rec c data ctx) := by
  unfold conditional
  split
  next condition _ =>
    refine meets_bind (Evaluator.always_requireToken layered_callless _ condition ctx)
      fun x hx => ?_
    cases x with
    | ok t =>
      refine meets_ite (fun _ => ?_) fun _ => meets_pure (stems_nil _)
      cases data with
      | none => exact gives_after fun _ => meets_pure (stems_nil _)
      | some data =>
        have hdata : AllApart data.uids := hc.right.node (by simp)
        refine (sprouts_visit hrec henv hctx hdata).imp fun o ho => ho.mono ?_
        simp [dataUids]
    | error out =>
      have hout : out.One Callless := hx
      cases out with
      | pending =>
        simp only [henv.late, Bool.false_eq_true, if_false]
        exact gives_after fun _ => sprouts_keepCall hrec henv hctx hc
      | value n => exact meets_pure (hout.stems _)
      | empty => exact meets_pure (hout.stems _)
      | splice items => exact meets_pure (hout.stems _)
  next => exact gives_after fun _ => meets_pure (stems_nil _)

/-! ### Sequences -/

theorem sprouts_plainElement {n : Node} (hn : AllApart n.uids) :
    Gives (fun r => Stems n.uids (uidsOfAll (r.1.getD [])) ∧ r.2.Apart)
      (plainElement env rec ctx n) := by
  refine meets_bind (sprouts_visit hrec henv hctx hn) fun o ho =>
    meets_map (sprouts_orKept hn ho) fun o ho => ⟨?_, hctx⟩
  cases hi : o.toItems? with
  | none => exact stems_nil _
  | some items =>
    rw [Option.getD_some, Outcome.uids_of_toItems? hi]
    exact ho

theorem sprouts_element {n : Node} (hn : AllApart n.uids) :
    Gives (fun r => Stems n.uids (uidsOfAll (r.1.getD [])) ∧ r.2.Apart)
      (element env rec ctx n) := by
  induction n generalizing ctx with
  | token t => exact sprouts_plainElement hrec henv hctx hn
  | block es o => exact sprouts_plainElement hrec henv hctx hn
  | array is o => exact sprouts_plainElement hrec henv hctx hn
  | call f ps o =>
    rw [element]
    refine meets_ite (fun _ => ?_) fun _ => sprouts_plainElement hrec henv hctx hn
    rw [uids_call] at hn
    exact meets_map (gives_bind hrec henv hctx (c := ⟨f, ps, o⟩) hn)
      fun ctx' hctx' => ⟨stems_nil _, hctx'⟩
  | statement f ps o data _ ihdata =>
    have hparts : AllApart ((⟨f, ps, o⟩ : Call).uids ++ data.uids) := by
      simpa [Call.uids] using hn
    have huids : (Node.statement f ps o data).uids = (⟨f, ps, o⟩ : Call).uids ++ data.uids := by
      simp [Call.uids]
    have hcall : AllApart (Node.call f ps o).uids := by
      simpa [Call.uids] using hparts.left
    have htail : Gives (fun r => Stems (Node.statement f ps o data).uids (uidsOfAll (r.1.getD [])) ∧
        r.2.Apart) (elementAnd env rec ctx (.call f ps o) (element env rec ctx data)) := by
      rw [huids]
      refine meets_bind (hrec env henv (.call f ps o) ctx hcall hctx) fun out hout =>
        meets_bind (sprouts_orKept hcall hout) fun out hout => ?_
      cases hi : out.toItems? with
      | none => exact meets_pure ⟨stems_nil _, hctx⟩
      | some items =>
        refine meets_map (ihdata hctx hparts.right) fun r hr => ⟨?_, hr.2⟩
        obtain ⟨more, ctx'⟩ := r
        cases more with
        | none => exact stems_nil _
        | some more =>
          rw [← Outcome.uids_of_toItems? hi, uids_call] at hout
          simpa using Stems.append hparts hout hr.1
    rw [element_statement]
    refine meets_ite (fun _ => ?_) fun _ => meets_ite (fun _ => ?_) fun _ =>
      sprouts_plainElement hrec henv hctx hn
    · refine meets_bind (gives_bind hrec henv hctx hparts.left) fun ctx' hctx' =>
        (ihdata hctx' hparts.right).imp fun r hr => ⟨?_, hr.2⟩
      rw [huids]
      exact hr.1.mono (List.subset_append_right _ _)
    · exact meets_ite (fun _ => gives_after fun _ => htail) fun _ => htail

theorem sprouts_elements {ns : List Node} (hns : AllApart (uidsOfAll ns)) :
    Gives (fun r => Stems (uidsOfAll ns) (uidsOfAll (r.getD []))) (elements env rec ctx ns) := by
  induction ns generalizing ctx with
  | nil => exact meets_pure (stems_nil _)
  | cons n ns ih =>
    rw [uidsOfAll_cons] at hns ⊢
    refine meets_bind (sprouts_element hrec henv hctx hns.left) fun r hr => ?_
    obtain ⟨items, ctx'⟩ := r
    cases items with
    | none => exact meets_pure (stems_nil _)
    | some items =>
      refine meets_map (ih hr.2 hns.right) fun r' hr' => ?_
      cases r' with
      | none => exact stems_nil _
      | some more => simpa using Stems.append hns hr.1 hr'

theorem sprouts_entries {es : List (Token × Node)} (hes : AllApart (uidsOfEntries es)) :
    Gives (fun r => Stems (uidsOfEntries es) (uidsOfEntries (r.getD [])))
      (entries env rec ctx es) := by
  induction es with
  | nil => exact meets_pure (stems_nil _)
  | cons e es ih =>
    obtain ⟨k, n⟩ := e
    rw [uidsOfEntries_cons] at hes ⊢
    have hmore : ∀ m : Node, Stems n.uids m.uids →
        Gives (fun r => Stems (n.uids ++ uidsOfEntries es) (uidsOfEntries (r.getD [])))
          (entries env rec ctx es >>= fun r => pure (r.map ((k, m) :: ·))) := by
      refine fun m hm => meets_map (ih hes.right) fun r hr => ?_
      cases r with
      | none => exact stems_nil _
      | some more => exact .append hes hm hr
    refine meets_bind (sprouts_visit hrec henv hctx hes.left) fun o ho =>
      meets_bind (sprouts_orKept hes.left ho) fun o ho => ?_
    cases o with
    | value m => exact hmore m (by simpa using ho)
    | empty =>
      exact (ih hes.right).imp fun r hr => hr.mono (List.subset_append_right _ _)
    | splice items => exact hmore (.array items n.origin) (by simpa using ho)
    | pending => exact meets_pure (stems_nil _)

/-! ### Includes -/

omit hrec henv hctx in
theorem sprouts_notIncluded {us : List String} (c : Call) (problem : Problem) :
    Sprouts us (notIncluded c problem) :=
  gives_after fun _ => meets_pure (stems_nil _)

/-- The overrides of an `Include`: values to bind, or an outcome that stems from the call. -/
theorem gives_overrides {c : Call} (hc : AllApart c.uids) {params : List Node}
    (hparams : ∀ p ∈ params, AllApart p.uids) :
    Gives (fun r => match r with
        | .ok es => ∀ e ∈ es, AllApart e.2.uids
        | .error out => Stems c.uids out.uids)
      (overrides env rec c ctx params) := by
  let P (r : Except Outcome (List (Token × Node))) : Prop := match r with
    | .ok es => ∀ e ∈ es, AllApart e.2.uids
    | .error out => Stems c.uids out.uids
  have hnone : P (.ok []) := by simp [P]
  have hwrong : ∀ param found,
      Gives P (do return Except.error (← overrides.wrong c param found)) := fun param found =>
    meets_map (P := fun out => Stems c.uids out.uids)
      (gives_after fun _ => meets_pure (stems_nil _)) fun _ h => h
  cases params with
  | nil => exact meets_pure hnone
  | cons param others =>
    refine meets_bind (sprouts_visit hrec henv hctx (hparams param (by simp))) fun out hout => ?_
    cases out with
    | empty => exact hwrong param .nothing
    | splice items => exact hwrong param .array
    | pending =>
      simp only [henv.late, Bool.false_eq_true, if_false]
      have hkept : Sprouts (c.uids ++ dataUids none) (keepCall env rec c none ctx) :=
        sprouts_keepCall hrec henv hctx (by simpa [dataUids] using hc)
      exact meets_map hkept fun o ho => ho.mono (by simp [dataUids])
    | value n =>
      have hnull := meets_ite (c := n.isNull = true) (fun _ => meets_pure hnone)
        fun _ => hwrong param n.kind
      cases n with
      | block es o =>
        have hes : AllApart (uidsOfEntries es) := by simpa using hout.apart
        exact meets_pure fun e he => hes.entry he
      | token t => exact hnull
      | call f ps o => exact hnull
      | statement f ps o d => exact hnull
      | array is o => exact hnull

/-- **An included file** has identities that are marked with that of the `Include`, so that the
same file may be included any number of times. -/
theorem sprouts_includeText (c : Call) (file text : String) :
    Sprouts c.uids (includeText env rec c file text ctx) := by
  have hwithin : (env.within file).Sprouts := ⟨henv.late, henv.functions⟩
  have hmarked : Stems [c.origin.uid] (uidsOfAll (markUids (c.origin.uid ++ ">")
      (parseText text file env.settings.uniqueId).1)) := by
    rw [uidsOfAll_markUids]
    exact stems_marked _ (apart_parseText text file env.settings.uniqueId)
  refine gives_after fun _ => gives_after fun _ =>
    meets_bind (sprouts_elements hrec hwithin hctx hmarked.apart) fun r hr => ?_
  cases r with
  | none => exact meets_pure (stems_nil _)
  | some items =>
    refine meets_pure ?_
    rw [Outcome.uids_spliced]
    exact (hmarked.trans hr).mono (by simp [Call.uids])

theorem sprouts_includeFile (c : Call) (file : String) :
    Sprouts c.uids (includeFile env rec c file ctx) := by
  refine meets_ite (fun _ => sprouts_notIncluded c _) fun _ =>
    meets_ite (fun _ => sprouts_notIncluded c _) fun _ => gives_after fun text => ?_
  cases text with
  | none => exact sprouts_notIncluded c _
  | some text => exact sprouts_includeText hrec henv hctx c file text

theorem sprouts_includeCall {c : Call} (hc : AllApart c.uids) :
    Sprouts c.uids (includeCall env rec c ctx) := by
  unfold includeCall
  split
  next => exact sprouts_notIncluded c _
  next path others hparams =>
    refine meets_ite (fun _ => sprouts_notIncluded c _) fun _ =>
      meets_bind (Evaluator.always_requireToken layered_callless _ path ctx) fun x hx => ?_
    cases x with
    | ok t =>
      have hothers : ∀ p ∈ others, AllApart p.uids := fun p hp =>
        Uid.AllApart.node (List.pairwise_cons.mp hc).2 (by simp [hparams, hp])
      refine meets_bind (gives_overrides hrec henv hctx hc hothers) fun r hr => ?_
      cases r with
      | error out => exact meets_pure hr
      | ok es => exact sprouts_includeFile hrec henv (Context.apart_overlay hctx hr) c _
    | error out =>
      have hout : out.One Callless := hx
      cases out with
      | pending =>
        simp only [henv.late, Bool.false_eq_true, if_false]
        refine gives_after fun _ => ?_
        have hkept : Sprouts (c.uids ++ dataUids none) (keepCall env rec c none ctx) :=
          sprouts_keepCall hrec henv hctx (by simpa [dataUids] using hc)
        exact hkept.imp fun o ho => ho.mono (by simp [dataUids])
      | value n => exact meets_pure (hout.stems _)
      | empty => exact meets_pure (hout.stems _)
      | splice items => exact meets_pure (hout.stems _)

/-! ### One node -/

theorem sprouts_call {c : Call} {data : Option Node} (hc : AllApart (c.uids ++ dataUids data)) :
    Sprouts (c.uids ++ dataUids data) (call env rec c data ctx) := by
  unfold call
  refine meets_ite (fun _ => ?_) fun _ => meets_ite (fun _ => sprouts_conditional hrec henv hctx hc)
    fun _ => meets_ite (fun _ => ?_) fun _ => sprouts_callNamed hrec henv hctx hc
  · exact meets_bind (sprouts_includeCall hrec henv hctx hc.left) fun out hout =>
      sprouts_withTrailing hrec henv hctx hc hout
  · refine meets_bind (gives_bind hrec henv hctx hc.left) fun ctx' hctx' => ?_
    cases data with
    | none => exact meets_pure (stems_nil _)
    | some data =>
      have hdata : AllApart data.uids := hc.right.node (by simp)
      refine (sprouts_visit hrec henv hctx' hdata).imp fun o ho => ho.mono ?_
      simp [dataUids]

end

/-- One step keeps identities apart, if the steps within do. -/
theorem sprouts_step {rec : Reducer} (hrec : SproutingReducer rec) :
    SproutingReducer (step rec) := by
  intro env henv node ctx hn hctx
  cases node with
  | token t => exact meets_pure (by simpa using stems_nil _)
  | array is o =>
    rw [uids_array] at hn ⊢
    refine meets_bind (sprouts_elements hrec henv hctx hn) fun r hr => ?_
    cases r with
    | none => exact meets_pure (stems_nil _)
    | some items => exact meets_pure (by simpa using hr)
  | block es o =>
    rw [uids_block] at hn ⊢
    refine meets_bind (sprouts_entries hrec henv hctx hn) fun r hr => ?_
    cases r with
    | none => exact meets_pure (stems_nil _)
    | some fs => exact meets_pure (by simpa using hr)
  | call f ps o =>
    have huids : (Node.call f ps o).uids = (⟨f, ps, o⟩ : Call).uids ++ dataUids none := by
      simp [Call.uids, dataUids]
    rw [huids] at hn ⊢
    exact sprouts_call hrec henv hctx hn
  | statement f ps o data =>
    have huids : (Node.statement f ps o data).uids =
        (⟨f, ps, o⟩ : Call).uids ++ dataUids (some data) := by
      simp [Call.uids, dataUids]
    rw [huids] at hn ⊢
    exact sprouts_call hrec henv hctx hn

theorem sprouts_inContext (limit : Nat) : SproutingReducer (inContext limit) := by
  induction limit with
  | zero => exact fun _ _ _ _ _ _ => meets_halt _ id
  | succ limit ih => exact sprouts_step ih

/-- **What the loading pass makes of a node stems from it.** -/
theorem sprouts_reduce {env : Surroundings} (henv : env.Sprouts) {node : Node} {ctx : Context}
    (hn : AllApart node.uids) (hctx : ctx.Apart) : Sprouts node.uids (reduce env node ctx) :=
  sprouts_visit (sprouts_inContext env.limit) henv hctx hn

end Reduce

end ContentLang
