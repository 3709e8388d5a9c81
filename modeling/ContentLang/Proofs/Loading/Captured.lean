import ContentLang.Proofs.Deferral.Builds
import ContentLang.Proofs.Loading.Settling
import ContentLang.Proofs.Identity.Functions
import ContentLang.Proofs.Loading.Ready
import ContentLang.Proofs.Walk.InTurn

/-!
# What the loading pass leaves has captured its bindings

Where something is bound, each call that the loading pass leaves has captured what is bound there
(`ContentLang.Node.Captured`). That does not depend on the values that are bound, as a value is
reduced again wherever it is read.

A node that has captured its bindings is consumed alike in all contexts
(`ContentLang.Reduce.tracked_context`): the calls in it do not look at the context that they are
reduced in, and nothing else does.
-/

namespace ContentLang

open Node Reduce Walk

/-- **Whether each call in a node has captured some bindings**, those in parameters and in data
aside, which are reduced in these. -/
inductive Node.Captured : Node → Prop
  | token (t : Token) : Captured (.token t)
  | call {f : String} {ps : List Node} {o : Origin} (ho : o.context ≠ []) :
    Captured (.call f ps o)
  | statement {f : String} {ps : List Node} {o : Origin} {data : Node} (ho : o.context ≠ []) :
    Captured (.statement f ps o data)
  | block {es : List (Token × Node)} {o : Origin} (hes : ∀ e ∈ es, Captured e.2) :
    Captured (.block es o)
  | array {is : List Node} {o : Origin} (his : ∀ i ∈ is, Captured i) : Captured (.array is o)

namespace Node

@[simp] theorem captured_array {is : List Node} {o : Origin} :
    (array is o).Captured ↔ ∀ i ∈ is, i.Captured :=
  ⟨fun h => by cases h with | array his => exact his, .array⟩

@[simp] theorem captured_block {es : List (Token × Node)} {o : Origin} :
    (block es o).Captured ↔ ∀ e ∈ es, e.2.Captured :=
  ⟨fun h => by cases h with | block hes => exact hes, .block⟩

theorem layered_captured : Layered (fun _ => True) Captured Captured where
  token := .token
  array := by simp
  block := by simp

end Node

/-- Whether the nodes of an outcome have captured their bindings. -/
def Outcome.Captured (o : Outcome) : Prop := ∀ n ∈ o.nodes, n.Captured

namespace Outcome

variable {o : Outcome} {origin : Origin} {n : Node} {items : List Node}

theorem captured_value (h : n.Captured) : (value n).Captured := by simpa [Captured] using h

theorem captured_token (t : Token) : (value (.token t)).Captured := captured_value (.token t)

theorem captured_empty : empty.Captured := by simp [Captured]

theorem captured_pending : pending.Captured := by simp [Captured]

theorem captured_ofItems (h : ∀ i ∈ items, i.Captured) : (ofItems items).Captured := by
  match items with
  | [] => exact captured_empty
  | [_] => exact h
  | _ :: _ :: _ => exact h

theorem Captured.toNode (h : o.Captured) (hn : o.toNode? origin = some n) : n.Captured := by
  cases o with
  | value m =>
    obtain rfl : m = n := Option.some.inj hn
    exact h m (by simp)
  | empty =>
    obtain rfl : Node.token (.null origin) = n := Option.some.inj hn
    exact .token _
  | splice items =>
    obtain rfl : Node.array items origin = n := Option.some.inj hn
    exact .array h
  | pending => exact nomatch hn

theorem Captured.toItems (h : o.Captured) (hitems : o.toItems? = some items) :
    ∀ i ∈ items, i.Captured := by
  cases o with
  | value m =>
    obtain rfl : [m] = items := Option.some.inj hitems
    exact h
  | empty =>
    obtain rfl : [] = items := Option.some.inj hitems
    simp
  | splice _ =>
    obtain rfl := Option.some.inj hitems
    exact h
  | pending => exact nomatch hitems

/-- What a function makes of nodes has captured what they have. -/
theorem One.captured (h : o.One Node.Captured) : o.Captured := by
  cases o with
  | value n => exact captured_value h
  | empty => exact captured_empty
  | splice items => exact h.elim
  | pending => exact captured_pending

end Outcome

/-! ### Functions -/

/-- Whether what a walk gives has captured its bindings. -/
abbrev Captures (m : Walk Outcome) : Prop := Gives Outcome.Captured m

/-- Whether a way to reduce nodes lets them capture what is bound, if anything is. -/
def Capturing (reduce : Node → Context → Walk Outcome) : Prop :=
  ∀ node (ctx : Context), ctx ≠ [] → Captures (reduce node ctx)

/-- **Whether what a function gives has captured its bindings**, if what its evaluator reduces
has. -/
def Function.Capturing (f : Function) : Prop :=
  ∀ ev : Evaluator, ContentLang.Capturing ev.reduce →
    ∀ (call : Call) (ctx : Context), ctx ≠ [] → Captures (f.reduce ev call ctx)

section

variable {α : Type} {Q : α → Prop}

theorem captures_of_one {m : Walk Outcome} (h : Always (Outcome.One Node.Captured) m) :
    Captures m :=
  h.imp fun _ => Outcome.One.captured

theorem captures_given {m : Walk (Except Outcome α)} {f : α → Walk Outcome}
    (hm : Always (Gathers Node.Captured Q) m) (hf : ∀ a, Q a → Captures (f a)) :
    Captures (m.given f) := by
  refine meets_bind hm fun r hr => ?_
  cases r with
  | ok a => exact hf a hr
  | error o => exact meets_pure (Outcome.One.captured hr)

theorem captures_withFirst {call : Call} {expected : Arity} {f : Node → List Node → Walk Outcome}
    (hf : ∀ first others, call.params = first :: others → Captures (f first others)) :
    Captures (Evaluator.withFirst call expected f) := by
  have hwrong : Captures (Evaluator.wrongArity call expected) :=
    captures_of_one (Evaluator.always_wrongArity layered_captured call expected)
  unfold Evaluator.withFirst
  split
  next first others hparams => exact meets_ite (fun _ => hf first others hparams) fun _ => hwrong
  next => exact hwrong

end

namespace Library

theorem capturing_assetWith (f : Evaluator → String → Walk String) : (assetWith f).Capturing := by
  intro ev _ call ctx _
  refine captures_withFirst fun path others _ =>
    captures_given (Evaluator.always_requireToken layered_captured ev path ctx) fun t _ => ?_
  exact gives_after fun _ => meets_pure (Outcome.captured_token _)

theorem capturing_concatenate : concatenate.Capturing := by
  intro ev _ call ctx _
  exact captures_given (Evaluator.always_requireTokens layered_captured ev call.params ctx)
    fun ts _ => meets_pure (Outcome.captured_token _)

theorem capturing_join : join.Capturing := by
  intro ev _ call ctx _
  refine captures_withFirst fun separator items _ =>
    captures_given (Evaluator.always_requireToken layered_captured ev separator ctx) fun t _ => ?_
  have htexts : Always (Gathers Node.Captured fun _ : List String => True)
      (collectAll (collect ev ctx ev.limit) items) :=
    always_collectAll (always_collect layered_captured ev ctx ev.limit) items
  exact captures_given htexts fun texts _ => meets_pure (Outcome.captured_token _)

theorem capturing_record (k : RecordKind) : (record k).Capturing := by
  intro ev _ call ctx _
  refine captures_of_one (meets_ite (fun _ => ?_) fun _ =>
    Evaluator.always_wrongArity layered_captured call _)
  have hentries := always_recordEntries layered_captured Node.Captured.token ev call ctx k.component
    k.fields call.params
  exact always_given hentries fun es hes => meets_pure (layered_captured.block.mpr ⟨trivial, hes⟩)

/-! ### Collections -/

theorem captures_combineAll {ev : Evaluator} (hev : Capturing ev.reduce) (call : Call)
    {ctx : Context} (hctx : ctx ≠ []) {acc : Combined} (hacc : acc.All Node.Captured)
    (ps : List Node) :
    Always (Gathers Node.Captured (Combined.All Node.Captured))
      (combineAll ev call ctx acc ps) := by
  induction ps generalizing acc with
  | nil => exact meets_pure hacc
  | cons p ps ih =>
    have hnode : ∀ node : Node, node.Captured →
        Always (Gathers Node.Captured (Combined.All Node.Captured))
          ((combineNode ev call p acc node).also fun acc => combineAll ev call ctx acc ps) :=
      fun node hn => always_also (always_combineNode layered_captured ev call p hacc hn)
        fun acc hacc => ih hacc
    refine meets_bind (hev p ctx hctx) fun o ho => ?_
    cases o with
    | pending => exact meets_pure trivial
    | empty => exact ih hacc
    | splice items => exact hnode (.array items p.origin) (.array ho)
    | value n => exact meets_ite (fun _ => ih hacc) fun _ => hnode n (ho n (by simp))

theorem capturing_combine : combine.Capturing := by
  intro ev hev call ctx hctx
  have hacc : Combined.nothing.All Node.Captured := trivial
  refine captures_given (captures_combineAll hev call hctx hacc call.params) fun acc hacc => ?_
  cases acc with
  | nothing => exact meets_pure Outcome.captured_empty
  | items ns => exact meets_pure (Outcome.captured_value (.array hacc))
  | entries es => exact meets_pure (Outcome.captured_value (.block hacc))

theorem capturing_remove : remove.Capturing := by
  intro ev hev call ctx hctx
  refine captures_withFirst fun collection tokens _ => ?_
  have htokens := Evaluator.always_requireTokens layered_captured ev tokens ctx
  refine captures_given htokens fun removed _ => ?_
  have hinvalid : ∀ fault, Captures (Evaluator.invalidArgument call collection fault) :=
    fun fault => captures_of_one (Evaluator.always_invalidArgument layered_captured _ _ fault)
  refine meets_bind (hev collection ctx hctx) fun o ho => ?_
  cases o with
  | pending => exact meets_pure Outcome.captured_pending
  | empty => exact hinvalid _
  | splice items => exact hinvalid _
  | value n =>
    have hother : Captures (if ev.isDeferred n then return .pending
        else Evaluator.invalidArgument call collection (.notACollection n.kind)) :=
      meets_ite (fun _ => meets_pure Outcome.captured_pending) fun _ => hinvalid _
    have hn : n.Captured := ho n (by simp)
    cases n with
    | token t => exact hother
    | call f ps o => exact hother
    | statement f ps o d => exact hother
    | array is o =>
      refine meets_map (gives_withoutElements ev ctx removed is) fun r hr => ?_
      exact Outcome.captured_value (.array fun i hi => captured_array.mp hn i (hr.subset hi))
    | block es o =>
      exact meets_pure (Outcome.captured_value
        (.block fun e he => captured_block.mp hn e (mem_of_withoutKeys he)))

/-- A value that is read is reduced where it is read, and so is a default. -/
theorem capturing_readBinding : readBinding.Capturing := by
  intro ev hev call ctx hctx
  refine captures_withFirst fun name others _ =>
    captures_given (Evaluator.always_requireToken layered_captured ev name ctx) fun t _ => ?_
  cases Context.get? ctx t with
  | some value => exact hev _ ctx hctx
  | none =>
    cases others with
    | nil => exact gives_after fun _ => meets_pure (Outcome.captured_token _)
    | cons fallback others => exact hev fallback ctx hctx

end Library

/-- **What the functions of the language that are not late give has captured its bindings.** -/
theorem Function.capturing_builtin : ∀ e ∈ Registry.builtin, e.2.late = true ∨ e.2.Capturing := by
  open Library in
  simp only [Registry.builtin, List.forall_mem_cons]
  exact ⟨.inr (capturing_assetWith _), .inr (capturing_assetWith _), .inr capturing_concatenate,
    .inr capturing_join, .inl rfl, .inl rfl, .inl rfl, .inr capturing_combine,
    .inr capturing_remove, .inr (capturing_record _), .inr (capturing_record _),
    .inr (capturing_record _), .inr (capturing_record _), .inr capturing_readBinding, by simp⟩

/-! ### Reduction -/

theorem Entries.insert_ne_nil {κ ν : Type} [BEq κ] (m : Entries κ ν) (k : κ) (v : ν) :
    Entries.insert m k v ≠ [] := by
  unfold Entries.insert
  split <;> simp

theorem Entries.overlay_ne_nil {κ ν : Type} [BEq κ] {m : Entries κ ν} (h : m ≠ [])
    (es : Entries κ ν) : Entries.overlay m es ≠ [] := by
  induction es generalizing m with
  | nil => exact h
  | cons e es ih => exact ih (insert_ne_nil m e.1 e.2)

theorem Context.bind_ne_nil (ctx : Context) (name : Token) (value : Node) :
    ctx.bind name value ≠ [] := Entries.insert_ne_nil _ _ _

namespace Reduce

/-- Whether a way to reduce nodes lets them capture what is bound, in the loading pass. -/
def CapturingReducer (rec : Reducer) : Prop :=
  ∀ env : Surroundings, env.late = false →
    (∀ e ∈ env.registry, e.2.late = true ∨ e.2.Capturing) → Capturing (rec env)

section

variable {rec : Reducer} (hrec : CapturingReducer rec) {env : Surroundings}
  (hlate : env.late = false)
  (hfunctions : ∀ e ∈ env.registry, e.2.late = true ∨ e.2.Capturing) {ctx : Context}
  (hctx : ctx ≠ [])
include hrec hlate hfunctions

theorem capturing_evaluator : Capturing (evaluator env rec).reduce := by
  intro node ctx hctx
  show Captures (visit env rec node ctx)
  rw [visit_loading hlate]
  exact hrec env hlate hfunctions node ctx hctx

include hctx

theorem captures_visit (n : Node) : Captures (visit env rec n ctx) :=
  capturing_evaluator hrec hlate hfunctions n ctx hctx

/-! ### What is kept -/

omit hrec hlate hfunctions in
theorem captures_reduceCallParams (c : Call) :
    Gives (fun r => ∀ processed, r = some processed → processed.origin.context ≠ [])
      (reduceCallParams env rec c ctx) := by
  refine meets_map (gives_any _) fun r _ => ?_
  rintro processed hprocessed
  obtain ⟨qs, -, rfl⟩ := Option.map_eq_some_iff.mp hprocessed
  exact hctx

omit hrec hlate hfunctions in
theorem captures_keepCall (c : Call) (data : Option Node) :
    Captures (keepCall env rec c data ctx) := by
  refine meets_bind (captures_reduceCallParams hctx c) fun r hr => ?_
  cases r with
  | none => exact meets_pure Outcome.captured_pending
  | some processed =>
    have hprocessed := hr processed rfl
    cases data with
    | none => exact meets_pure (Outcome.captured_value (.call hprocessed))
    | some data =>
      refine gives_after fun o => ?_
      cases o.toNode? data.origin with
      | none => exact meets_pure Outcome.captured_pending
      | some d => exact meets_pure (Outcome.captured_value (.statement hprocessed))

theorem captures_withTrailing {outcome : Outcome} (ho : outcome.Captured) (data : Option Node) :
    Captures (withTrailing env rec outcome data ctx) := by
  cases data with
  | none => exact meets_pure ho
  | some data =>
    refine meets_bind (captures_visit hrec hlate hfunctions hctx data) fun trailing ht => ?_
    cases hi : outcome.toItems? with
    | none => exact meets_pure Outcome.captured_pending
    | some items =>
      cases hm : trailing.toItems? with
      | none => exact meets_pure Outcome.captured_pending
      | some more =>
        exact meets_pure (Outcome.captured_ofItems
          (List.forall_mem_append.mpr ⟨ho.toItems hi, ht.toItems hm⟩))

/-! ### Calls -/

omit hrec hlate hfunctions in
/-- Where something is bound, something is bound after a binding. -/
theorem gives_bind_ne_nil (c : Call) : Gives (· ≠ []) (bind env rec c ctx) := by
  unfold bind
  split
  next name value _ =>
    refine gives_after fun key => ?_
    cases key with
    | ok key =>
      refine gives_after fun o => ?_
      cases o.toNode? value.origin with
      | none => exact gives_after fun _ => meets_pure hctx
      | some n => exact gives_after fun _ => meets_pure (Context.bind_ne_nil _ _ _)
    | error out =>
      cases out with
      | pending => exact gives_after fun _ => gives_after fun _ => meets_pure hctx
      | value n => exact meets_pure hctx
      | empty => exact meets_pure hctx
      | splice items => exact meets_pure hctx
  next => exact gives_after fun _ => meets_pure hctx

theorem captures_callFunction {function : Function}
    (hfunction : function.late = true ∨ function.Capturing) (c : Call) :
    Captures (callFunction env rec function c ctx) := by
  have hparams : Gives (fun r => ∀ processed, r = some processed → processed.origin.context ≠ [])
      (reduceCallParams env rec c ctx) := captures_reduceCallParams hctx c
  unfold callFunction
  cases hcall : function.late with
  | true =>
    simp only [if_true, hlate, Bool.false_eq_true, if_false]
    refine gives_after fun _ => meets_bind hparams fun r hr => ?_
    cases r with
    | none => exact meets_pure Outcome.captured_pending
    | some processed => exact meets_pure (Outcome.captured_value (.call (hr processed rfl)))
  | false =>
    simp only [Bool.false_eq_true, if_false]
    have hcapturing : function.Capturing := hfunction.resolve_left (by simp [hcall])
    refine meets_bind hparams fun r hr => ?_
    cases r with
    | none => exact meets_pure Outcome.captured_pending
    | some processed =>
      refine meets_bind
        (hcapturing _ (capturing_evaluator hrec hlate hfunctions) processed ctx hctx)
        fun out hout => meets_ite (fun _ => gives_after fun _ => ?_) fun _ => meets_pure hout
      exact meets_pure (Outcome.captured_value (.call (hr processed rfl)))

theorem captures_callNamed (c : Call) (data : Option Node) :
    Captures (callNamed env rec c data ctx) := by
  unfold callNamed
  cases hget : Registry.get? env.registry c.function with
  | none => exact gives_after fun _ => captures_keepCall hctx c data
  | some function =>
    obtain ⟨e, he, rfl⟩ := Registry.mem_of_get? hget
    refine meets_bind (captures_callFunction hrec hlate hfunctions hctx (hfunctions e he) c)
      fun out hout => ?_
    have htrailing := captures_withTrailing hrec hlate hfunctions hctx hout data
    exact meets_ite (fun _ => gives_after fun _ => htrailing) fun _ => htrailing

theorem captures_conditional (c : Call) (data : Option Node) :
    Captures (conditional env rec c data ctx) := by
  unfold conditional
  split
  next condition _ =>
    refine meets_bind (Evaluator.always_requireToken layered_captured _ condition ctx)
      fun x hx => ?_
    cases x with
    | ok t =>
      refine meets_ite (fun _ => ?_) fun _ => meets_pure Outcome.captured_empty
      cases data with
      | none => exact gives_after fun _ => meets_pure Outcome.captured_empty
      | some data => exact captures_visit hrec hlate hfunctions hctx data
    | error out =>
      have hout : out.One Node.Captured := hx
      cases out with
      | pending =>
        simp only [hlate, Bool.false_eq_true, if_false]
        exact gives_after fun _ => captures_keepCall hctx c data
      | value n => exact meets_pure hout.captured
      | empty => exact meets_pure hout.captured
      | splice items => exact meets_pure hout.captured
  next => exact gives_after fun _ => meets_pure (Outcome.captured_token _)

/-! ### Sequences -/

variable (hready : ReadyReducer rec)
include hready

/-- What is not pending is not kept as it stands. -/
theorem captures_visitKept (n : Node) :
    Captures (visit env rec n ctx >>= fun o => orKept env o n ctx) := by
  refine meets_bind ((captures_visit hrec hlate hfunctions hctx n).and
    (ready_visit hready hlate n) fun _ h => h) fun o ho => ?_
  rw [orKept_of_ready ho.2]
  exact meets_pure ho.1

/-- What an element gives has captured its bindings, and something is bound after it. -/
abbrev CapturedElement (r : Option (List Node) × Context) : Prop :=
  (∀ items, r.1 = some items → ∀ i ∈ items, i.Captured) ∧ r.2 ≠ []

theorem captures_plainElement (n : Node) :
    Gives CapturedElement (plainElement env rec ctx n) := by
  unfold plainElement
  rw [← bind_assoc]
  exact meets_map (captures_visitKept hrec hlate hfunctions hctx hready n)
    fun o ho => ⟨fun items hitems => ho.toItems hitems, hctx⟩

theorem captures_element (n : Node) : Gives CapturedElement (element env rec ctx n) := by
  induction n generalizing ctx with
  | token t => exact captures_plainElement hrec hlate hfunctions hctx hready _
  | block es o => exact captures_plainElement hrec hlate hfunctions hctx hready _
  | array is o => exact captures_plainElement hrec hlate hfunctions hctx hready _
  | call f ps o =>
    rw [element]
    refine meets_ite (fun _ => ?_) fun _ =>
      captures_plainElement hrec hlate hfunctions hctx hready _
    refine meets_map (gives_bind_ne_nil hctx ⟨f, ps, o⟩) fun ctx' hctx' => ⟨?_, hctx'⟩
    rintro items hitems
    obtain rfl : [] = items := Option.some.inj hitems
    simp
  | statement f ps o data _ ihdata =>
    have htail : Gives CapturedElement
        (elementAnd env rec ctx (.call f ps o) (element env rec ctx data)) := by
      unfold elementAnd
      rw [← visit_loading hlate rec, ← bind_assoc]
      refine meets_bind (captures_visitKept hrec hlate hfunctions hctx hready (.call f ps o))
        fun out hout => ?_
      cases hi : out.toItems? with
      | none => exact meets_pure ⟨by simp, hctx⟩
      | some items =>
        refine meets_map (ihdata hctx) fun r hr => ⟨?_, hr.2⟩
        rintro all hall
        obtain ⟨more, hmore, rfl⟩ := Option.map_eq_some_iff.mp hall
        exact List.forall_mem_append.mpr ⟨hout.toItems hi, hr.1 more hmore⟩
    rw [element_statement]
    refine meets_ite (fun _ => ?_) fun _ => meets_ite (fun _ => ?_) fun _ =>
      captures_plainElement hrec hlate hfunctions hctx hready _
    · exact meets_bind (gives_bind_ne_nil hctx ⟨f, ps, o⟩) fun ctx' hctx' => ihdata hctx'
    · exact meets_ite (fun _ => gives_after fun _ => htail) fun _ => htail

theorem captures_elements (ns : List Node) :
    Gives (fun r => ∀ items, r = some items → ∀ i ∈ items, i.Captured)
      (elements env rec ctx ns) := by
  induction ns generalizing ctx with
  | nil =>
    refine meets_pure fun items hitems => ?_
    obtain rfl : [] = items := Option.some.inj hitems
    simp
  | cons n ns ih =>
    refine meets_bind (captures_element hrec hlate hfunctions hctx hready n) fun r hr => ?_
    obtain ⟨items, ctx'⟩ := r
    cases items with
    | none => exact meets_pure (by simp)
    | some items =>
      refine meets_map (ih hr.2) fun r' hr' => ?_
      rintro all hall
      obtain ⟨more, hmore, rfl⟩ := Option.map_eq_some_iff.mp hall
      exact List.forall_mem_append.mpr ⟨hr.1 items rfl, hr' more hmore⟩

theorem captures_entries (es : List (Token × Node)) :
    Gives (fun r => ∀ fs, r = some fs → ∀ e ∈ fs, e.2.Captured) (entries env rec ctx es) := by
  induction es with
  | nil =>
    refine meets_pure fun fs hfs => ?_
    obtain rfl : [] = fs := Option.some.inj hfs
    simp
  | cons e es ih =>
    obtain ⟨k, n⟩ := e
    have hmore : ∀ m : Node, m.Captured →
        Gives (fun r => ∀ fs, r = some fs → ∀ e ∈ fs, e.2.Captured)
          (entries env rec ctx es >>= fun r => pure (r.map ((k, m) :: ·))) := by
      refine fun m hm => meets_map ih fun r hr => ?_
      rintro fs hfs
      obtain ⟨more, hmore, rfl⟩ := Option.map_eq_some_iff.mp hfs
      exact List.forall_mem_cons.mpr ⟨hm, hr more hmore⟩
    unfold entries
    rw [← bind_assoc]
    refine meets_bind (captures_visitKept hrec hlate hfunctions hctx hready n) fun o ho => ?_
    cases o with
    | value m => exact hmore m (ho m (by simp))
    | empty => exact ih
    | splice items => exact hmore (.array items n.origin) (.array ho)
    | pending => exact meets_pure (by simp)

/-! ### Includes -/

omit hrec hlate hfunctions hctx hready in
theorem captures_notIncluded (c : Call) (problem : Problem) : Captures (notIncluded c problem) :=
  gives_after fun _ => meets_pure (Outcome.captured_token _)

omit hrec hfunctions hready in
theorem captures_overrides (c : Call) (params : List Node) :
    Gives (fun r => ∀ out, r = .error out → out.Captured) (overrides env rec c ctx params) := by
  let P (r : Except Outcome (List (Token × Node))) : Prop := ∀ out, r = .error out → out.Captured
  have hwrong : ∀ param found,
      Gives P (do return Except.error (← overrides.wrong c param found)) := fun param found =>
    meets_map (P := Outcome.Captured) (gives_after fun _ => meets_pure (Outcome.captured_token _))
      fun o ho out hout => Except.error.inj hout ▸ ho
  have hok : ∀ es, Gives P (pure (.ok es)) := fun es => meets_pure fun _ h => nomatch h
  cases params with
  | nil => exact hok []
  | cons param others =>
    refine gives_after fun out => ?_
    cases out with
    | empty => exact hwrong param .nothing
    | splice items => exact hwrong param .array
    | pending =>
      simp only [hlate, Bool.false_eq_true, if_false]
      exact meets_map (captures_keepCall hctx c none)
        fun o ho out hout => Except.error.inj hout ▸ ho
    | value n =>
      have hnull := meets_ite (c := n.isNull = true) (fun _ => hok []) fun _ => hwrong param n.kind
      cases n with
      | block es o => exact hok es
      | token t => exact hnull
      | call f ps o => exact hnull
      | statement f ps o d => exact hnull
      | array is o => exact hnull

theorem captures_includeText (c : Call) (file text : String) :
    Captures (includeText env rec c file text ctx) := by
  have hwithin : (env.within file).late = false := hlate
  refine gives_after fun _ => gives_after fun _ =>
    meets_bind (captures_elements hrec hwithin hfunctions hctx hready _) fun r hr => ?_
  cases r with
  | none => exact meets_pure Outcome.captured_pending
  | some items =>
    refine meets_pure ?_
    have hitems := hr items rfl
    unfold spliced
    split
    next is o => exact captured_array.mp (hitems (.array is o) (by simp))
    next => exact Outcome.captured_ofItems hitems

theorem captures_includeFile (c : Call) (file : String) :
    Captures (includeFile env rec c file ctx) := by
  refine meets_ite (fun _ => captures_notIncluded c _) fun _ =>
    meets_ite (fun _ => captures_notIncluded c _) fun _ => gives_after fun text => ?_
  cases text with
  | none => exact captures_notIncluded c _
  | some text => exact captures_includeText hrec hlate hfunctions hctx hready c file text

theorem captures_includeCall (c : Call) : Captures (includeCall env rec c ctx) := by
  unfold includeCall
  split
  next => exact captures_notIncluded c _
  next path others _ =>
    refine meets_ite (fun _ => captures_notIncluded c _) fun _ =>
      meets_bind (Evaluator.always_requireToken layered_captured _ path ctx) fun x hx => ?_
    cases x with
    | ok t =>
      refine meets_bind (captures_overrides hlate hctx c others) fun r hr => ?_
      cases r with
      | error out => exact meets_pure (hr out rfl)
      | ok es =>
        exact captures_includeFile hrec hlate hfunctions (Entries.overlay_ne_nil hctx _) hready c _
    | error out =>
      have hout : out.One Node.Captured := hx
      cases out with
      | pending =>
        simp only [hlate, Bool.false_eq_true, if_false]
        exact gives_after fun _ => captures_keepCall hctx c none
      | value n => exact meets_pure hout.captured
      | empty => exact meets_pure hout.captured
      | splice items => exact meets_pure hout.captured

/-! ### One node -/

theorem captures_call (c : Call) (data : Option Node) : Captures (call env rec c data ctx) := by
  unfold call
  refine meets_ite (fun _ => ?_) fun _ => meets_ite
    (fun _ => captures_conditional hrec hlate hfunctions hctx c data) fun _ => meets_ite
      (fun _ => ?_) fun _ => captures_callNamed hrec hlate hfunctions hctx c data
  · exact meets_bind (captures_includeCall hrec hlate hfunctions hctx hready c) fun out hout =>
      captures_withTrailing hrec hlate hfunctions hctx hout data
  · refine meets_bind (gives_bind_ne_nil hctx c) fun ctx' hctx' => ?_
    cases data with
    | none => exact meets_pure Outcome.captured_empty
    | some data => exact captures_visit hrec hlate hfunctions hctx' data

end

/-- One step captures what is bound, if the steps within do. -/
theorem captures_step {rec : Reducer} (hrec : CapturingReducer rec) (hready : ReadyReducer rec) :
    CapturingReducer (step rec) := by
  intro env hlate hfunctions node ctx hctx
  cases node with
  | token t => exact meets_pure (Outcome.captured_token _)
  | array is o =>
    refine meets_bind (captures_elements hrec hlate hfunctions hctx hready is) fun r hr => ?_
    cases r with
    | none => exact meets_pure Outcome.captured_pending
    | some items => exact meets_pure (Outcome.captured_value (.array (hr items rfl)))
  | block es o =>
    refine meets_bind (captures_entries hrec hlate hfunctions hctx hready es) fun r hr => ?_
    cases r with
    | none => exact meets_pure Outcome.captured_pending
    | some fs => exact meets_pure (Outcome.captured_value (.block (hr fs rfl)))
  | call f ps o => exact captures_call hrec hlate hfunctions hctx hready ⟨f, ps, o⟩ none
  | statement f ps o data =>
    exact captures_call hrec hlate hfunctions hctx hready ⟨f, ps, o⟩ (some data)

theorem captures_inContext (limit : Nat) : CapturingReducer (inContext limit) := by
  induction limit with
  | zero => exact fun _ _ _ _ _ _ => meets_halt _ id
  | succ limit ih => exact captures_step ih (ready_inContext limit)

/-- Where something is bound, a run of the loading pass leaves a node that has captured it. -/
theorem captured_of_run {env : Surroundings} (hlate : env.late = false)
    (hregistry : env.registry = .builtin) {limit : Nat} {ctx : Context} (hctx : ctx ≠ [])
    {x n : Node} {s : WalkState} {out : Outcome}
    (hload : (inContext limit env x ctx s).answer = .ok out) (hn : out.toNode? x.origin = some n) :
    n.Captured :=
  (gives_answer (captures_inContext limit env hlate (hregistry ▸ Function.capturing_builtin) x ctx
    hctx) hload).toNode hn

/-! ### Consumption -/

/-- A node with bindings of its own is consumed in these. -/
theorem contextOf_eq {env : Surroundings} (hlate : env.late = true) {n : Node}
    (hn : n.origin.context ≠ []) (ctx : Context) : contextOf env n ctx = n.origin.context := by
  simp [contextOf, hlate, hn]

/-- Where nothing is bound, it is consumed in those that it has in any case. -/
theorem contextOf_own {env : Surroundings} (hlate : env.late = true) {n : Node} {ctx : Context}
    (hn : ctx = [] ∨ n.origin.context ≠ []) :
    contextOf env n ctx = contextOf env n n.origin.context := by
  by_cases h : n.origin.context = []
  · rw [h, hn.resolve_right (· h)]
  · rw [contextOf_eq hlate h, contextOf_eq hlate h]

/-- **A settled node that has captured its bindings is consumed alike in all contexts.** -/
theorem tracked_context {env : Surroundings} (hlate : env.late = true) {n : Node}
    (hn : n.Captured) (hsettled : n.Settled env.registry false) (limit : Nat) (c d : Context) :
    Tracked Alike (visit env (inContext limit) n c) (visit env (inContext limit) n d) := by
  have hown : n.origin.context ≠ [] →
      Tracked Alike (visit env (inContext limit) n c) (visit env (inContext limit) n d) := by
    intro h
    rw [visit, visit, contextOf_eq hlate h, contextOf_eq hlate h]
    exact tracked_refl Alike.refl _
  induction limit generalizing n c d with
  | zero => exact fun s => .inl rfl
  | succ limit ih =>
    have hpart : ∀ m : Node, m.Captured → m.Settled env.registry false → ∀ c d,
        Tracked Alike (visit env (inContext limit) m c) (visit env (inContext limit) m d) := by
      intro m hm hsettled c d
      refine ih hm hsettled c d fun h => ?_
      rw [visit, visit, contextOf_eq hlate h, contextOf_eq hlate h]
      exact tracked_refl Alike.refl _
    cases hn with
    | token t => exact tracked_pure rfl
    | call ho => exact hown ho
    | statement ho => exact hown ho
    | @array is o his =>
      have hitems := settled_array.mp hsettled
      refine tracked_bind (R := Option.Rel Alike) ?_ fun r r' hr => ?_
      · rw [elements_eq_inTurn hlate _ _ hitems, elements_eq_inTurn hlate _ _ hitems]
        refine tracked_inTurn (fun h h' => Alike.append h h') (.refl []) (List.forall₂_same.mpr ?_)
        refine fun i hi => tracked_map (hpart i (his i hi) (hitems i hi) _ _) fun o o' ho => ?_
        exact Alike.toItems? ho
      · cases hr with
        | none => exact tracked_pure rfl
        | some hr => exact tracked_pure (by simpa [Alike] using hr)
    | @block es o hes =>
      have hvalues := settled_block.mp hsettled
      refine tracked_bind (R := Option.Rel Alike) ?_ fun r r' hr => ?_
      · rw [entries_eq_inTurn hlate, entries_eq_inTurn hlate]
        refine tracked_inTurn (fun h h' => Alike.append h h') (.refl []) (List.forall₂_same.mpr ?_)
        refine fun e he => tracked_map (hpart e.2 (hes e he) (hvalues e he) _ _) fun o o' ho => ?_
        exact Alike.toEntries? ho (.refl _) _ _
      · cases hr with
        | none => exact tracked_pure rfl
        | some hr => exact tracked_pure (by simpa [Alike] using hr)

/-- The same of a node that may be nested deeper where it is moved to. -/
theorem tracked_moved {env : Surroundings} (hlate : env.late = true)
    (hregistry : env.registry = .builtin) {n : Node} (hsettled : n.Settled env.registry false)
    {c d : Context} (hn : n.Captured ∨ c = d) {k l : Nat} (hkl : k ≤ l) :
    Tracked Alike (visit env (inContext k) n c) (visit env (inContext l) n d) := by
  have hcontext : Tracked Alike (visit env (inContext k) n c) (visit env (inContext k) n d) := by
    rcases hn with hcaptured | rfl
    · exact tracked_context hlate hcaptured hsettled k c d
    · exact tracked_refl Alike.refl _
  refine (hcontext.trans (visit_deeper hregistry hkl n d)).imp fun a b h => ?_
  obtain ⟨_, hab, rfl⟩ := h
  exact hab

end Reduce

end ContentLang
