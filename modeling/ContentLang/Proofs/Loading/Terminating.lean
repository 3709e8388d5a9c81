import ContentLang.Engine
import ContentLang.Proofs.Loading.Ready
import ContentLang.Proofs.Loading.Settling
import ContentLang.Proofs.Walk.Terminating

/-!
# Loading terminates

The loading pass comes to an end on every text, whatever files there are and however they include
one another (`ContentLang.Engine.loadText_terminates`): there is a depth to which walks have to be
nested, and beyond it the limit makes no difference. The induction is twofold.

* A file is included only while there are no more files than the settings allow, and an included
  file is one more. So within the files that remain everything terminates
  (`ContentLang.Reduce.terminates_files`).
* Within one file it goes by the structure of a node, in all contexts that the pass comes upon
  (`ContentLang.Reduce.Terminating`). What is reduced beside the parts of a node is settled: the
  parameters of a function, which are reduced already, and the values that are bound. A settled
  node stays as it is, however deep it was when it was bound
  (`ContentLang.Reduce.terminates_function`).

How much is asked of the limits is known in the end only: each part of a walk comes to its answer
from some limits on, and the parts are put together there.
-/

namespace ContentLang

open Walk

/-- The surroundings with another limit. -/
def Surroundings.upTo (env : Surroundings) (limit : Nat) : Surroundings := { env with limit }

section

variable (env : Surroundings) (limit : Nat)

@[simp] theorem Surroundings.upTo_late : (env.upTo limit).late = env.late := rfl

@[simp] theorem Surroundings.upTo_registry : (env.upTo limit).registry = env.registry := rfl

end

theorem Surroundings.Loads.upTo {env : Surroundings} (h : env.Loads) (limit : Nat) :
    (env.upTo limit).Loads :=
  ⟨h.late, h.orderly⟩

namespace Reduce

/-- **Whether the reductions of a node terminate**, by itself and as an element of a sequence, in
every context that the loading pass comes upon. -/
structure Terminating (env : Surroundings) (n : Node) : Prop where
  node : ∀ ctx, ctx.Laid env.registry noneShunned →
    Terminates fun k l => inContext k (env.upTo l) n ctx
  element : ∀ ctx, ctx.Laid env.registry noneShunned →
    Terminates fun k l => element (env.upTo l) (inContext k) ctx n

/-- What a walk of the loading pass comes to is as that pass makes it. -/
theorem comes_laid (env : Surroundings) {α : Type} {P : α → Prop} {m : Nat → Nat → Walk α} {a : α}
    (hm : Comes m a) (h : ∀ k l, Loading (env.upTo l) noneShunned P (m k l)) : P a :=
  hm.meets h fun _ _ _ _ _ _ _ n _ => n.inert_noneShunned

section

variable {env : Surroundings} (henv : env.Loads) {ctx : Context}
  (hctx : ctx.Laid env.registry noneShunned)
include henv hctx

/-! ### Parts -/

theorem terminates_visit {n : Node} (hn : Terminating env n) :
    Terminates fun k l => visit (env.upTo l) (inContext k) n ctx := by
  simp only [visit_loading (henv.upTo _).late]
  exact hn.node ctx hctx

theorem terminates_reduceParams {ps : List Node} (hps : ∀ p ∈ ps, Terminating env p) :
    Terminates fun k l => reduceParams (env.upTo l) (inContext k) ctx ps := by
  induction ps with
  | nil => exact terminates_pure _
  | cons p ps ih =>
    obtain ⟨hp, hps⟩ := List.forall_mem_cons.mp hps
    refine Terminates.bind (terminates_visit henv hctx hp) fun o _ => ?_
    rcases o.toNode? p.origin with _ | n
    · exact terminates_pure _
    · exact (ih hps).map _

theorem terminates_reduceCallParams {c : Call} (hps : ∀ p ∈ c.params, Terminating env p) :
    Terminates fun k l => reduceCallParams (env.upTo l) (inContext k) c ctx :=
  (terminates_reduceParams henv hctx hps).map _

theorem terminates_keepCall {c : Call} {data : Option Node}
    (hps : ∀ p ∈ c.params, Terminating env p) (hdata : ∀ d ∈ data, Terminating env d) :
    Terminates fun k l => keepCall (env.upTo l) (inContext k) c data ctx := by
  refine Terminates.bind (terminates_reduceCallParams henv hctx hps) fun r _ => ?_
  rcases r with _ | processed
  · exact terminates_pure _
  · rcases data with _ | data
    · exact terminates_pure _
    · refine Terminates.bind (terminates_visit henv hctx (hdata data rfl)) fun o _ => ?_
      rcases o.toNode? data.origin with _ | d
      · exact terminates_pure _
      · exact terminates_pure _

theorem terminates_withTrailing {data : Option Node} (hdata : ∀ d ∈ data, Terminating env d)
    (outcome : Outcome) :
    Terminates fun k l => withTrailing (env.upTo l) (inContext k) outcome data ctx := by
  rcases data with _ | data
  · exact terminates_pure _
  · refine Terminates.bind (terminates_visit henv hctx (hdata data rfl)) fun trailing _ => ?_
    rcases outcome.toItems? with _ | items
    · exact terminates_pure _
    · rcases trailing.toItems? with _ | more
      · exact terminates_pure _
      · exact terminates_pure _

theorem terminates_requireToken {n : Node} (hn : Terminating env n) :
    Terminates fun k l => (evaluator (env.upTo l) (inContext k)).requireToken n ctx := by
  have hexpected : ∀ found, Terminates fun _ _ => Evaluator.expectedValue n found := fun found =>
    (terminates_report _ _).map _
  have hleft : ∀ name, Terminates fun _ _ =>
      if Registry.isKnown env.registry name then
        (return .error .pending : Walk (Except Outcome Token))
      else do
        Walk.report n.origin (.unknownFunction name
          (closestName name (Registry.names env.registry ++ constructs)))
        return .error (.error n.origin) := fun name =>
    terminates_ite (fun _ => terminates_pure _) fun _ => (terminates_report _ _).map _
  refine Terminates.bind (terminates_visit henv hctx hn) fun o _ => ?_
  rcases o with found | _ | items | _
  · cases found with
    | token t => exact terminates_pure _
    | call f ps o => exact hleft f
    | statement f ps o data => exact hleft f
    | block es o => exact hexpected _
    | array is o => exact hexpected _
  · exact hexpected _
  · exact hexpected _
  · exact terminates_pure _

/-! ### Bindings -/

/-- A binding terminates, and the context after it is one that the pass comes upon. -/
theorem terminates_bind {f : String} {ps : List Node} (o : Origin)
    (hps : ∀ p ∈ ps, Terminating env p) :
    Terminates fun k l => bind (env.upTo l) (inContext k) ⟨f, ps, o⟩ ctx := by
  match ps, hps with
  | [], _ => exact (terminates_report _ _).map _
  | [_], _ => exact (terminates_report _ _).map _
  | _ :: _ :: _ :: _, _ => exact (terminates_report _ _).map _
  | [name, value], hps =>
    refine Terminates.bind (terminates_requireToken henv hctx (hps name (by simp)))
      fun key _ => ?_
    rcases key with (n | _ | items | _) | key
    · exact terminates_pure _
    · exact terminates_pure _
    · exact terminates_pure _
    · exact (terminates_report _ _).bind fun _ _ => (terminates_leave _).map _
    · refine Terminates.bind (terminates_visit henv hctx (hps value (by simp))) fun out _ => ?_
      rcases out.toNode? value.origin with _ | n
      · exact (terminates_leave _).map _
      · exact (terminates_remarkAt _ _ _).map _

end

/-! ### Functions -/

section

variable {env : Surroundings} (henv : env.Loads) (hregistry : env.registry = .builtin)

/-- The simulation of runs by runs under higher limits: they are the same, but for those that are
too deep. -/
def sooner (w : World) : Simulation false w w :=
  .strict false w Halt.IsExhausted Halt.never (fun _ => rfl) Halt.not_never

include henv hregistry in
/-- Surroundings under two limits are those of the simulation. -/
theorem sooner_fits {l l' : Nat} (hl : l ≤ l') :
    (sooner ⟨env.host, env.settings⟩).Fits (env.upTo l) (env.upTo l') := by
  have hall := (sooner ⟨env.host, env.settings⟩).respects_builtin fun h => absurd h (by decide)
  exact ⟨rfl, (.inl <| henv.late.symm.trans ·), rfl, rfl, rfl, rfl, rfl, hregistry ▸ hall,
    .inr ⟨rfl, hl⟩⟩

include henv hregistry in
/-- **A run that comes to an answer is the same under every higher limit.** -/
theorem reduce_sooner {l l' : Nat} (hl : l ≤ l') {node : Node} {ctx : Context} {s : WalkState}
    {out : Outcome} (h : (reduce (env.upTo l) node ctx s).answer = .ok out) :
    reduce (env.upTo l') node ctx s = reduce (env.upTo l) node ctx s := by
  have hnode : node.Kin (sooner ⟨env.host, env.settings⟩).kin node := Node.kin_strict.mpr rfl
  have hrun := Simulation.reduce _ (sooner_fits henv hregistry hl) hnode (rfl : ctx = _)
  rcases hrun s with ⟨halt, -, hhalt⟩ | hsame
  · exact absurd (h.symm.trans hhalt) (by simp)
  · exact (hsame.eq fun _ _ => Outcome.kin_strict.mp).symm

include henv hregistry in
/-- **What one run of a node comes to**, the node comes to under all limits that are high enough. -/
theorem comes_node {k l : Nat} {n : Node} {ctx : Context} {s : WalkState} {out : Outcome}
    (h : (inContext k (env.upTo l) n ctx s).answer = .ok out) :
    Comes (fun k l => inContext k (env.upTo l) n ctx) out := by
  let S := sooner ⟨env.host, env.settings⟩
  have hnode : n.Kin S.kin n := Node.kin_strict.mpr rfl
  refine comes_of_run (fun _ _ => Outcome.kin_strict.mp) (fun k k' l l' hk hl => ?_)
    (fun k l => blind_inContext k _ (henv.upTo l) n ctx) h
  exact S.inContext (.inr ⟨rfl, hk⟩) (sooner_fits henv hregistry hl) hnode (rfl : ctx = _)

variable {e : String × Function} (he : e ∈ Registry.builtin) (hearly : e.2.late = false)
include henv he hearly

include hregistry in
/-- What a function gives is the same under higher limits, unless it is too deep. -/
theorem function_sooner (c : Call) (ctx : Context) {k k' l l' : Nat} (hk : k ≤ k') (hl : l ≤ l') :
    Matches Halt.IsExhausted Halt.never (Outcome.Kin .strict)
      (e.2.reduce (evaluator (env.upTo l) (inContext k)) c ctx)
      (e.2.reduce (evaluator (env.upTo l') (inContext k')) c ctx) := by
  let S := sooner ⟨env.host, env.settings⟩
  have hall := S.respects_builtin fun h => absurd h (by decide)
  have hrespects : S.Respects e.2 e.2 := (List.forall₂_same.mp hall e he).2 trivial
  have hfits := sooner_fits henv hregistry hl
  have hvisit : S.Agree (visit (env.upTo l) (inContext k)) (visit (env.upTo l') (inContext k')) :=
    Simulation.visit (S.inContext (.inr ⟨rfl, hk⟩)) hfits
  have hcall : c.Kin S.kin c := Call.kin_strict.mpr rfl
  have hctx : S.kin.contexts ctx ctx := rfl
  exact hrespects.reduce (fun h => absurd (hearly.symm.trans h) (by decide))
    (evaluator env (inContext k)) (.inr ⟨rfl, hl⟩) hvisit hcall hctx

/-- What a function gives is the same from every state. -/
theorem function_blind (c : Call) (ctx : Context) (k l : Nat) (s s' : WalkState) :
    (e.2.reduce (evaluator (env.upTo l) (inContext k)) c ctx s).answer =
      (e.2.reduce (evaluator (env.upTo l) (inContext k)) c ctx s').answer := by
  let R := Congruence.loading (.refl ⟨env.host, env.settings⟩)
  have hfits : R.Fits (env.upTo l) :=
    ⟨henv.late, fun e he => henv.orderly.blind e he _ _ (.refl _)⟩
  have hvisit : R.Agree (visit (env.upTo l) (inContext k)) (visit (env.upTo l) (inContext k)) :=
    fun node ctx => R.inContext k hfits node _
  exact (R.respects_builtin e he (fun h => absurd (hearly.symm.trans h) (by decide))
    (evaluator (env.upTo l) (inContext k)) _ _ hvisit c ctx s s').1

include hregistry in
/-- **A function terminates on parameters that are settled**, and in a context that binds settled
values: the limits that their depths ask for are enough. -/
theorem terminates_function {f : String} {qs : List Node} (o : Origin) {ctx : Context}
    (hqs : ∀ q ∈ qs, q.Laid env.registry noneShunned) (hctx : ctx.Laid env.registry noneShunned) :
    Terminates fun k l => e.2.reduce (evaluator (env.upTo l) (inContext k)) ⟨f, qs, o⟩ ctx := by
  let n := Node.depthOfAll (qs ++ ctx.map (·.2))
  have hdepth : ∀ m ∈ qs ++ ctx.map (·.2), m.depth ≤ n := Node.depthOfAll_le.mp (Nat.le_refl n)
  have hkept : ∀ {m : Node}, m.Laid env.registry noneShunned → m.depth ≤ n →
      Kept n (env.upTo n) True m := fun h hdepth => ⟨henv.late.symm ▸ h.1, fun _ => hdepth⟩
  have hparams : ∀ q ∈ qs, Kept n (env.upTo n) True q := fun q hq =>
    hkept (hqs q hq) (hdepth q (List.mem_append_left _ hq))
  have hvalues : ∀ b ∈ ctx, Kept n (env.upTo n) True b.2 := fun b hb =>
    hkept (hctx b hb) (hdepth b.2 (List.mem_append_right _ (List.mem_map_of_mem hb)))
  obtain ⟨α, m, -, hmeans⟩ := (Function.meaningful_builtin e he).resolve_left (by simp [hearly])
  have hkeeps : (evaluator (env.upTo n) (inContext n)).Keeps True (Kept n (env.upTo n) True) :=
    keeps_evaluator (still_inContext n) fun _ => Nat.le_refl n
  have hrun := hmeans hkeeps ⟨f, qs, o⟩ ctx hparams fun _ => hvalues
  let s : WalkState := ⟨⟨fun _ => 0, 0⟩, []⟩
  obtain ⟨out, hout⟩ := (hrun s fun _ _ => trivial).ends trivial
  exact ⟨out, comes_of_run (fun _ _ => Outcome.kin_strict.mp)
    (fun _ _ _ _ hk hl => function_sooner henv hregistry he hearly _ _ hk hl)
    (fun _ _ _ _ => function_blind henv he hearly _ _ _ _ _ _) hout⟩

end

section

variable {env : Surroundings} (henv : env.Loads) (hregistry : env.registry = .builtin)
  {ctx : Context} (hctx : ctx.Laid env.registry noneShunned)
include henv hregistry hctx

theorem terminates_callFunction {f : String} {function : Function} {ps : List Node} (o : Origin)
    (hget : Registry.get? env.registry f = some function) (hps : ∀ p ∈ ps, Terminating env p) :
    Terminates fun k l => callFunction (env.upTo l) (inContext k) function ⟨f, ps, o⟩ ctx := by
  have hparams : Terminates fun k l =>
      reduceCallParams (env.upTo l) (inContext k) ⟨f, ps, o⟩ ctx :=
    terminates_reduceCallParams henv hctx hps
  obtain ⟨e, he, rfl⟩ := Registry.mem_of_get? hget
  unfold callFunction
  rcases hearly : e.2.late with _ | _
  · simp only [Bool.false_eq_true, if_false, Surroundings.upTo_late, henv.late,
      Bool.not_false, Bool.and_true]
    refine Terminates.bind hparams fun r hr => ?_
    -- The parameters that the function is given are settled.
    obtain ⟨qs, rfl, hqs⟩ := comes_laid (P := fun r => ∃ qs,
        r = some ⟨f, qs, { o with context := ctx }⟩ ∧ ∀ q ∈ qs, q.Laid env.registry noneShunned)
      env hr fun k l => settles_reduceCallParams (settles_inContext _ k) (henv.upTo l) hctx o
        fun p _ => p.inert_noneShunned
    refine Terminates.bind (terminates_function henv hregistry (hregistry ▸ he) hearly _ hqs hctx)
      fun out _ => terminates_ite (fun _ => ?_) fun _ => terminates_pure _
    exact (terminates_remarkAt _ _ _).map _
  · simp only [if_true, Surroundings.upTo_late, henv.late, Bool.false_eq_true, if_false]
    refine Terminates.bind (terminates_remarkAt _ _ _) fun _ _ => Terminates.bind hparams
      fun r _ => ?_
    rcases r with _ | processed
    · exact terminates_pure _
    · exact terminates_pure _

theorem terminates_callNamed {f : String} {ps : List Node} (o : Origin) {data : Option Node}
    (hps : ∀ p ∈ ps, Terminating env p) (hdata : ∀ d ∈ data, Terminating env d) :
    Terminates fun k l => callNamed (env.upTo l) (inContext k) ⟨f, ps, o⟩ data ctx := by
  unfold callNamed
  simp only [Surroundings.upTo_registry]
  rcases h : Registry.get? env.registry f with _ | function
  · exact Terminates.bind (terminates_remarkAt _ _ _) fun _ _ =>
      terminates_keepCall henv hctx hps hdata
  · refine Terminates.bind (terminates_callFunction henv hregistry hctx o h hps) fun out _ => ?_
    have htrailing := terminates_withTrailing henv hctx hdata out
    exact terminates_ite (fun _ => Terminates.bind (terminates_remarkAt _ _ _) fun _ _ => htrailing)
      fun _ => htrailing

/-! ### Conditions -/

omit hregistry in
theorem terminates_conditional {f : String} {ps : List Node} (o : Origin) {data : Option Node}
    (hps : ∀ p ∈ ps, Terminating env p) (hdata : ∀ d ∈ data, Terminating env d) :
    Terminates fun k l => conditional (env.upTo l) (inContext k) ⟨f, ps, o⟩ data ctx := by
  unfold conditional
  match ps, hps with
  | [], _ => exact (terminates_report _ _).map _
  | _ :: _ :: _, _ => exact (terminates_report _ _).map _
  | [condition], hps =>
    refine Terminates.bind (terminates_requireToken henv hctx (hps condition (by simp)))
      fun x _ => ?_
    rcases x with (n | _ | items | _) | t
    · exact terminates_pure _
    · exact terminates_pure _
    · exact terminates_pure _
    · simp only [Surroundings.upTo_late, henv.late, Bool.false_eq_true, if_false]
      exact Terminates.bind (terminates_remarkAt _ _ _) fun _ _ =>
        terminates_keepCall henv hctx hps hdata
    · refine terminates_ite (fun _ => ?_) fun _ => terminates_pure _
      rcases data with _ | data
      · exact (terminates_report _ _).map _
      · exact terminates_visit henv hctx (hdata data rfl)

/-! ### Sequences -/

omit hregistry hctx in
theorem terminates_orKept (outcome : Outcome) (n : Node) :
    Terminates fun _ l => orKept (env.upTo l) outcome n ctx := by
  unfold orKept
  simp only [Surroundings.upTo_late, henv.late]
  exact terminates_ite (fun _ => ((terminates_remarkAt _ _ _).map _).map _) fun _ =>
    terminates_pure _

omit hregistry hctx in
theorem terminates_plainElement {n : Node}
    (hn : Terminates fun k l => inContext k (env.upTo l) n ctx) :
    Terminates fun k l => plainElement (env.upTo l) (inContext k) ctx n := by
  unfold plainElement
  simp only [visit_loading (henv.upTo _).late]
  refine Terminates.bind hn fun o _ => ?_
  exact Terminates.map (terminates_orKept henv o n) _

omit hregistry in
theorem terminates_elements {ns : List Node} (hns : ∀ n ∈ ns, Terminating env n) :
    Terminates fun k l => elements (env.upTo l) (inContext k) ctx ns := by
  induction ns generalizing ctx with
  | nil => exact terminates_pure _
  | cons n ns ih =>
    obtain ⟨hn, hns⟩ := List.forall_mem_cons.mp hns
    refine Terminates.bind (hn.element ctx hctx) fun r hr => ?_
    -- What comes after the element is reduced in the context that the element leaves.
    obtain ⟨items, ctx'⟩ := r
    obtain ⟨l, hl, -, hctx'⟩ := comes_laid (P := fun r => ∃ l, r.1 = some l ∧
        (∀ m ∈ l, m.Laid env.registry noneShunned) ∧ r.2.Laid env.registry noneShunned)
      env hr fun k l => settles_element (settles_inContext _ k) (blind_inContext k) (henv.upTo l)
        hctx n.inert_noneShunned
    obtain rfl : items = some l := hl
    exact (ih hctx' hns).map _

omit hregistry in
theorem terminates_entries {es : List (Token × Node)} (hes : ∀ e ∈ es, Terminating env e.2) :
    Terminates fun k l => entries (env.upTo l) (inContext k) ctx es := by
  induction es with
  | nil => exact terminates_pure _
  | cons e es ih =>
    obtain ⟨key, n⟩ := e
    obtain ⟨hn, hes⟩ := List.forall_mem_cons.mp hes
    refine Terminates.bind (terminates_visit henv hctx hn) fun o _ =>
      Terminates.bind (terminates_orKept henv o n) fun out _ => ?_
    rcases out with m | _ | items | _
    · exact (ih hes).map _
    · exact ih hes
    · exact (ih hes).map _
    · exact terminates_pure _

/-! ### Includes -/

omit henv hregistry hctx in
theorem terminates_notIncluded (c : Call) (problem : Problem) :
    Terminates fun _ _ => notIncluded c problem :=
  (terminates_report _ _).map _

omit hregistry in
theorem terminates_overrides {c : Call} {params : List Node}
    (hps : ∀ p ∈ c.params, Terminating env p) (hparams : ∀ p ∈ params, Terminating env p) :
    Terminates fun k l => overrides (env.upTo l) (inContext k) c ctx params := by
  have hwrong : ∀ param found, Terminates fun _ _ =>
      (do return Except.error (← overrides.wrong c param found) :
        Walk (Except Outcome (List (Token × Node)))) := fun param found =>
    ((terminates_report _ _).map _).map _
  rcases params with _ | ⟨param, others⟩
  · exact terminates_pure _
  · refine Terminates.bind (terminates_visit henv hctx (hparams param (by simp))) fun out _ => ?_
    rcases out with n | _ | items | _
    · cases n with
      | block es o => exact terminates_pure _
      | token t => exact terminates_ite (fun _ => terminates_pure _) fun _ => hwrong _ _
      | call f ps o => exact terminates_ite (fun _ => terminates_pure _) fun _ => hwrong _ _
      | statement f ps o d => exact terminates_ite (fun _ => terminates_pure _) fun _ => hwrong _ _
      | array is o => exact terminates_ite (fun _ => terminates_pure _) fun _ => hwrong _ _
    · exact hwrong _ _
    · exact hwrong _ _
    · simp only [Surroundings.upTo_late, henv.late, Bool.false_eq_true, if_false]
      exact (terminates_keepCall henv hctx hps (by simp)).map _

variable (hfiles : env.files.length ≤ env.settings.maxIncludeDepth →
  ∀ file n, Terminating (env.within file) n)
include hfiles

omit hregistry in
/-- A file that is included is one more of the files that the settings allow. -/
theorem terminates_includeFile (c : Call) (file : String) :
    Terminates fun k l => includeFile (env.upTo l) (inContext k) c file ctx := by
  have hwithin : (env.within file).Loads := ⟨henv.late, henv.orderly⟩
  have hasked : Terminates fun _ _ => Walk.askFile env.host file :=
    ⟨_, comes_always fun _ => rfl⟩
  simp only [includeFile_eq]
  -- What is asked before the file is read does not depend on the limits.
  show Terminates fun k l =>
    if env.files.contains file then notIncluded c (.includeCycle (env.files ++ [file]))
    else if env.settings.maxIncludeDepth < env.files.length then
      notIncluded c (.includeDepth env.settings.maxIncludeDepth)
    else Walk.askFile env.host file >>= fun text =>
      text.elim (notIncluded c (.includeNotFound file)) fun text =>
        includeText (env.upTo l) (inContext k) c file text ctx
  refine terminates_ite (fun _ => terminates_notIncluded c _) fun _ =>
    terminates_ite (fun _ => terminates_notIncluded c _) fun hdepth =>
      Terminates.bind hasked fun text _ => ?_
  rcases text with _ | text
  · exact terminates_notIncluded c _
  · have hreports : Terminates fun _ _ =>
        Walk.reportAll (parseText text file env.settings.uniqueId).2 := terminates_leave _
    refine Terminates.bind (terminates_remarkAt _ _ _) fun _ _ =>
      Terminates.bind hreports fun _ _ => ?_
    have helements : Terminates fun k l => elements ((env.within file).upTo l) (inContext k) ctx
        (Node.markUids (c.origin.uid ++ ">") (parseText text file env.settings.uniqueId).1) :=
      terminates_elements hwithin hctx fun n _ => hfiles (Nat.le_of_not_lt hdepth) file n
    refine Terminates.bind helements fun r _ => ?_
    rcases r with _ | items
    · exact terminates_pure _
    · exact terminates_pure _

omit hregistry in
theorem terminates_includeCall {f : String} {ps : List Node} (o : Origin)
    (hps : ∀ p ∈ ps, Terminating env p) :
    Terminates fun k l => includeCall (env.upTo l) (inContext k) ⟨f, ps, o⟩ ctx := by
  unfold includeCall
  rcases ps with _ | ⟨path, others⟩
  · exact terminates_notIncluded _ _
  · obtain ⟨hpath, hothers⟩ := List.forall_mem_cons.mp hps
    refine terminates_ite (fun _ => terminates_notIncluded _ _) fun _ =>
      Terminates.bind (terminates_requireToken henv hctx hpath) fun x _ => ?_
    rcases x with (n | _ | items | _) | t
    · exact terminates_pure _
    · exact terminates_pure _
    · exact terminates_pure _
    · simp only [Surroundings.upTo_late, henv.late, Bool.false_eq_true, if_false]
      exact Terminates.bind (terminates_remarkAt _ _ _) fun _ _ =>
        terminates_keepCall henv hctx hps (by simp)
    · refine Terminates.bind (terminates_overrides henv hctx (c := ⟨f, path :: others, o⟩) hps
        hothers) fun r hr => ?_
      have hbindings := comes_laid (P := LaidBindings env noneShunned) env hr fun k l =>
        settles_overrides (settles_inContext _ k) (henv.upTo l) hctx _ fun p _ =>
          p.inert_noneShunned
      rcases r with out | es
      · exact terminates_pure _
      · exact terminates_includeFile henv (Context.laid_overlay hctx hbindings) hfiles _ _

/-! ### One node -/

/-- **A call terminates** if its parameters and its data do. -/
theorem terminates_call {f : String} {ps : List Node} (o : Origin) {data : Option Node}
    (hps : ∀ p ∈ ps, Terminating env p) (hdata : ∀ d ∈ data, Terminating env d) :
    Terminates fun k l => call (env.upTo l) (inContext k) ⟨f, ps, o⟩ data ctx := by
  unfold call
  refine terminates_ite (fun _ => ?_) fun _ => terminates_ite
    (fun _ => terminates_conditional henv hctx o hps hdata) fun _ =>
      terminates_ite (fun _ => ?_) fun _ => terminates_callNamed henv hregistry hctx o hps hdata
  · exact Terminates.bind (terminates_includeCall henv hctx hfiles o hps) fun out _ =>
      terminates_withTrailing henv hctx hdata out
  · refine Terminates.bind (terminates_bind henv hctx o hps) fun ctx' hctx' => ?_
    rcases data with _ | data
    · exact terminates_pure _
    · refine terminates_visit henv ?_ (hdata data rfl)
      exact comes_laid (P := fun c => c.Laid env.registry noneShunned) env hctx' fun k l =>
        settles_bind (settles_inContext _ k) (blind_inContext k) (henv.upTo l) hctx o
          fun p _ => p.inert_noneShunned

end

section

variable {env : Surroundings} (henv : env.Loads) (hregistry : env.registry = .builtin)
  (hfiles : env.files.length ≤ env.settings.maxIncludeDepth →
    ∀ file n, Terminating (env.within file) n)

include henv in
/-- A node that is no call terminates as an element if it does by itself. -/
theorem terminating_of_plain {n : Node} (hn : ∀ ctx, ctx.Laid env.registry noneShunned →
      Terminates fun k l => inContext k (env.upTo l) n ctx)
    (hplain : ∀ k l ctx, element (env.upTo l) (inContext k) ctx n =
      plainElement (env.upTo l) (inContext k) ctx n) : Terminating env n where
  node := hn
  element ctx hctx := by
    simp only [hplain]
    exact terminates_plainElement henv (hn ctx hctx)

include henv hregistry hfiles

theorem terminating_call {f : String} {ps : List Node} (o : Origin)
    (hps : ∀ p ∈ ps, Terminating env p) : Terminating env (.call f ps o) := by
  have hnode : ∀ ctx, ctx.Laid env.registry noneShunned →
      Terminates fun k l => inContext k (env.upTo l) (.call f ps o) ctx := fun ctx hctx =>
    Terminates.nested (terminates_call henv hregistry hctx hfiles o hps (by simp))
  refine ⟨hnode, fun ctx hctx => ?_⟩
  simp only [element]
  exact terminates_ite (fun _ => (terminates_bind henv hctx o hps).map _) fun _ =>
    terminates_plainElement henv (hnode ctx hctx)

/-- Data after a binding, an include or a call of a function terminates as an element; the call
does so by itself. -/
theorem terminating_statement {f : String} {ps : List Node} (o : Origin) {data : Node}
    (hps : ∀ p ∈ ps, Terminating env p) (hdata : Terminating env data) :
    Terminating env (.statement f ps o data) := by
  have hnode : ∀ ctx, ctx.Laid env.registry noneShunned →
      Terminates fun k l => inContext k (env.upTo l) (.statement f ps o data) ctx := fun ctx hctx =>
    Terminates.nested (terminates_call henv hregistry hctx hfiles o hps (by simpa using hdata))
  refine ⟨hnode, fun ctx hctx => ?_⟩
  have htail : Terminates fun k l => elementAnd (env.upTo l) (inContext k) ctx (.call f ps o)
      (element (env.upTo l) (inContext k) ctx data) := by
    refine Terminates.bind ((terminating_call henv hregistry hfiles o hps).node ctx hctx)
      fun out _ => Terminates.bind (terminates_orKept henv out _) fun kept _ => ?_
    rcases kept.toItems? with _ | items
    · exact terminates_pure _
    · exact (hdata.element ctx hctx).map _
  have htakes : ∀ l, takesNoData (env.upTo l) f = takesNoData env f := fun l => rfl
  simp only [element_statement, htakes]
  refine terminates_ite (fun _ => ?_) fun _ => terminates_ite (fun _ => ?_) fun _ =>
    terminates_plainElement henv (hnode ctx hctx)
  · refine Terminates.bind (terminates_bind henv hctx o hps) fun ctx' hctx' =>
      hdata.element ctx' ?_
    exact comes_laid (P := fun c => c.Laid env.registry noneShunned) env hctx' fun k l =>
      settles_bind (settles_inContext _ k) (blind_inContext k) (henv.upTo l) hctx o
        fun p _ => p.inert_noneShunned
  · exact terminates_ite (fun _ => Terminates.bind (terminates_remarkAt _ _ _) fun _ _ => htail)
      fun _ => htail

/-- **Every node terminates**, given that within one more file every node does. -/
theorem terminating_node (n : Node) : Terminating env n := by
  induction n with
  | token t =>
    refine terminating_of_plain henv (fun ctx _ => Terminates.nested ?_) fun _ _ _ => rfl
    exact terminates_pure _
  | array is o his =>
    refine terminating_of_plain henv (fun ctx hctx => Terminates.nested ?_) fun _ _ _ => rfl
    refine Terminates.bind (terminates_elements henv hctx his) fun r _ => ?_
    rcases r with _ | items
    · exact terminates_pure _
    · exact terminates_pure _
  | block es o hes =>
    refine terminating_of_plain henv (fun ctx hctx => Terminates.nested ?_) fun _ _ _ => rfl
    refine Terminates.bind (terminates_entries henv hctx hes) fun r _ => ?_
    rcases r with _ | fs
    · exact terminates_pure _
    · exact terminates_pure _
  | call f ps o hps => exact terminating_call henv hregistry hfiles o hps
  | statement f ps o data hps hdata =>
    exact terminating_statement henv hregistry hfiles o hps hdata

end

/-! ### Any files -/

/-- **Every node terminates within the files that remain**: files are included while there are no
more than the settings allow, and each one that is included is one more. -/
theorem terminates_files (remaining : Nat) {env : Surroundings} (henv : env.Loads)
    (hregistry : env.registry = .builtin)
    (hremaining : env.settings.maxIncludeDepth < env.files.length + remaining) (n : Node) :
    Terminating env n := by
  induction remaining generalizing env n with
  | zero =>
    exact terminating_node henv hregistry (fun hdepth => absurd hdepth (by omega)) n
  | succ remaining ih =>
    refine terminating_node henv hregistry (fun _ file n => ?_) n
    have hwithin : (env.within file).Loads := ⟨henv.late, henv.orderly⟩
    refine ih hwithin hregistry ?_ n
    simp only [Surroundings.within, List.length_append, List.length_singleton]
    omega

end Reduce

namespace Engine

/-- The root of a file comes to an array, in a run that is the same under all limits that are high
enough. -/
theorem reduces_root {env : Surroundings} (henv : env.Loads) (hregistry : env.registry = .builtin)
    (items : List Node) (o : Origin) (s : WalkState) :
    ∃ (n : Nat) (is : List Node) (o' : Origin) (r : Walked Outcome),
      r.answer = .ok (.value (.array is o')) ∧
        ∀ limit, n ≤ limit → reduce (env.upTo limit) (.array items o) .empty s = r := by
  have hempty : Context.Laid env.registry noneShunned .empty := by
    simp [Context.Laid, Context.empty]
  have hnode := Reduce.terminates_files (env.settings.maxIncludeDepth + 1) henv hregistry
    (by omega) (.array items o)
  obtain ⟨out, hout⟩ := Reduce.terminates_visit henv hempty hnode
  have harray : ∃ is o', out = .value (.array is o') :=
    hout.meets (fun k l => Reduce.gives_array k (henv.upTo l).late items o _) fun _ _ _ => trivial
  obtain ⟨is, o', rfl⟩ := harray
  obtain ⟨n, hn⟩ := hout
  have hanswer := hn n n (Nat.le_refl n) (Nat.le_refl n) s
  exact ⟨n, is, o', _, hanswer, fun limit hlimit =>
    Reduce.reduce_sooner henv hregistry hlimit hanswer⟩

variable {e : Engine}

/-- The engine under another limit. -/
def upTo (e : Engine) (limit : Nat) : Engine := { e with limit }

/-- The loading pass over a tree that comes to a node. -/
theorem processed_of_value {file : String} {source n : Node} {s : WalkState}
    (h : (reduce (e.surroundings false file) source .empty s).answer = .ok (.value n)) :
    e.processed file source s =
      ⟨.ok n, (reduce (e.surroundings false file) source .empty s).state,
        (reduce (e.surroundings false file) source .empty s).notes⟩ := by
  unfold processed
  rw [bind_ok h]
  simp [pure_apply, Outcome.toNode?]

/-- **The loading pass terminates** on the tree of a file, and comes to an array. -/
theorem process_terminates (hregistry : e.registry = .builtin) (l : Loaded) {items : List Node}
    {o : Origin} (hsource : l.source = .array items o) :
    ∃ (n : Nat) (l' : Loaded) (is : List Node) (o' : Origin), l'.root = .array is o' ∧
      ∀ limit, n ≤ limit → ((e.upTo limit).process l).answer = .ok l' := by
  have henv : (e.surroundings false l.file).Loads := Surroundings.loads_builtin rfl hregistry
  obtain ⟨n, is, o', r, hr, hrun⟩ := reduces_root henv hregistry items o e.state
  rw [← hsource] at hrun
  refine ⟨n, { l with
    root := .array is o'
    diagnostics := l.diagnostics.filter (·.problem.isTextual) ++
      r.notes.filterMap Note.diagnostic? }, is, o', rfl, fun limit hlimit => ?_⟩
  have hreduce : reduce ((e.upTo limit).surroundings false l.file) l.source .empty
      (e.upTo limit).state = r := hrun limit hlimit
  have hprocessed := processed_of_value (hreduce.symm ▸ hr)
  rw [hreduce] at hprocessed
  simp only [process, carryOut, hprocessed]
  rfl

/-- **Loading terminates and is never pending.** Whatever the text, the files and the depth to
which they may include one another, there is a limit from which on loading the text comes to one
loaded file, whose root is an array. And no node that is reduced in the loading pass comes to a
pending outcome, in whatever context, within whatever files and under whatever limits. -/
theorem loadText_terminates (e : Engine) (hregistry : e.registry = .builtin)
    (text file : String) :
    (∃ (n : Nat) (l : Loaded) (items : List Node) (o : Origin), l.root = .array items o ∧
        ∀ limit, n ≤ limit → ((e.upTo limit).loadText text file).answer = .ok l) ∧
      ∀ (files : List String) (limit nested : Nat) (node : Node) (ctx : Context) (s : WalkState),
        (Reduce.inContext nested { e.surroundings false file with files, limit } node ctx
          s).answer ≠ .ok .pending := by
  refine ⟨?_, fun files limit nested => Reduce.never_pending rfl nested⟩
  exact process_terminates (e := e.forgetful) hregistry (e.read text file) rfl

/-- Files of which each includes one more, without an end. -/
theorem loadText_terminates_endless :
    let next (f : String) : String := "Include(x" ++ f ++ "); y"
    let e := Engine.start .standard (.plain (fun _ => none) fun f => some (next f)) 0
    e.registry = .builtin ∧ e.host.fileText "a" = some "Include(xa); y" ∧
      ∃ (n : Nat) (l : Loaded) (items : List Node) (o : Origin), l.root = .array items o ∧
        ∀ limit, n ≤ limit → ((e.upTo limit).loadText (next "") "main.txt").answer = .ok l := by
  intro next e
  obtain ⟨hloads, -⟩ := loadText_terminates e rfl (next "") "main.txt"
  exact ⟨rfl, by decide, hloads⟩

end Engine

end ContentLang
