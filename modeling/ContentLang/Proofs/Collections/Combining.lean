import ContentLang.Proofs.Collections.Sums
import ContentLang.Proofs.Settled.Kin
import ContentLang.Proofs.Walk.Functions

/-!
# Combining is associative

`Combine` comes to what can be said of all its parameters at once
(`ContentLang.Library.combination`). So it does not matter how they are grouped: consecutive
parameters may be combined first, in a call of their own, and nulls and empty calls may stand
anywhere (`ContentLang.Reduce.combine_regrouped`).

What stands in the way is that a call in a call is reduced to one node before the outer one sees it.
Nothing becomes null on the way, the placeholder is a scalar and makes the outer call fail too, and
the entries of a block that was merged are merged again. Parameters are therefore compared by what
they add up to (`ContentLang.Library.combinedAll?`), and what is known of a group after its
reduction is the sum alone.

Nodes that are reduced again capture other bindings, but stay the same otherwise: the keys of a
block are the very tokens that came first, with their quotes and the places where they were
written (`ContentLang.Kinship.loose`).
-/

namespace ContentLang

open Walk

open Library (Combined combined? combinedAll? combineAll combineNode)

open Simulation (CombinedKin)

/-! ### Sums of nodes that are kin -/

namespace Library

section

variable {K : Kinship}

theorem kin_append {a a' b b' : Combined} (ha : CombinedKin K a a') (hb : CombinedKin K b b') :
    Option.Rel (CombinedKin K) (a.append b) (a'.append b') := by
  cases ha with
  | nothing => exact .some hb
  | items hms =>
    cases hb with
    | nothing => exact .some (.items hms)
    | items hns => exact .some (.items (List.rel_append hms hns))
    | entries _ => exact .none
  | entries hes =>
    cases hb with
    | nothing => exact .some (.entries hes)
    | items _ => exact .none
    | entries hfs => exact .some (.entries (Entries.kin_overlay hes hfs))

/-- Sums of what is kin are kin. -/
theorem kin_sum {x x' y y' : Option Combined} (hx : Option.Rel (CombinedKin K) x x')
    (hy : Option.Rel (CombinedKin K) y y') :
    Option.Rel (CombinedKin K) (x.bind fun a => y.bind a.append)
      (x'.bind fun a => y'.bind a.append) := by
  cases hx with
  | none => exact .none
  | some ha =>
    cases hy with
    | none => exact .none
    | some hb => exact kin_append ha hb

theorem kin_combined? {n m : Node} (h : n.Kin K m) :
    Option.Rel (CombinedKin K) (combined? n) (combined? m) := by
  cases h with
  | @token t t' ht =>
    show Option.Rel _ (if t.isNull then some Combined.nothing else none)
      (if t'.isNull then some Combined.nothing else none)
    rw [ht.isNull]
    split
    · exact .some .nothing
    · exact .none
  | call _ _ _ => exact .none
  | statement _ _ _ _ => exact .none
  | columns hkeys hvalues _ =>
    exact .some (.entries (Entries.kin_overlay .nil (forall₂_rows.mpr ⟨hkeys, hvalues⟩)))
  | array his _ => exact .some (.items his)

end

/-! ### Combining nodes that stay -/

/-- What a sum is answered by: kin of it, or the placeholder if there is none. -/
def AddsUpTo (o : Origin) : Option Combined → Except Outcome Combined → Prop
  | some a, r => ∃ b, r = .ok b ∧ CombinedKin .loose a b
  | none, r => r = .error (.error o)

variable {ev : Evaluator} {ends : Prop} {ctx : Context}

theorem meets_refused (call : Call) (param : Node) (fault : Fault) :
    Meets (.quietIf ((none : Option Combined) ≠ none)) ends (AddsUpTo call.origin none)
      (Evaluator.invalidArgument call param fault >>= fun o => pure (.error o)) := by
  refine meets_bind (P := fun o => o = .error call.origin) ?_ fun o ho => meets_pure (ho ▸ rfl)
  exact meets_bind (meets_leave fun _ _ h => absurd rfl h) fun _ _ => meets_pure rfl

theorem meets_mergeEntries (place : Location) (function : String) {T : Terms}
    (hT : Terms.still.Covers T) {o : Origin} {es es' fs fs' : Entries Token Node}
    (hes : List.Forall₂ Kinship.loose.Entry es es')
    (hfs : List.Forall₂ Kinship.loose.Entry fs fs') :
    Meets T ends (AddsUpTo o (some (.entries (Entries.overlay es fs))))
      (mergeEntries place function es' fs' >>= fun es => pure (.ok (Combined.entries es))) := by
  refine meets_map ((still_mergeEntries place function es' fs').mono hT id fun _ h => h)
    fun gs hgs => ?_
  rw [hgs]
  exact ⟨_, rfl, .entries (Entries.kin_overlay hes hfs)⟩

/-- **A collection or scalar is added to what has been combined.** -/
theorem meets_combineNode (call : Call) (param : Node) {acc acc' : Combined}
    (hacc : CombinedKin .loose acc acc') {n m : Node} (hn : n.Kin .loose m)
    (hcall : n.function? = none) (hnull : n.isNull = false) :
    Meets (.quietIf ((combined? n).bind acc.append ≠ none)) ends
      (AddsUpTo call.origin ((combined? n).bind acc.append))
      (combineNode ev call param acc' m) := by
  cases hn with
  | @token t t' _ =>
    have hnone : (combined? (.token t)).bind acc.append = none := by
      rw [combined?, if_neg (show ¬ t.isNull = true from Bool.eq_false_iff.mp hnull)]
      rfl
    rw [hnone]
    cases acc' <;> exact meets_refused call param _
  | call _ _ _ => simp [Node.function?] at hcall
  | statement _ _ _ _ => simp [Node.function?] at hcall
  | array his _ =>
    cases hacc with
    | nothing => exact meets_pure ⟨_, rfl, .items his⟩
    | items hjs => exact meets_pure ⟨_, rfl, .items (List.rel_append hjs his)⟩
    | entries _ => exact meets_refused call param _
  | @columns es _ o _ hkeys hvalues _ =>
    have hes := forall₂_rows.mpr ⟨hkeys, hvalues⟩
    cases hacc with
    | nothing => exact meets_mergeEntries _ _ (Terms.still_covers_quietIf _) .nil hes
    | items _ => exact meets_refused call param _
    | @entries fs _ hfs =>
      have hsum : (combined? (.block es o)).bind (Combined.entries fs).append =
          some (.entries (Entries.overlay fs es)) :=
        congrArg (some ∘ Combined.entries) (Entries.overlay_overlay fs [] es)
      rw [hsum]
      exact meets_mergeEntries _ _ (Terms.still_covers_quietIf _) hfs hes

/-- **Parameters that stay are added up**, beginning with what has been combined. -/
theorem meets_combineAll (call : Call) {ps : List Node}
    (hps : ∀ p ∈ ps,
      p.function? = none ∧ Still ends (Reduce.Stays .loose p) (ev.reduce p ctx))
    {acc acc' : Combined} (hacc : CombinedKin .loose acc acc') :
    Meets (.quietIf ((combinedAll? ps).bind acc.append ≠ none)) ends
      (AddsUpTo call.origin ((combinedAll? ps).bind acc.append))
      (combineAll ev call ctx acc' ps) := by
  induction ps generalizing acc acc' with
  | nil =>
    rw [combinedAll?, Option.bind_some, Combined.append_nothing]
    exact meets_pure ⟨acc', rfl, hacc⟩
  | cons p ps ih =>
    obtain ⟨⟨hcall, hp⟩, hps⟩ := List.forall_mem_cons.mp hps
    have hsum : (combinedAll? (p :: ps)).bind acc.append =
        ((combined? p).bind acc.append).bind fun acc => (combinedAll? ps).bind acc.append := by
      rw [combinedAll?]
      cases combined? p with
      | none => rfl
      | some a =>
        cases combinedAll? ps with
        | none => simp
        | some b => exact (acc.append_assoc a b).symm
    rw [hsum]
    refine meets_bind (hp.mono (Terms.still_covers_quietIf _) id fun _ h => h) fun out hout => ?_
    obtain ⟨q, rfl, hpq⟩ := hout
    dsimp only
    rw [← hpq.isNull]
    split
    next hnull =>
      rw [combined?_null hnull, Option.bind_some, Combined.append_nothing, Option.bind_some]
      exact ih hps hacc
    next hnull =>
      have hnode : Meets (.quietIf ((combined? p).bind acc.append ≠ none)) ends
          (AddsUpTo call.origin ((combined? p).bind acc.append))
          (combineNode ev call p acc' q) :=
        meets_combineNode call p hacc hpq hcall (Bool.eq_false_iff.mpr hnull)
      cases hw : (combined? p).bind acc.append with
      | none =>
        rw [hw] at hnode
        refine meets_bind hnode fun r hr => ?_
        subst hr
        exact meets_pure rfl
      | some a =>
        rw [hw] at hnode
        refine meets_bind (hnode.mono (Terms.quietIf_covers_quietIf fun _ => by simp) id
          fun _ h => h) fun r hr => ?_
        obtain ⟨b, rfl, hab⟩ := hr
        exact ih hps hab

/-- **What `Combine` comes to** is the outcome of what its parameters add up to. -/
theorem meets_combine (call : Call)
    (hps : ∀ p ∈ call.params,
      p.function? = none ∧ Still ends (Reduce.Stays .loose p) (ev.reduce p ctx)) :
    Meets (.quietIf (combinedAll? call.params ≠ none)) ends
      (Outcome.Kin .loose (Combined.outcome call.origin (combinedAll? call.params)))
      (combine.reduce ev call ctx) := by
  have hall := meets_combineAll call hps .nothing
  rw [show (combinedAll? call.params).bind Combined.nothing.append = combinedAll? call.params from
    Option.bind_fun_some _] at hall
  have horigin : ∀ o : Origin, o.Kin .loose o := fun o => ⟨rfl, rfl, rfl, trivial⟩
  refine meets_bind hall fun r hr => ?_
  cases hsum : combinedAll? call.params with
  | none =>
    rw [hsum] at hr
    subst hr
    exact meets_pure (.token (horigin _).error)
  | some a =>
    rw [hsum] at hr
    obtain ⟨b, rfl, hab⟩ := hr
    cases hab with
    | nothing => exact meets_pure .empty
    | items his => exact meets_pure (.value (.array his (horigin _)))
    | entries hes => exact meets_pure (.value (Node.kin_block hes (horigin _)))

end Library

/-! ### Groups of parameters -/

/-- **Whether parameters are those of a flat list, grouped.** Consecutive ones may be the parameters
of a call of their own, also none at all, and grouped again there; nulls may stand anywhere. -/
inductive Regroups (f : String) : List Node → List Node → Prop
  | nil : Regroups f [] []
  | keep (p : Node) {ps qs : List Node} (h : Regroups f ps qs) : Regroups f (p :: ps) (p :: qs)
  | null {t : Token} (ht : t.isNull = true) {ps qs : List Node} (h : Regroups f ps qs) :
    Regroups f ps (.token t :: qs)
  | group (o : Origin) {ps qs ps' qs' : List Node} (h : Regroups f ps qs)
    (h' : Regroups f ps' qs') : Regroups f (ps ++ ps') (.call f qs o :: qs')

namespace Regroups

variable {f : String} {ps qs : List Node}

theorem refl (f : String) (ps : List Node) : Regroups f ps ps := by
  induction ps with
  | nil => exact .nil
  | cons p ps ih => exact .keep p ih

/-- Grouping makes nothing less deep. -/
theorem depth (h : Regroups f ps qs) {d : Nat} (hqs : ∀ q ∈ qs, q.depth ≤ d) :
    ∀ p ∈ ps, p.depth ≤ d := by
  induction h generalizing d with
  | nil => simp
  | keep p h ih =>
    obtain ⟨hp, hqs⟩ := List.forall_mem_cons.mp hqs
    exact List.forall_mem_cons.mpr ⟨hp, ih hqs⟩
  | null ht h ih => exact ih (List.forall_mem_cons.mp hqs).2
  | @group o ps qs ps' qs' h h' ih ih' =>
    obtain ⟨hcall, hqs⟩ := List.forall_mem_cons.mp hqs
    obtain ⟨d, rfl⟩ : ∃ d', d = d' + 1 :=
      ⟨d - 1, by have := (Node.call f qs o).depth_pos; omega⟩
    refine List.forall_mem_append.mpr ⟨fun p hp => ?_, ih' hqs⟩
    exact Nat.le_succ_of_le (ih (Node.depth_call_le.mp hcall) p hp)

end Regroups

namespace Reduce

variable {env : Surroundings} {limit : Nat} {ends : Prop} {ctx : Context} {f : String}
  {ps qs : List Node}

theorem loose_trans {c d e : Context} (_ : Kinship.loose.contexts c d)
    (_ : Kinship.loose.contexts d e) : Kinship.loose.contexts c e := trivial

theorem outcome_kin {x y : Option Combined} (h : Option.Rel (CombinedKin .loose) x y)
    {o o' : Origin} (ho : o.Kin .loose o') :
    (Combined.outcome o x).Kin .loose (Combined.outcome o' y) := by
  cases h with
  | none => exact .token ho.error
  | some h =>
    cases h with
    | nothing => exact .empty
    | items his => exact .value (.array his ho)
    | entries hes => exact .value (Node.kin_block hes ho)

/-- A node that is a token or a collection and stays as it is. -/
def Collected (limit : Nat) (env : Surroundings) (ends : Prop) (n : Node) : Prop :=
  n.function? = none ∧ Kept limit env ends n

theorem Collected.kin {m n : Node} (hm : Collected limit env ends m) (h : m.Kin .loose n) :
    Collected limit env ends n :=
  ⟨h.function? ▸ hm.1, hm.2.1.alike h.alike, fun hends => h.alike.depth ▸ hm.2.2 hends⟩

/-- Parameters that are tokens and collections, stay as they are and add up to the same. -/
def SumsTo (limit : Nat) (env : Surroundings) (ends : Prop) (x : Option Combined)
    (r : Option (List Node)) : Prop :=
  ∃ rs, r = some rs ∧ (∀ r ∈ rs, Collected limit env ends r) ∧
    Option.Rel (CombinedKin .loose) x (combinedAll? rs)

theorem still_collected (hlimit : ends → limit ≤ env.limit) {n : Node}
    (hn : Kept limit env ends n) (ctx : Context) :
    Still ends (Stays .loose n) (visit env (inContext limit) n ctx) := by
  have hkin : n.Kin .loose n := Node.Kin.refl (fun _ => trivial) fun _ _ => trivial
  have hstays := stays_inContext (K := .loose) (fun _ _ => trivial) env limit n
    (contextOf env n ctx) hn.1 hkin
  exact ((still_visit (still_inContext limit) hlimit ctx hn).and hstays fun _ _ => trivial).imp
    fun _ h => h.2

/-- What parameters add up to is again a token or a collection as a node, and adds the same. -/
theorem collected_outcome (hps : ∀ p ∈ ps, Collected limit env ends p) {o : Origin} {out : Outcome}
    (h : (Library.Combined.outcome o (combinedAll? ps)).Kin .loose out) (origin : Origin) :
    ∃ r, out.toNode? origin = some r ∧ Collected (limit + 1) env ends r ∧
      Option.Rel (CombinedKin .loose) (combinedAll? ps) (combined? r) := by
  have htoken : ∀ t : Token, Collected (limit + 1) env ends (.token t) := fun t =>
    ⟨rfl, .token t, fun _ => by rw [Node.depth_token]; omega⟩
  have hall : ∀ {a : Combined}, combinedAll? ps = some a → a.All (Kept limit env ends) :=
    Library.all_combinedAll? (N := Collected limit env ends)
      (fun hn i hi => ⟨Node.settled_array.mp hn.2.1 i hi, fun hends =>
        Node.depth_array_le.mp (Nat.le_succ_of_le (hn.2.2 hends)) i hi⟩)
      (fun hn e he => ⟨Node.settled_block.mp hn.2.1 e he, fun hends =>
        Node.depth_block_le.mp (Nat.le_succ_of_le (hn.2.2 hends)) e he⟩) hps
  cases hsum : combinedAll? ps with
  | none =>
    rw [hsum] at h
    cases h with
    | value h =>
      cases h with
      | @token _ t ht =>
        refine ⟨_, rfl, htoken t, ?_⟩
        rw [combined?, if_neg (by rw [← ht.isNull]; exact Bool.false_ne_true)]
        exact .none
  | some a =>
    rw [hsum] at h
    have ha := hall hsum
    cases a with
    | nothing =>
      cases h with
      | empty => exact ⟨_, rfl, htoken _, .some .nothing⟩
    | items ns =>
      cases h with
      | value h =>
        have hkept : Collected (limit + 1) env ends (.array ns o) :=
          ⟨rfl, .array fun n hn => (ha n hn).1, fun hends =>
            Node.depth_array_le.mpr fun n hn => (ha n hn).2 hends⟩
        have hkept' := hkept.kin h
        cases h with
        | array hns _ => exact ⟨_, rfl, hkept', .some (.items hns)⟩
    | entries es =>
      cases h with
      | value h =>
        have hkept : Collected (limit + 1) env ends (.block es o) :=
          ⟨rfl, .block fun e he => (ha e he).1, fun hends =>
            Node.depth_block_le.mpr fun e he => (ha e he).2 hends⟩
        have hkept' := hkept.kin h
        obtain ⟨fs, o', rfl, hes, -⟩ := h.block
        have hmerged : Entries.overlay [] es = es := Library.merged_combinedAll? hsum
        have hentries := Entries.kin_overlay (K := .loose) .nil hes
        rw [hmerged] at hentries
        exact ⟨_, rfl, hkept', .some (.entries hentries)⟩

section

variable (hf : f ∉ constructs) (hget : Registry.get? env.registry f = some Library.combine)
  (hlimit : ends → limit ≤ env.limit)
include hf hget hlimit

/-- A call comes to the outcome of what its parameters add up to once they are reduced. -/
theorem meets_combineCall {x : Option Combined} (o : Origin)
    (hparams : Meets (.quietIf (x ≠ none)) ends (SumsTo limit env ends x)
      (reduceParams env (inContext limit) ctx qs)) :
    Meets (.quietIf (x ≠ none)) ends (Outcome.Kin .loose (Combined.outcome o x))
      (call env (inContext limit) ⟨f, qs, o⟩ none ctx) := by
  have hcall : Meets (.quietIf (x ≠ none)) ends (Outcome.Kin .loose (Combined.outcome o x))
      (callFunction env (inContext limit) Library.combine ⟨f, qs, o⟩ ctx) := by
    have hreduced : Meets (.quietIf (x ≠ none)) ends
        (fun r => ∃ rs, r = some ⟨f, rs, { o with context := ctx }⟩ ∧
          (∀ r ∈ rs, Collected limit env ends r) ∧
            Option.Rel (CombinedKin .loose) x (combinedAll? rs))
        (reduceCallParams env (inContext limit) ⟨f, qs, o⟩ ctx) :=
      meets_map hparams fun r ⟨rs, hr, hrs⟩ => ⟨rs, hr ▸ rfl, hrs⟩
    refine meets_bind hreduced fun r hr => ?_
    obtain ⟨rs, rfl, hrs, hsum⟩ := hr
    have hnone : x ≠ none → combinedAll? rs ≠ none := by
      intro hx hrs
      rw [hrs] at hsum
      cases hsum
      exact hx rfl
    have hstay : ∀ r ∈ rs, r.function? = none ∧ Still ends (Stays .loose r)
        ((evaluator env (inContext limit)).reduce r ctx) := fun r hr =>
      ⟨(hrs r hr).1, still_collected hlimit (hrs r hr).2 ctx⟩
    refine meets_bind ((Library.meets_combine ⟨f, rs, { o with context := ctx }⟩ hstay).mono
      (Terms.quietIf_covers_quietIf hnone) id fun _ h => h) fun out hout => ?_
    have horigin : o.Kin .loose { o with context := ctx } := ⟨rfl, rfl, rfl, trivial⟩
    have hkin : (Combined.outcome o x).Kin .loose out :=
      (outcome_kin hsum horigin).trans loose_trans hout
    have hready : out.isPending = false := by
      rw [← hkin.isPending]
      rcases x with _ | _ | _ | _ <;> rfl
    rw [hready]
    exact meets_pure hkin
  rw [call_eq_callFunction hf hget]
  exact hcall

omit hf hget in
/-- A parameter that stays as it is, in front of parameters that add up to something. -/
theorem meets_collected_cons {p : Node} {x y : Option Combined} (hp : Collected limit env ends p)
    (hqs : Meets (.quietIf (x ≠ none)) ends (SumsTo limit env ends x)
      (reduceParams env (inContext limit) ctx qs)) (hxy : y ≠ none → x ≠ none)
    (hsum : ∀ {q rs}, p.Kin .loose q → Option.Rel (CombinedKin .loose) x (combinedAll? rs) →
      Option.Rel (CombinedKin .loose) y (combinedAll? (q :: rs))) :
    Meets (.quietIf (y ≠ none)) ends (SumsTo limit env ends y)
      (reduceParams env (inContext limit) ctx (p :: qs)) := by
  refine meets_bind ((still_collected hlimit hp.2 ctx).mono (Terms.still_covers_quietIf _) id
    fun _ h => h) fun out hout => ?_
  obtain ⟨q, rfl, hpq⟩ := hout
  refine meets_map (hqs.mono (Terms.quietIf_covers_quietIf hxy) id fun _ h => h) fun r hr => ?_
  obtain ⟨rs, rfl, hrs, hx⟩ := hr
  exact ⟨q :: rs, rfl, List.forall_mem_cons.mpr ⟨hp.kin hpq, hrs⟩, hsum hpq hx⟩

/-- **Grouped parameters add up to the same** as those of the flat list. -/
theorem meets_regrouped (h : Regroups f ps qs)
    (hps : ∀ p ∈ ps, p.function? = none ∧ p.Settled env.registry env.late)
    (hdepth : ends → ∀ q ∈ qs, q.depth ≤ limit) :
    Meets (.quietIf (combinedAll? ps ≠ none)) ends (SumsTo limit env ends (combinedAll? ps))
      (reduceParams env (inContext limit) ctx qs) := by
  induction h generalizing limit ctx with
  | nil => exact meets_pure ⟨[], rfl, by simp, .some .nothing⟩
  | @keep p ps qs h ih =>
    obtain ⟨⟨hcall, hp⟩, hps⟩ := List.forall_mem_cons.mp hps
    have hkept : Collected limit env ends p :=
      ⟨hcall, hp, fun hends => hdepth hends p List.mem_cons_self⟩
    have hless : ends → ∀ q ∈ qs, q.depth ≤ limit := fun hends q hq =>
      hdepth hends q (List.mem_cons_of_mem _ hq)
    exact meets_collected_cons hlimit hkept (ih hlimit hps hless)
      (fun h => (Library.combinedAll?_ne_none [p] ps h).2)
      fun hpq hsum => Library.kin_sum (Library.kin_combined? hpq) hsum
  | @null t ht ps qs h ih =>
    have hkept : Collected limit env ends (.token t) :=
      ⟨rfl, .token t, fun hends => hdepth hends _ List.mem_cons_self⟩
    have hless : ends → ∀ q ∈ qs, q.depth ≤ limit := fun hends q hq =>
      hdepth hends q (List.mem_cons_of_mem _ hq)
    refine meets_collected_cons hlimit hkept (ih hlimit hps hless) id fun {q rs} hq hsum => ?_
    have hnothing : combined? q = some .nothing := Library.combined?_null (hq.isNull ▸ ht)
    rw [combinedAll?, hnothing, Option.bind_some]
    exact (Option.bind_fun_some (combinedAll? rs)).symm ▸ hsum
  | @group o ps qs ps' qs' h h' ih ih' =>
    have hnone := Library.combinedAll?_ne_none ps ps'
    obtain ⟨hps, hps'⟩ := List.forall_mem_append.mp hps
    cases limit with
    | zero =>
      refine meets_bind (P := fun _ => False) (meets_halt _ fun hends => ?_) fun _ h => h.elim
      exact absurd (hdepth hends _ List.mem_cons_self) (Nat.not_le.mpr (Node.depth_pos _))
    | succ limit =>
      have hcalldepth : ends → ∀ q ∈ qs, q.depth ≤ limit := fun hends =>
        Node.depth_call_le.mp (hdepth hends _ List.mem_cons_self)
      have hless : ends → limit ≤ env.limit := fun hends => Nat.le_of_succ_le (hlimit hends)
      have hcollected : ∀ p ∈ ps, Collected limit env ends p := fun p hp =>
        ⟨(hps p hp).1, (hps p hp).2, fun hends => h.depth (hcalldepth hends) p hp⟩
      refine meets_bind ((meets_combineCall hf hget hless o (ih hless hps hcalldepth)).mono
        (Terms.quietIf_covers_quietIf fun h => (hnone h).1) id fun _ h => h) fun out hout => ?_
      obtain ⟨r, hr, hrcollected, hrsum⟩ := collected_outcome hcollected hout o
      have hr' : out.toNode? (Node.call f qs o).origin = some r := hr
      simp only [hr']
      have hbehind : ends → ∀ q ∈ qs', q.depth ≤ limit + 1 := fun hends q hq =>
        hdepth hends q (List.mem_cons_of_mem _ hq)
      refine meets_map ((ih' hlimit hps' hbehind).mono
        (Terms.quietIf_covers_quietIf fun h => (hnone h).2) id fun _ h => h) fun x hx => ?_
      obtain ⟨rs, rfl, hrs, hsum⟩ := hx
      refine ⟨r :: rs, rfl, List.forall_mem_cons.mpr ⟨hrcollected, hrs⟩, ?_⟩
      rw [Library.combinedAll?_append]
      exact Library.kin_sum hrsum hsum

/-- A call whose parameters are grouped comes to what those of the flat list combine to. -/
theorem meets_groupedCall (h : Regroups f ps qs)
    (hps : ∀ p ∈ ps, p.function? = none ∧ p.Settled env.registry env.late) (o : Origin)
    (hdepth : ends → (Node.call f qs o).depth ≤ limit) :
    Meets (.quietIf (combinedAll? ps ≠ none)) ends
      (Outcome.Kin .loose (Library.combination o ps))
      (visit env (inContext limit) (.call f qs o) ctx) := by
  cases limit with
  | zero =>
    exact meets_halt _ fun hends =>
      absurd (hdepth hends) (Nat.not_le.mpr (Node.call f qs o).depth_pos)
  | succ limit =>
    rw [← Library.outcome_combinedAll?]
    have hless : ends → limit ≤ env.limit := fun hends => Nat.le_of_succ_le (hlimit hends)
    exact meets_combineCall hf hget hless o (meets_regrouped hf hget hless h hps fun hends =>
      Node.depth_call_le.mp (hdepth hends))

end

/-- **Combining is associative, with null and nothing as identities.** Parameters are tokens, arrays
and blocks that the pass leaves as they are. However they are grouped, the call comes to what all of
them combine to, and so to what it comes to without groups. Nothing is drawn or remembered on the
way, and nothing reported unless something is wrong. -/
theorem combine_regrouped (hf : f ∉ constructs)
    (hget : Registry.get? env.registry f = some Library.combine) (h : Regroups f ps qs)
    (hps : ∀ p ∈ ps, p.function? = none ∧ p.Settled env.registry env.late) (o : Origin)
    (hdepth : (Node.call f qs o).depth ≤ env.limit) (ctx : Context) (s : WalkState) :
    ∃ flat grouped, (reduce env (.call f ps o) ctx s).answer = .ok flat ∧
      (reduce env (.call f qs o) ctx s).answer = .ok grouped ∧
      (Library.combination o ps).Kin .loose flat ∧ flat.Kin .loose grouped ∧
      (reduce env (.call f qs o) ctx s).state = s ∧
      (Library.combination o ps ≠ .error o →
        ∀ note ∈ (reduce env (.call f qs o) ctx s).notes, note.IsRemark) := by
  have hflatdepth : (Node.call f ps o).depth ≤ env.limit := by
    obtain ⟨d, hd⟩ : ∃ d, env.limit = d + 1 :=
      ⟨env.limit - 1, by have := (Node.call f qs o).depth_pos; omega⟩
    rw [hd] at hdepth ⊢
    exact Node.depth_call_le.mpr (h.depth (Node.depth_call_le.mp hdepth))
  have hrun : ∀ {rs : List Node}, Regroups f ps rs → (Node.call f rs o).depth ≤ env.limit →
      Meets.Run (.quietIf (combinedAll? ps ≠ none)) True
        (Outcome.Kin .loose (Library.combination o ps)) s (reduce env (.call f rs o) ctx s) :=
    fun hrs hdepth => meets_groupedCall hf hget (fun _ => Nat.le_refl _) hrs hps o
      (fun _ => hdepth) s fun _ _ => trivial
  have hflat := hrun (.refl f ps) hflatdepth
  have hgrouped := hrun h hdepth
  obtain ⟨flat, hflatanswer⟩ := hflat.ends trivial
  obtain ⟨grouped, hgroupedanswer⟩ := hgrouped.ends trivial
  have hflatkin := hflat.answer flat hflatanswer
  refine ⟨flat, grouped, hflatanswer, hgroupedanswer, hflatkin,
    (hflatkin.symm fun _ => trivial).trans loose_trans (hgrouped.answer grouped hgroupedanswer),
    hgrouped.state trivial, fun herror note hnote => hgrouped.notes note hnote fun hnone => ?_⟩
  refine herror ?_
  rw [← Library.outcome_combinedAll?, hnone]
  rfl

/-- Of `{ a: x }` and `{ b: y, a: z }`, the former in a group of its own, with a null and an empty
group after it, the entries are `b: y` and `a: z`, the latter under the key of the first block. -/
theorem combine_regrouped_blocks :
    let env : Surroundings :=
      ⟨.builtin, .plain (fun _ => none) fun _ => none, .standard, false, ["main.txt"], 100⟩
    let o : Origin := .unwritten
    let text (column : Nat) (s : String) : Token := .content s (.written ⟨"main.txt", 1, column⟩ 1)
    let first : Node := .block [(text 3 "a", .token (text 6 "x"))] o
    let second : Node :=
      .block [(text 12 "b", .token (text 15 "y")), (text 18 "a", .token (text 21 "z"))] o
    let groups : List Node :=
      [.call "Combine" [first] o, .token (.null o), .call "Combine" [] o, second]
    let s : WalkState := ⟨.standard 0, []⟩
    ∃ flat grouped,
      (reduce env (.call "Combine" [first, second] o) [] s).answer = .ok flat ∧
      (reduce env (.call "Combine" groups o) [] s).answer = .ok grouped ∧
      flat.Kin .loose grouped ∧ Outcome.Kin .loose (.value (.block
        [(text 12 "b", .token (text 15 "y")), (text 3 "a", .token (text 21 "z"))] o)) flat := by
  intro env o text first second groups s
  have hgroups : Regroups "Combine" ([first] ++ ([] ++ [second])) groups :=
    .group o (.refl _ _) (.null rfl (.group o .nil (.refl _ _)))
  have hsettled : ∀ p ∈ [first, second],
      p.function? = none ∧ p.Settled env.registry env.late := by
    simp [first, second, Node.function?]
  obtain ⟨flat, grouped, hflat, hgrouped, hkin, hsame, -⟩ :=
    combine_regrouped (by decide) rfl hgroups hsettled o (by decide) [] s
  exact ⟨flat, grouped, hflat, hgrouped, hsame, hkin⟩

end Reduce

end ContentLang
