import ContentLang.Proofs.Deferral.Delivery
import ContentLang.Proofs.Joining.Waiting
import ContentLang.Proofs.Walk.InTurn

/-!
# What is joined

`Join` depends on nothing but the members of its parameters, however they are nested
(`ContentLang.Reduce.join_renested`). While content is loaded the call collapses to a token if and
only if no member is a call of a late function; otherwise it is kept whole, with what it waits for.
When content is consumed the late calls are forced, one after the other from left to right
(`ContentLang.Reduce.Forces`), and it collapses in any case.

What a late call comes to depends on what was drawn before. Members that are forced in the same
order draw the same, however they are nested, and nulls draw nothing. So a walk that consumes a
parameter goes along with its members (`ContentLang.Reduce.forces_visit`), and the function then
finds nothing but tokens.

A call that was kept has other members than the one that was loaded: each is what the pass made of
it. But the pass makes one thing only of each, so what was nested differently has the same members
still (`ContentLang.Reduce.Renests.waits`).
-/

namespace ContentLang

open Walk

namespace Reduce

/-! ### Members that are forced -/

/-- **Whether a member comes to a token** when it is consumed from a state, once the limits are high
enough; with its text, unless the token is null, and the state that is left. -/
def Resolves (env : Surroundings) (s : WalkState) (m : Member) (x : Option String)
    (s' : WalkState) : Prop :=
  ∃ t : Token, t.text? = x ∧
    Reaches (fun k l => visit (env.upTo l) (inContext k) m.node m.context) s (.value (.token t)) s'

/-- **Whether members have texts when late calls are forced**, one after the other from a state: a
token has its own text, a call of a late function that of the token it comes to, and a null has
none. -/
inductive Forces (env : Surroundings) : WalkState → List Member → List String → WalkState → Prop
  | nil (s : WalkState) : Forces env s [] [] s
  | token {s s' : WalkState} {c : Context} {t : Token} {ms : List Member} {xs : List String}
    (h : Forces env s ms xs s') : Forces env s (⟨c, .token t⟩ :: ms) (t.text?.toList ++ xs) s'
  | late {s s' s'' : WalkState} {m : Member} {x : Option String} {ms : List Member}
    {xs : List String} (hlate : m.node.IsLate env.registry) (hm : Resolves env s m x s')
    (h : Forces env s' ms xs s'') : Forces env s (m :: ms) (x.toList ++ xs) s''

section

variable {env : Surroundings} {s s' : WalkState} {xs : List String}

theorem Forces.simple {ms : List Member} (h : Forces env s ms xs s') :
    ∀ m ∈ ms, m.Simple env.registry := by
  induction h with
  | nil => simp
  | token _ ih => exact List.forall_mem_cons.mpr ⟨.inl ⟨_, rfl⟩, ih⟩
  | late hlate _ _ ih => exact List.forall_mem_cons.mpr ⟨.inr hlate, ih⟩

/-- Members one after the other are forced one after the other. -/
theorem Forces.split {ms ns : List Member} {zs : List String} (h : Forces env s (ms ++ ns) zs s') :
    ∃ xs s'' ys, Forces env s ms xs s'' ∧ Forces env s'' ns ys s' ∧ zs = xs ++ ys := by
  induction ms generalizing s zs with
  | nil => exact ⟨[], s, zs, .nil s, h, rfl⟩
  | cons m ms ih =>
    cases h with
    | token h =>
      obtain ⟨xs, s'', ys, hms, hns, rfl⟩ := ih h
      exact ⟨_, s'', ys, .token hms, hns, (List.append_assoc ..).symm⟩
    | late hlate hm h =>
      obtain ⟨xs, s'', ys, hms, hns, rfl⟩ := ih h
      exact ⟨_, s'', ys, .late hlate hm hms, hns, (List.append_assoc ..).symm⟩

/-- A null is forced to nothing. -/
theorem forces_null {m : Member} (hm : m.node.isNull = true) {ms : List Member} :
    Forces env s (m :: ms) xs s' ↔ Forces env s ms xs s' := by
  obtain ⟨c, n⟩ := m
  cases n with
  | token t =>
    have htext : t.text? = none := if_pos hm
    constructor
    · intro h
      cases h with
      | token h => rwa [htext]
      | late hlate => exact absurd hlate (Member.not_late_of_null hm)
    · intro h
      have hforced := Forces.token (c := c) (t := t) h
      rwa [htext] at hforced
  | _ => exact absurd hm (by simp [Node.isNull])

/-- **Nulls make no difference** to what members are forced to. -/
theorem forces_withoutNulls {ms : List Member} :
    Forces env s (withoutNulls ms) xs s' ↔ Forces env s ms xs s' := by
  induction ms generalizing s xs with
  | nil => rfl
  | cons m ms ih =>
    cases hnull : m.node.isNull with
    | true =>
      have hfilter : withoutNulls (m :: ms) = withoutNulls ms :=
        List.filter_cons_of_neg (by simp [hnull])
      rw [hfilter, ih, forces_null hnull]
    | false =>
      have hfilter : withoutNulls (m :: ms) = m :: withoutNulls ms :=
        List.filter_cons_of_pos (by simp [hnull])
      rw [hfilter]
      constructor
      · intro h
        cases h with
        | token h => exact .token (ih.mp h)
        | late hlate hm h => exact .late hlate hm (ih.mp h)
      · intro h
        cases h with
        | token h => exact .token (ih.mpr h)
        | late hlate hm h => exact .late hlate hm (ih.mpr h)

/-- Members that are the same, nulls aside, are forced to the same. -/
theorem Forces.of_members {ms ns : List Member} (h : withoutNulls ms = withoutNulls ns)
    (hms : Forces env s ms xs s') : Forces env s ns xs s' :=
  forces_withoutNulls.mp (h ▸ forces_withoutNulls.mpr hms)

end

/-! ### Consumption -/

/-- **What nodes are consumed as**, one after the other from a state. -/
inductive Consumes (env : Surroundings) (ctx : Context) :
    WalkState → List Node → List Node → WalkState → Prop
  | nil (s : WalkState) : Consumes env ctx s [] [] s
  | cons {s s' s'' : WalkState} {p q : Node} {ps qs : List Node}
    (h : Reaches (fun k l => visit (env.upTo l) (inContext k) p ctx) s (.value q) s')
    (hs : Consumes env ctx s' ps qs s'') : Consumes env ctx s (p :: ps) (q :: qs) s''

section

variable {env : Surroundings} {ctx : Context} {s s' : WalkState} {ps qs : List Node}

theorem Consumes.params (h : Consumes env ctx s ps qs s') :
    Reaches (fun k l => reduceParams (env.upTo l) (inContext k) ctx ps) s (some qs) s' := by
  induction h with
  | nil s => exact reaches_pure _ s
  | @cons _ _ _ p q ps qs h _ ih => exact h.bind (ih.map (Option.map (q :: ·)))

variable (hlate : env.late = true)
include hlate

/-- Elements that bind nothing are consumed one after the other. -/
theorem Consumes.elements (hplain : ∀ p ∈ ps, ∀ k l,
      element (env.upTo l) (inContext k) ctx p = plainElement (env.upTo l) (inContext k) ctx p)
    (h : Consumes env ctx s ps qs s') :
    Reaches (fun k l => elements (env.upTo l) (inContext k) ctx ps) s (some qs) s' := by
  induction h with
  | nil s => exact reaches_pure _ s
  | @cons s s' _ p q ps qs h _ ih =>
    obtain ⟨hp, hps⟩ := List.forall_mem_cons.mp hplain
    have hfirst : Reaches (fun k l => element (env.upTo l) (inContext k) ctx p) s
        (some [q], ctx) s' := by
      simp only [hp]
      have hlater : ∀ l, (env.upTo l).late = true := fun _ => hlate
      simp only [plainElement_late (hlater _)]
      exact h.map fun out : Outcome => (out.toItems?, ctx)
    exact hfirst.bind ((ih hps).map (Option.map ([q] ++ ·)))

/-- What a node is consumed as while its late calls are forced to texts. -/
def ForcedTo (env : Surroundings) (xs : List String) (q : Node) : Prop :=
  textsOf (Registry.isKnown env.registry) q = .ok xs ∧ q.Settled env.registry env.late

omit hlate in
theorem textsOf_token {known : String → Bool} (t : Token) :
    textsOf known (.token t) = .ok t.text?.toList := by
  rw [textsOf, TokenOf.text?]
  split <;> rfl

omit hlate in
/-- Nodes go along with their members if each of them does. -/
theorem forces_all {xs : List String} (hps : ∀ p ∈ ps, ∀ (s : WalkState) (xs : List String)
      (s' : WalkState), Forces env s (membersOf env ctx p) xs s' →
        ∃ q, Reaches (fun k l => visit (env.upTo l) (inContext k) p ctx) s (.value q) s' ∧
          ForcedTo env xs q)
    (h : Forces env s (membersOfAll env ctx ps) xs s') :
    ∃ qs, Consumes env ctx s ps qs s' ∧
      textsOfAll (Registry.isKnown env.registry) qs = .ok xs ∧
      ∀ q ∈ qs, q.Settled env.registry env.late := by
  induction ps generalizing s xs with
  | nil =>
    cases h
    exact ⟨[], .nil _, rfl, by simp⟩
  | cons p ps ih =>
    obtain ⟨hp, hps⟩ := List.forall_mem_cons.mp hps
    rw [membersOfAll] at h
    obtain ⟨xs, s'', ys, hfirst, hrest, rfl⟩ := h.split
    obtain ⟨q, hq, htext, hsettled⟩ := hp _ xs s'' hfirst
    obtain ⟨qs, hqs, htexts, hall⟩ := ih hps hrest
    refine ⟨q :: qs, .cons hq hqs, ?_, List.forall_mem_cons.mpr ⟨hsettled, hall⟩⟩
    rw [textsOfAll, htext, htexts]
    rfl

/-- **A node is consumed along with its members**: each is forced in turn, and what the node is
consumed as has their texts. -/
theorem forces_visit (horderly : env.registry.Orderly) {p : Node} {xs : List String}
    (h : Forces env s (membersOf env ctx p) xs s') :
    ∃ q, Reaches (fun k l => visit (env.upTo l) (inContext k) p ctx) s (.value q) s' ∧
      ForcedTo env xs q := by
  induction p generalizing ctx s xs s' with
  | token t =>
    rw [membersOf_token] at h
    cases h with
    | token h =>
      cases h
      let u : Token :=
        { t with origin := { t.origin with context := contextOf env (.token t) ctx } }
      refine ⟨.token u, Reaches.nested (reaches_pure (Outcome.value (.token u)) s), ?_, .token u⟩
      rw [List.append_nil]
      exact textsOf_token u
    | late hlate =>
      obtain ⟨f, ps, o, function, hcall, -⟩ := hlate
      exact absurd hcall (by simp)
  | call f ps o =>
    rw [membersOf_call] at h
    cases h with
    | late _ hm h =>
      cases h
      obtain ⟨t, rfl, hreaches⟩ := hm
      refine ⟨.token t, hreaches, ?_, .token t⟩
      rw [List.append_nil]
      exact textsOf_token t
  | array is o ih =>
    have hsimple := h.simple
    rw [membersOf_array] at h hsimple
    obtain ⟨js, hjs, htexts, hall⟩ := forces_all (fun i hi s xs s' hi' => ih i hi hi') h
    have helements := hjs.elements hlate fun i hi k l =>
      element_of_simple horderly (forall_membersOfAll.mp hsimple i hi)
    let array : Node := .array js { o with context := contextOf env (.array is o) ctx }
    exact ⟨array, Reaches.nested (helements.bind (reaches_pure (Outcome.value array) s')), htexts,
      .array hall⟩
  | statement f ps o data =>
    have hsimple := h.simple ⟨ctx, .statement f ps o data⟩ (by simp)
    exact (Member.not_simple (by simp) (by simp) hsimple).elim
  | block es o =>
    have hsimple := h.simple ⟨ctx, .block es o⟩ (by simp)
    exact (Member.not_simple (by simp) (by simp) hsimple).elim

end

/-! ### The call -/

section

variable {env : Surroundings} {ctx : Context} {s s' : WalkState} {ps : List Node}

/-- The function gives the texts of what the parameters are consumed as. -/
theorem reaches_join_reduce {separator : Token} {items : List Node} {xs : List String}
    (htexts : textsOfAll (Registry.isKnown env.registry) items = .ok xs)
    (hitems : ∀ i ∈ items, i.Settled env.registry env.late) (f : String) (o : Origin)
    (s : WalkState) :
    Reaches (fun k l => Library.join.reduce (evaluator (env.upTo l) (inContext k))
        ⟨f, .token separator :: items, { o with context := ctx }⟩ ctx) s
      (joined separator xs o ctx) s := by
  have hdepth := Node.depthOfAll_le.mp (Nat.le_refl (Node.depthOfAll (.token separator :: items)))
  refine reaches_of_still (n := Node.depthOfAll (.token separator :: items)) (fun k l hk hl => ?_) s
  have hkeeps : (evaluator (env.upTo l) (inContext k)).Keeps True (Kept k (env.upTo l) True) :=
    keeps_evaluator (still_inContext k) fun _ => hl
  have hseparator : Kept k (env.upTo l) True (.token separator) :=
    ⟨.token _, fun _ => Nat.le_trans (hdepth _ (by simp)) hk⟩
  have hkept : ∀ i ∈ items, Kept k (env.upTo l) True i := fun i hi =>
    ⟨hitems i hi, fun _ => Nat.le_trans (hdepth i (List.mem_cons_of_mem _ hi)) hk⟩
  exact Library.still_join hkeeps hseparator hkept htexts (by simp) f _ ctx

/-- **What `Join` comes to when content is consumed**: the texts of its members with the separator
between them, late calls being forced. -/
theorem reaches_join (hlate : env.late = true) (hregistry : env.registry = .builtin)
    (separator : Token) (o : Origin) {xs : List String}
    (h : Forces env s (membersOfAll env ctx ps) xs s') :
    Reaches (fun k l => inContext k (env.upTo l) (.call "Join" (.token separator :: ps) o) ctx) s
      (joined separator xs o ctx) s' := by
  have horderly : env.registry.Orderly := hregistry ▸ Registry.orderly_builtin
  obtain ⟨items, hitems, htexts, hsettled⟩ := forces_all
    (fun p _ s xs s' hp => forces_visit hlate horderly hp) h
  let u : Token :=
    { separator with origin :=
      { separator.origin with context := contextOf env (.token separator) ctx } }
  have hparams : Consumes env ctx s (.token separator :: ps) (.token u :: items) s' :=
    .cons (Reaches.nested (reaches_pure (Outcome.value (.token u)) s)) hitems
  have hcall (k l : Nat) :
      inContext (k + 1) (env.upTo l) (.call "Join" (.token separator :: ps) o) ctx =
        callFunction (env.upTo l) (inContext k) Library.join ⟨"Join", .token separator :: ps, o⟩
          ctx := by
    show call (env.upTo l) (inContext k) ⟨"Join", .token separator :: ps, o⟩ none ctx = _
    have hget : Registry.get? (env.upTo l).registry "Join" = some Library.join :=
      get?_join hregistry
    exact call_eq_callFunction (by decide) hget _ o ctx
  refine Reaches.nested ?_
  simp only [hcall]
  have hreduce : Reaches (fun k l => Library.join.reduce (evaluator (env.upTo l) (inContext k))
      ⟨"Join", .token u :: items, { o with context := ctx }⟩ ctx) s' (joined u xs o ctx) s' :=
    reaches_join_reduce htexts hsettled "Join" o s'
  refine Reaches.bind (hparams.params.map (Option.map fun qs =>
    (⟨"Join", qs, { o with context := ctx }⟩ : Call))) ?_
  exact hreduce.bind (reaches_pure (joined separator xs o ctx) s')

end

/-! ### The call that waited -/

/-- Whether a note is left when a late call among members is loaded by itself. -/
def LeftFor (env : Surroundings) (ms : List Member) (note : Note) : Prop :=
  ∃ m ∈ ms, m.node.IsLate env.registry ∧
    ∃ k l s, note ∈ (inContext k (env.upTo l) m.node m.context s).notes

/-- What has captured bindings is consumed within those, and otherwise within those that a call
around it is consumed in. -/
theorem contextOf_captured {env : Surroundings} {n m : Node} {ctx c : Context}
    (hn : n.origin.context = ctx) (hm : m.origin.context = ctx) :
    contextOf env n (contextOf env m c) = contextOf env m c := by
  unfold contextOf
  rw [hn, hm]
  split <;> rfl

/-- **A call that waited comes to the texts of its members**, as they were nested before it was
loaded or differently. -/
theorem reaches_keptJoin {env later : Surroundings} (henv : env.Loads) (hlate : later.late = true)
    (hregistry : later.registry = .builtin) {ctx c : Context} {ps qs us rs : List Node}
    (hqs : Renests env ctx ps qs) (hus : List.Forall₂ (Waits env ctx) ps us)
    (hrs : List.Forall₂ (Waits env ctx) qs rs) (separator : Token) (o : Origin) {s s' : WalkState}
    {xs : List String}
    (h : Forces later s (membersOfAll later (contextOf later (keptJoin separator us o ctx) c) us)
      xs s') :
    Reaches (fun k l => visit (later.upTo l) (inContext k) (keptJoin separator rs o ctx) c) s
      (joined separator xs o (contextOf later (keptJoin separator us o ctx) c)) s' := by
  have hcaptured : ∀ is (o' : Origin), contextOf later (.array is { o' with context := ctx })
      (contextOf later (keptJoin separator us o ctx) c) =
        contextOf later (keptJoin separator us o ctx) c := fun is o' => contextOf_captured rfl rfl
  exact reaches_join hlate hregistry _ _ (h.of_members (hqs.waits henv hcaptured hus hrs))

/-- A choice from a single token comes to that token, and draws once. -/
theorem resolves_choice {env : Surroundings} (hlate : env.late = true)
    (hregistry : env.registry = .builtin) (c : Context) (t : Token) (a b : Origin) (s : WalkState) :
    Resolves env s ⟨c, .call "Choose" [.array [.token t] a] b⟩ t.text?
      { s with generator := s.generator.advance } := by
  let choice : Node := .call "Choose" [.array [.token t] a] b
  let d := contextOf env choice c
  let u : Token := { t with origin := { t.origin with context := contextOf env (.token t) d } }
  have hfunction : Registry.get? env.registry "Choose" = some Library.choose := by
    rw [hregistry]
    rfl
  have hcall (k l : Nat) : visit (env.upTo l) (inContext (k + 1)) choice c =
      Library.choose.reduce (evaluator (env.upTo l) (inContext k))
        ⟨"Choose", [.array [.token t] a], b⟩ d := by
    have hlater : (env.upTo l).late = true := hlate
    exact inContext_late hlater (by decide) hfunction rfl _ b
  have hdraw : Reaches (fun _ l => Walk.draw (uniformIndex 1 l)) s 0
      { s with generator := s.generator.advance } := by
    refine ⟨1, fun k l hk hl => ?_⟩
    have hrun : Walk.draw (uniformIndex 1 l) s =
        ⟨.ok 0, { s with generator := s.generator.advance }, []⟩ := by
      rw [Walk.draw, uniformIndex_one (by omega)]
    exact ⟨congrArg Walked.answer hrun, congrArg Walked.state hrun⟩
  refine ⟨u, rfl, Reaches.nested ?_⟩
  show Reaches (fun k l => visit (env.upTo l) (inContext (k + 1)) choice c) _ _ _
  simp only [hcall]
  exact hdraw.bind (Reaches.nested (reaches_pure (Outcome.value (.token u)) _))

/-! ### Both passes -/

/-- **`Join` depends only on the members of its parameters**, tokens and late calls, and is all or
nothing. Let some parameters be nested differently, nulls aside.

While content is loaded the call comes to a token if and only if no member is a late call, namely to
the texts of the members, from left to right and without nulls, with the separator between them.
Otherwise it is kept whole, and nothing is reported unless it is for the late calls. When the call
that was kept is consumed, it comes to the texts that the members are forced to, as they were kept.

When it is consumed at once, it comes to the texts that the members are forced to as well. -/
theorem join_renested {env : Surroundings} (hregistry : env.registry = .builtin) {ctx : Context}
    {ps qs : List Node} (hps : ∀ m ∈ membersOfAll env ctx ps, m.Simple env.registry)
    (hqs : Renests env ctx ps qs) (separator : Token) (o : Origin) :
    let members := membersOfAll env ctx ps
    let run (k l : Nat) := inContext k (env.upTo l) (.call "Join" (.token separator :: qs) o) ctx
    (env.late = false → ctx.Laid env.registry noneShunned →
      ((∃ t, Comes run (.value (.token t))) ↔ ∀ m ∈ members, ¬ m.node.IsLate env.registry) ∧
      ((∀ m ∈ members, ¬ m.node.IsLate env.registry) →
        Comes run (joined separator (members.filterMap Member.text?) o ctx)) ∧
      ((∃ m ∈ members, m.node.IsLate env.registry) →
        ∃ rs, List.Forall₂ (Waits env ctx) qs rs ∧
          Comes run (.value (keptJoin separator rs o ctx)) ∧
          ∀ later : Surroundings, later.late = true → later.registry = .builtin →
            ∀ us, List.Forall₂ (Waits env ctx) ps us → ∀ (around : Context) (s s' : WalkState) xs,
              let c := contextOf later (keptJoin separator rs o ctx) around
              Forces later s (membersOfAll later c us) xs s' →
                Reaches (fun k l => visit (later.upTo l) (inContext k)
                  (keptJoin separator rs o ctx) around) s (joined separator xs o c) s') ∧
      ∀ k l s, ∀ note ∈ (run k l s).notes, note.diagnostic? = none ∨ LeftFor env members note) ∧
    (env.late = true → ∀ s s' xs, Forces env s members xs s' →
      Reaches run s (joined separator xs o ctx) s') := by
  intro members run
  -- Nulls are no late calls, so what is said of the members holds of those nested differently.
  have hqsSimple := hqs.forall_members (fun _ => Member.simple_of_null) hps
  constructor
  · intro hlate hctx
    have henv := Surroundings.loads_builtin hlate hregistry
    have hnone : (∀ m ∈ members, ¬ m.node.IsLate env.registry) →
        ∀ m ∈ membersOfAll env ctx qs, ¬ m.node.IsLate env.registry :=
      hqs.forall_members fun _ => Member.not_late_of_null
    have hsome : (∃ m ∈ members, m.node.IsLate env.registry) →
        ∃ m ∈ membersOfAll env ctx qs, m.node.IsLate env.registry := by
      rintro ⟨m, hm, hmlate⟩
      by_contra hqsNone
      exact hqs.symm.forall_members (fun _ => Member.not_late_of_null)
        (fun m' hm' hlate' => hqsNone ⟨m', hm', hlate'⟩) m hm hmlate
    have htexts :
        (membersOfAll env ctx qs).filterMap Member.text? = members.filterMap Member.text? := by
      rw [← Member.texts_withoutNulls, ← hqs.members, Member.texts_withoutNulls]
    have hleaves : ∀ m ∈ membersOfAll env ctx qs, m.node.IsLate env.registry →
        LeavesOnly env (LeftFor env members) m :=
      hqs.forall_members (fun _ hnull hmlate => absurd hmlate (Member.not_late_of_null hnull))
        fun m hm hmlate k l s note hnote => ⟨m, hm, hmlate, k, l, s, hnote⟩
    have hmeets (k l : Nat) :=
      waits_join (k := k) (l := l) henv hregistry hctx separator hqsSimple hleaves o
    have hterminating := terminates_files (env.settings.maxIncludeDepth + 1) henv hregistry
      (by omega) (.call "Join" (.token separator :: qs) o)
    obtain ⟨out, hcomes⟩ : Terminates run := hterminating.node ctx hctx
    obtain ⟨hcollapses, hwaits⟩ := hcomes.meets hmeets fun _ _ _ => trivial
    have htoken (h : ∀ m ∈ members, ¬ m.node.IsLate env.registry) :
        Comes run (joined separator (members.filterMap Member.text?) o ctx) := by
      rwa [← htexts, ← hcollapses (hnone h)]
    refine ⟨⟨?_, fun h => ⟨_, htoken h⟩⟩, htoken, fun h => ?_, fun k l s note hnote => ?_⟩
    · rintro ⟨t, ht⟩ m hm hmlate
      obtain ⟨rs, hrs, -⟩ := hwaits (hsome ⟨m, hm, hmlate⟩)
      exact absurd ((ht.unique hcomes).trans hrs) (by simp [keptJoin])
    · obtain ⟨rs, rfl, hrs⟩ := hwaits (hsome h)
      exact ⟨rs, hrs, hcomes, fun later hlater hbuiltin us hus around s s' xs hforced =>
        reaches_keptJoin henv hlater hbuiltin hqs hus hrs separator o hforced⟩
    · exact (hmeets k l s fun _ _ => trivial).notes note hnote
  · intro hlate s s' xs h
    exact reaches_join hlate hregistry separator o (h.of_members hqs.members)

/-- A choice that stands among tokens, in an array beside a null, and an empty array: the call waits
for the choice, without a diagnostic, and the choice is forced in its place. -/
theorem join_renested_choice :
    let loading : Surroundings :=
      ⟨.builtin, .plain (fun _ => none) fun _ => none, .standard, false, ["main.txt"], 100⟩
    let later : Surroundings := { loading with late := true }
    let o : Origin := .unwritten
    let word (s : String) : Node := .token (.content s o)
    let choice : Node := .call "Choose" [.array [word "b"] o] o
    let nested : List Node :=
      [.array [word "a", .token (.null o), .array [choice] o] o, .array [] o, word "c"]
    let call : Node := .call "Join" (.token (.content "-" o) :: nested) o
    ∃ rs, Comes (fun k l => inContext k (loading.upTo l) call [])
        (.value (keptJoin (.content "-" o) rs o [])) ∧
      (∀ k l s, ∀ note ∈ (inContext k (loading.upTo l) call [] s).notes, note.diagnostic? = none) ∧
      ∀ s : WalkState,
        Reaches (fun k l =>
            visit (later.upTo l) (inContext k) (keptJoin (.content "-" o) rs o []) []) s
          (.content "a-b-c" o) { s with generator := s.generator.advance } := by
  intro loading later o word choice nested call
  have hlate : Node.IsLate loading.registry choice := ⟨_, _, _, Library.choose, rfl, rfl, rfl⟩
  have hmembers (env : Surroundings) : membersOfAll env [] [word "a", choice, word "c"] =
      [⟨[], word "a"⟩, ⟨[], choice⟩, ⟨[], word "c"⟩] := by
    simp [membersOfAll, word, choice]
  have hps : ∀ m ∈ membersOfAll loading [] [word "a", choice, word "c"],
      m.Simple loading.registry := by
    rw [hmembers]
    exact List.forall_mem_cons.mpr ⟨.inl ⟨_, rfl⟩, List.forall_mem_cons.mpr
      ⟨.inr hlate, List.forall_mem_singleton.mpr (.inl ⟨_, rfl⟩)⟩⟩
  let inner : List Node := [word "a", .token (.null o), .array [choice] o]
  -- The choice is put into an array, a null before it, these into an array with what precedes
  -- them, and an empty one after that.
  have hnested : Renests loading [] [word "a", choice, word "c"] nested := by
    refine .trans (@Renests.nest loading [] [choice] o rfl [word "a"] [word "c"]) ?_
    refine .trans (@Renests.null loading [] (.null o) rfl [word "a"]
      [.array [choice] o, word "c"]) ?_
    refine .trans (@Renests.nest loading [] inner o rfl [] [word "c"]) ?_
    exact @Renests.nest loading [] [] o rfl [.array inner o] [word "c"]
  obtain ⟨hloading, -⟩ := join_renested rfl hps hnested (.content "-" o) o
  obtain ⟨-, -, hwaits, hreports⟩ := hloading rfl (by simp [Context.Laid])
  obtain ⟨rs, -, hcomes, hjoins⟩ := hwaits ⟨⟨[], choice⟩, by simp [hmembers], hlate⟩
  have hchoiceComes : Comes (fun k l => inContext k (loading.upTo l) choice []) (.value choice) :=
    comes_node (k := 5) (l := 5) (s := ⟨.standard 0, []⟩)
      (Surroundings.loads_builtin rfl rfl) rfl rfl
  have hkept : List.Forall₂ (Waits loading []) [word "a", choice, word "c"]
      [word "a", choice, word "c"] :=
    .cons (.token _) (.cons (.late hchoiceComes) (.cons (.token _) .nil))
  refine ⟨rs, hcomes, fun k l s note hnote => ?_, fun s => ?_⟩
  · rcases hreports k l s note hnote with hnone | ⟨m, hm, -, k', l', s', hleft⟩
    · exact hnone
    · have hchoice : choice.Settled loading.registry loading.late :=
        Node.settled_call.mpr ⟨.late rfl (by decide) rfl rfl, by simp [word]⟩
      have hsettled : m.node.Settled loading.registry loading.late := by
        rw [hmembers] at hm
        simp only [List.mem_cons, List.not_mem_nil, or_false] at hm
        rcases hm with rfl | rfl | rfl
        · exact .token _
        · exact hchoice
        · exact .token _
      obtain ⟨r, rfl⟩ := (still_inContext k' (loading.upTo l') m.node m.context hsettled s'
        fun _ _ => trivial).notes note hleft trivial
      rfl
  · have hforced : Forces later s (membersOfAll later [] [word "a", choice, word "c"])
        ["a", "b", "c"] { s with generator := s.generator.advance } := by
      rw [hmembers]
      have hresolves : Resolves later s ⟨[], choice⟩ (some "b")
          { s with generator := s.generator.advance } :=
        resolves_choice rfl rfl [] (.content "b" o) o o s
      exact .token (.late hlate hresolves (.token (.nil _)))
    exact hjoins later rfl rfl _ hkept [] s _ _ hforced

end Reduce

end ContentLang
