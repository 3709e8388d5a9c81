import ContentLang.Proofs.Joining.Members
import ContentLang.Proofs.Loading.Terminating
import ContentLang.Proofs.Settled.Kin

/-!
# Joining while content is loaded

In the loading pass the parameters of `Join` are reduced first. Tokens and arrays stay what they
are, and a call of a late function is kept with its own parameters reduced
(`ContentLang.Reduce.waits_visit`). The function then goes through all of them once more. It finds
the texts of tokens, or the first kept call, and in that case it does not look any further and gives
nothing: the call is kept with the parameters that were reduced before.

What is kept is reduced three times in this, as a parameter, as a member and as what has to be a
token. Only the first time anything may be reported, since after that it is settled.

What a call is kept with does not depend on the limits or the state, so there is one thing only that
a parameter waits as (`ContentLang.Reduce.Waits.unique`).
-/

namespace ContentLang

open Walk

/-! ### The function -/

namespace Library

/-- **What `Join` gives**, of parameters that are kept: the texts with the separator between them,
or nothing yet. -/
theorem still_join {ev : Evaluator} {ends : Prop} {N : Node → Prop} (hev : ev.Keeps ends N)
    {separator : Token} {items : List Node} (hseparator : N (.token separator))
    (hitems : ∀ i ∈ items, N i) {r : Reading (List String)}
    (hread : textsOfAll ev.isKnown items = r) (hr : r ≠ .error .wrong) (f : String) (o : Origin)
    (ctx : Context) :
    Still ends (· = r.outcome o fun texts => .content (separator.value.intercalate texts) o)
      (join.reduce ev ⟨f, .token separator :: items, o⟩ ctx) := by
  have htoken : Still ends (fun x => ∃ t, x = .ok t ∧ Alike separator t)
      (ev.requireToken (.token separator) ctx) := by
    refine (Evaluator.reads_requireToken hev ctx hseparator).mono
      (Terms.quietIf_covers_quietIf fun _ => by simp [tokenOf]) id fun x hx => ?_
    cases x with
    | error out => exact hx.elim
    | ok t => exact ⟨t, rfl, hx⟩
  have htexts : Still ends (Answers r) (collectAll (collect ev ctx ev.limit) items) := by
    have hcollect := reads_collectAll fun i hi =>
      reads_collect hev ctx ev.limit (hitems i hi) (hev.depth (hitems i hi))
    rw [hread] at hcollect
    exact hcollect.mono (Terms.quietIf_covers_quietIf fun _ => hr) id fun _ h => h
  show Still ends _ ((ev.requireToken (.token separator) ctx).given fun separator =>
    (collectAll (collect ev ctx ev.limit) items).given fun texts =>
      pure (.content (separator.value.intercalate texts) o))
  refine meets_bind htoken fun x hx => ?_
  obtain ⟨t, rfl, ht⟩ := hx
  refine meets_bind htexts fun y hy => ?_
  cases r with
  | ok texts =>
    cases y with
    | error out => exact hy.elim
    | ok texts' =>
      have hsame : texts = texts' := by rw [← bare_strings texts, ← bare_strings texts', hy]
      exact meets_pure (by rw [← hsame, ← ht.value]; rfl)
  | error e =>
    cases y with
    | ok texts' => cases e <;> exact hy.elim
    | error out =>
      cases e with
      | wrong => exact absurd rfl hr
      | waits =>
        cases out with
        | pending => exact meets_pure rfl
        | _ => exact hy.elim

end Library

namespace Reduce

/-! ### The call -/

/-- What texts come to with the separator between them. -/
def joined (separator : Token) (xs : List String) (o : Origin) (ctx : Context) : Outcome :=
  .content (separator.value.intercalate xs) { o with context := ctx }

/-- The call that waits for what is among its parameters. -/
def keptJoin (separator : Token) (ps : List Node) (o : Origin) (ctx : Context) : Node :=
  .call "Join" (.token { separator with origin := { separator.origin with context := ctx } } :: ps)
    { o with context := ctx }

theorem get?_join {registry : Registry} (h : registry = .builtin) :
    Registry.get? registry "Join" = some Library.join := by
  rw [h]
  rfl

/-! ### What is waited for -/

/-- Walks that report nothing but some things. -/
def nothingBut (P : Note → Prop) : Terms :=
  ⟨False, fun note => note.diagnostic? = none ∨ P note, fun _ => True⟩

theorem still_covers_nothingBut (P : Note → Prop) : Terms.still.Covers (nothingBut P) := by
  refine ⟨fun h => h.elim, fun note hnote => .inl ?_, fun _ _ => trivial⟩
  obtain ⟨r, rfl⟩ := hnote trivial
  rfl

/-- Whether only some notes are left when a member is reduced, under any limits. -/
def LeavesOnly (env : Surroundings) (P : Note → Prop) (m : Member) : Prop :=
  ∀ k l s, ∀ note ∈ (inContext k (env.upTo l) m.node m.context s).notes, P note

/-- **What a parameter is while the call waits**: a token and an array what they were, within the
bindings of the call, and a call of a late function what the pass made of it, a call of the same
function. -/
inductive Waits (env : Surroundings) (ctx : Context) : Node → Node → Prop
  | token (t : Token) :
    Waits env ctx (.token t) (.token { t with origin := { t.origin with context := ctx } })
  | late {f : String} {ps qs : List Node} {o : Origin}
    (hcomes : Comes (fun k l => inContext k (env.upTo l) (.call f ps o) ctx)
      (.value (.call f qs { o with context := ctx }))) :
    Waits env ctx (.call f ps o) (.call f qs { o with context := ctx })
  | array {is js : List Node} {o : Origin} (h : List.Forall₂ (Waits env ctx) is js) :
    Waits env ctx (.array is o) (.array js { o with context := ctx })

/-! ### Texts of what waits -/

section

variable {env : Surroundings} (henv : env.Loads) {ctx : Context}

include henv in
theorem contextOf_loading (n : Node) : contextOf env n ctx = ctx := by
  simp [contextOf, henv.late]

/-- **What waits has the texts that it had before.** -/
theorem textsOf_waits {known : String → Bool} {p q : Node} (h : Waits env ctx p q) :
    textsOf known q = textsOf known p := by
  induction p generalizing q with
  | token t =>
    cases h with
    | token => rfl
  | array is o ih =>
    cases h with
    | @array _ js _ h =>
      rw [textsOf, textsOf]
      induction h with
      | nil => rfl
      | cons hi _ ihs =>
        obtain ⟨hi', his⟩ := List.forall_mem_cons.mp ih
        rw [textsOfAll, textsOfAll, hi' hi, ihs his]
  | call f ps o =>
    cases h with
    | late => rfl
  | statement f ps o data => cases h
  | block es o => cases h

/-- Parameters that wait have the texts that they had before. -/
theorem textsOfAll_waits {known : String → Bool} {ps qs : List Node}
    (h : List.Forall₂ (Waits env ctx) ps qs) : textsOfAll known qs = textsOfAll known ps := by
  induction h with
  | nil => rfl
  | cons h _ ih => rw [textsOfAll, textsOfAll, textsOf_waits h, ih]

/-! ### Members of what waits -/

/-- **A node waits as one node only.** -/
theorem Waits.unique {p q r : Node} (hq : Waits env ctx p q) (hr : Waits env ctx p r) : q = r := by
  induction p generalizing q r with
  | token t =>
    cases hq
    cases hr
    rfl
  | call f ps o =>
    cases hq with
    | late hq =>
      cases hr with
      | late hr => exact Outcome.value.inj (hq.unique hr)
  | array is o ih =>
    cases hq with
    | @array _ js _ hjs =>
      cases hr with
      | @array _ ls _ hls =>
        have hsame : js = ls := by
          induction hjs generalizing ls with
          | nil => exact (List.forall₂_nil_left_iff.mp hls).symm
          | cons hij _ ihs =>
            obtain ⟨l, ls, hil, hls', rfl⟩ := List.forall₂_cons_left_iff.mp hls
            obtain ⟨hi, his⟩ := List.forall_mem_cons.mp ih
            rw [hi hij hil, ihs his hls']
        rw [hsame]
  | statement f ps o data => cases hq
  | block es o => cases hq

/-- Whether a member is what another one waits as, in the bindings that it is consumed in. -/
def WaitsAs (env : Surroundings) (ctx c : Context) (m m' : Member) : Prop :=
  m.context = ctx ∧ m'.context = c ∧ Waits env ctx m.node m'.node

theorem WaitsAs.unique {c : Context} {m m' m'' : Member} (h' : WaitsAs env ctx c m m')
    (h'' : WaitsAs env ctx c m m'') : m' = m'' := by
  obtain ⟨-, hcontext', hwaits'⟩ := h'
  obtain ⟨-, hcontext'', hwaits''⟩ := h''
  obtain ⟨c', n'⟩ := m'
  obtain ⟨c'', n''⟩ := m''
  rw [Member.mk.injEq]
  exact ⟨hcontext'.trans hcontext''.symm, hwaits'.unique hwaits''⟩

/-- What waits is null if it was. -/
theorem Waits.isNull {p q : Node} (h : Waits env ctx p q) : q.isNull = p.isNull := by
  cases h <;> rfl

section

variable {later : Surroundings} {c : Context}
  (hc : ∀ is (o : Origin), contextOf later (.array is { o with context := ctx }) c = c)
include hc

omit henv hc in
/-- Members of nodes stay if those of each do. -/
theorem waits_membersOfAll {ps qs : List Node} (h : List.Forall₂ (Waits env ctx) ps qs)
    (hps : ∀ p ∈ ps, ∀ q, Waits env ctx p q →
      List.Forall₂ (WaitsAs env ctx c) (membersOf env ctx p) (membersOf later c q)) :
    List.Forall₂ (WaitsAs env ctx c) (membersOfAll env ctx ps) (membersOfAll later c qs) := by
  induction h with
  | nil => exact .nil
  | cons hpq _ ih =>
    obtain ⟨hp, hps⟩ := List.forall_mem_cons.mp hps
    exact List.rel_append (hp _ hpq) (ih hps)

include henv in
/-- **The members of what waits are those that there were**, each as it waits. -/
theorem waits_membersOf {p q : Node} (h : Waits env ctx p q) :
    List.Forall₂ (WaitsAs env ctx c) (membersOf env ctx p) (membersOf later c q) := by
  induction p generalizing q with
  | token t =>
    cases h
    simpa using ⟨rfl, rfl, .token t⟩
  | call f ps o =>
    cases h with
    | late h => simpa using ⟨rfl, rfl, .late h⟩
  | array is o ih =>
    cases h with
    | array h =>
      rw [membersOf_array, membersOf_array, contextOf_loading henv, hc]
      exact waits_membersOfAll h fun i hi j hij => ih i hi hij
  | statement f ps o data => cases h
  | block es o => cases h

include henv in
/-- **What waits nested differently has the same members**, nulls aside. -/
theorem Renests.waits {ps ps' qs qs' : List Node} (h : Renests env ctx ps ps')
    (hqs : List.Forall₂ (Waits env ctx) ps qs) (hqs' : List.Forall₂ (Waits env ctx) ps' qs') :
    withoutNulls (membersOfAll later c qs) = withoutNulls (membersOfAll later c qs') := by
  have hkept {ms ms' : List Member} (h : List.Forall₂ (WaitsAs env ctx c) ms ms') :
      List.Forall₂ (WaitsAs env ctx c) (withoutNulls ms) (withoutNulls ms') := by
    refine List.rel_filter (fun m m' hm => ?_) h
    simp [hm.2.2.isNull]
  have hms := hkept (waits_membersOfAll hqs fun p _ q hpq => waits_membersOf henv hc hpq)
  have hms' := hkept (waits_membersOfAll hqs' fun p _ q hpq => waits_membersOf henv hc hpq)
  rw [← h.members] at hms'
  have hunique : Relator.RightUnique (WaitsAs env ctx c) := fun _ _ _ h h' => h.unique h'
  exact List.right_unique_forall₂' hunique hms hms'

end

/-! ### Parameters that wait -/

/-- A late function has not the name of a construct. -/
theorem not_mem_constructs (horderly : env.registry.Orderly) {f : String} {function : Function}
    (hget : Registry.get? env.registry f = some function) : f ∉ constructs := by
  intro hf
  rw [Registry.get?_eq_none_iff.mpr (horderly.constructs f hf)] at hget
  exact absurd hget (by simp)

omit henv in
/-- A node whose members are simple is an element that binds nothing. -/
theorem element_of_simple (horderly : env.registry.Orderly) {rec : Reducer} {n : Node}
    {l : Nat} {c d : Context} (hn : ∀ m ∈ membersOf env c n, m.Simple env.registry) :
    element (env.upTo l) rec d n = plainElement (env.upTo l) rec d n := by
  cases n with
  | call f ps o =>
    rcases hn ⟨c, .call f ps o⟩ (by simp) with ⟨t, ht⟩ | ⟨f', ps', o', function, hcall, hget, -⟩
    · exact absurd ht (by simp)
    · cases hcall
      have hf := not_mem_constructs horderly hget
      rw [element, if_neg]
      rintro rfl
      exact hf (by simp [constructs])
  | statement f ps o data =>
    have hsimple := hn ⟨c, .statement f ps o data⟩ (by simp)
    exact (Member.not_simple (by simp) (by simp) hsimple).elim
  | token t => rfl
  | array is o => rfl
  | block es o => rfl

variable (hregistry : env.registry = .builtin) (hctx : ctx.Laid env.registry noneShunned)
include henv hctx

/-- A call of a late function is kept, with parameters that the pass gives. -/
theorem settles_late {f : String} {function : Function}
    (hget : Registry.get? env.registry f = some function) (hlate : function.late = true)
    (ps : List Node) (o : Origin) (limit : Nat) :
    Loading env noneShunned
      (fun out => ∃ qs, out = .value (.call f qs { o with context := ctx }) ∧
        (Node.call f qs { o with context := ctx }).Settled env.registry env.late)
      (inContext limit env (.call f ps o) ctx) := by
  rcases limit with _ | limit
  · exact meets_halt _ id
  have hf := not_mem_constructs henv.orderly hget
  have hcall : Loading env noneShunned
      (fun out => ∃ qs, out = .value (.call f qs { o with context := ctx }) ∧
        (Node.call f qs { o with context := ctx }).Settled env.registry env.late)
      (callFunction env (inContext limit) function ⟨f, ps, o⟩ ctx) := by
    unfold callFunction
    simp only [hlate, if_true, henv.late, Bool.false_eq_true, if_false]
    refine meets_bind (settles_remarkAt _ _ _) fun _ _ => ?_
    refine meets_bind (settles_reduceCallParams (settles_inContext _ limit) henv hctx o
      fun p _ => p.inert_noneShunned) fun r hr => ?_
    obtain ⟨qs, rfl, hqs⟩ := hr
    exact meets_pure ⟨qs, rfl, .call (.late rfl hf hget hlate) fun q hq => (hqs q hq).1⟩
  show Loading env noneShunned _ (call env (inContext limit) ⟨f, ps, o⟩ none ctx)
  rw [call_eq_callFunction hf hget]
  exact hcall

/-- What a parameter is while the call waits, and that it is settled. -/
def Standing (env : Surroundings) (ctx : Context) (p q : Node) : Prop :=
  Waits env ctx p q ∧ q.Settled env.registry env.late

omit henv hctx in
theorem Standing.all {ps qs : List Node} (h : List.Forall₂ (Standing env ctx) ps qs) :
    List.Forall₂ (Waits env ctx) ps qs ∧ ∀ q ∈ qs, q.Settled env.registry env.late := by
  induction h with
  | nil => exact ⟨.nil, by simp⟩
  | cons h _ ih => exact ⟨.cons h.1 ih.1, List.forall_mem_cons.mpr ⟨h.2, ih.2⟩⟩

variable {P : Note → Prop} {k l : Nat}

include hregistry in
/-- **A parameter of tokens, late calls and arrays of them** is reduced to what waits, and nothing
is reported unless it is for a late call. -/
theorem waits_visit {p : Node} (hp : ∀ m ∈ membersOf env ctx p, m.Simple env.registry)
    (hleaves : ∀ m ∈ membersOf env ctx p, m.node.IsLate env.registry → LeavesOnly env P m) :
    Meets (nothingBut P) False (fun out => ∃ q, out = .value q ∧ Standing env ctx p q)
      (visit (env.upTo l) (inContext k) p ctx) := by
  have hloads := henv.upTo l
  rw [visit_loading hloads.late]
  induction p generalizing k with
  | token t =>
    rcases k with _ | k
    · exact meets_halt _ id
    · exact meets_pure ⟨_, rfl, .token t, .token _⟩
  | call f ps o =>
    rcases hp ⟨ctx, .call f ps o⟩ (by simp) with ⟨t, ht⟩ | hlate
    · exact absurd ht (by simp)
    have hcall := hleaves ⟨ctx, .call f ps o⟩ (by simp) hlate
    have hleft : Meets (nothingBut P) False (fun _ => True)
        (inContext k (env.upTo l) (.call f ps o) ctx) := fun s _ =>
      ⟨fun h => h.elim, fun note hnote => .inr (hcall k l s note hnote), fun h => h.elim,
        fun _ _ => trivial⟩
    obtain ⟨f', ps', o', function, hcall, hget, hfunction⟩ := hlate
    cases hcall
    have hkept := settles_late hloads hctx hget hfunction ps o k
    refine (hleft.and hkept fun _ _ file text _ _ n _ => n.inert_noneShunned).here.imp
      fun out hout => ?_
    obtain ⟨⟨-, qs, rfl, hsettled⟩, s, hs⟩ := hout
    exact ⟨_, rfl, .late (comes_node henv hregistry hs), hsettled⟩
  | array is o ih =>
    rcases k with _ | k
    · exact meets_halt _ id
    have hmembers : membersOf env ctx (.array is o) = membersOfAll env ctx is := by
      rw [membersOf_array, contextOf_loading henv]
    rw [hmembers, forall_membersOfAll] at hp hleaves
    have helements : Meets (nothingBut P) False
        (fun r => ∃ js, r = some js ∧ List.Forall₂ (Standing env ctx) is js)
        (elements (env.upTo l) (inContext k) ctx is) := by
      refine meets_elements (listwise_kin _) fun i hi => ?_
      rw [element_of_simple henv.orderly (hp i hi)]
      refine meets_plainElement ?_
      rw [visit_loading hloads.late]
      refine (ih i hi (hp i hi) (hleaves i hi)).imp fun out hout => ?_
      obtain ⟨q, rfl, hq⟩ := hout
      exact ⟨[q], rfl, q, rfl, hq⟩
    refine meets_bind helements fun r hr => ?_
    obtain ⟨js, rfl, hjs⟩ := hr
    obtain ⟨hwaits, hsettled⟩ := Standing.all hjs
    exact meets_pure ⟨_, rfl, .array hwaits, .array hsettled⟩
  | statement f ps o data =>
    have hsimple := hp ⟨ctx, .statement f ps o data⟩ (by simp)
    exact (Member.not_simple (by simp) (by simp) hsimple).elim
  | block es o =>
    have hsimple := hp ⟨ctx, .block es o⟩ (by simp)
    exact (Member.not_simple (by simp) (by simp) hsimple).elim

omit henv hctx in
/-- The function gives the texts, or waits if one of the members is a late call. -/
theorem still_join_loading {ps items : List Node}
    (hps : ∀ m ∈ membersOfAll env ctx ps, m.Simple env.registry)
    (hitems : List.Forall₂ (Standing env ctx) ps items) (separator : Token) (f : String)
    (o : Origin) :
    Still False
      (fun out =>
        ((∀ m ∈ membersOfAll env ctx ps, ¬ m.node.IsLate env.registry) →
          out = .content (separator.value.intercalate
            ((membersOfAll env ctx ps).filterMap Member.text?)) o) ∧
        ((∃ m ∈ membersOfAll env ctx ps, m.node.IsLate env.registry) → out = .pending))
      (Library.join.reduce (evaluator (env.upTo l) (inContext k)) ⟨f, .token separator :: items, o⟩
        ctx) := by
  obtain ⟨hwaits, hsettled⟩ := Standing.all hitems
  have hkeeps : (evaluator (env.upTo l) (inContext k)).Keeps False (Kept k (env.upTo l) False) :=
    keeps_evaluator (still_inContext k) fun h => h.elim
  have hseparator : Kept k (env.upTo l) False (.token separator) := ⟨.token _, fun h => h.elim⟩
  have hkept : ∀ q ∈ items, Kept k (env.upTo l) False q := fun q hq =>
    ⟨hsettled q hq, fun h => h.elim⟩
  have hread : textsOfAll (Registry.isKnown env.registry) items =
      textsOfAll (Registry.isKnown env.registry) ((membersOfAll env ctx ps).map (·.node)) := by
    rw [textsOfAll_waits hwaits, textsOfAll_members fun n _ => textsOf_members n]
  by_cases hlate : ∃ m ∈ membersOfAll env ctx ps, m.node.IsLate env.registry
  · have hwait := hread.trans (textsOfAll_late hps hlate)
    refine (Library.still_join hkeeps hseparator hkept hwait (by simp) f o ctx).imp
      fun out hout => ?_
    obtain ⟨m, hm, hmlate⟩ := hlate
    exact ⟨fun hnone => absurd hmlate (hnone m hm), fun _ => hout⟩
  · have htokens : ∀ m ∈ membersOfAll env ctx ps, ∃ t, m.node = .token t := fun m hm =>
      (hps m hm).resolve_right fun hmlate => hlate ⟨m, hm, hmlate⟩
    have htexts := hread.trans (textsOfAll_tokens htokens)
    refine (Library.still_join hkeeps hseparator hkept htexts (by simp) f o ctx).imp
      fun out hout => ?_
    exact ⟨fun _ => hout, fun h => absurd h hlate⟩

include hregistry in
/-- The parameters of `Join` wait. -/
theorem waits_params {separator : Token} {ps : List Node}
    (hps : ∀ m ∈ membersOfAll env ctx ps, m.Simple env.registry)
    (hleaves : ∀ m ∈ membersOfAll env ctx ps, m.node.IsLate env.registry → LeavesOnly env P m)
    (f : String) (o : Origin) :
    Meets (nothingBut P) False
      (fun r => ∃ rs, r = some ⟨f, rs, { o with context := ctx }⟩ ∧
        List.Forall₂ (Standing env ctx) (.token separator :: ps) rs)
      (reduceCallParams (env.upTo l) (inContext k) ⟨f, .token separator :: ps, o⟩ ctx) := by
  refine meets_reduceCallParams (listwise_kin _) (fun p hp => ?_) f o
  have hvisit : Meets (nothingBut P) False
      (fun out => ∃ q, out = .value q ∧ Standing env ctx p q)
      (visit (env.upTo l) (inContext k) p ctx) := by
    rcases List.mem_cons.mp hp with rfl | hp
    · refine waits_visit henv hregistry hctx ?_ ?_
      · rw [membersOf_token, List.forall_mem_singleton]
        exact .inl ⟨separator, rfl⟩
      · rw [membersOf_token, List.forall_mem_singleton]
        rintro ⟨f, ps, o, function, hcall, -⟩
        exact absurd hcall (by simp)
    · exact waits_visit henv hregistry hctx (forall_membersOfAll.mp hps p hp)
        (forall_membersOfAll.mp hleaves p hp)
  refine hvisit.imp fun out hout => ?_
  obtain ⟨q, rfl, hq⟩ := hout
  exact ⟨q, rfl, q, rfl, hq⟩

include hregistry in
/-- **What `Join` comes to while content is loaded**: the texts with the separator between them, or
the call that waits, if one of the members is a late call. -/
theorem waits_join (separator : Token) {ps : List Node}
    (hps : ∀ m ∈ membersOfAll env ctx ps, m.Simple env.registry)
    (hleaves : ∀ m ∈ membersOfAll env ctx ps, m.node.IsLate env.registry → LeavesOnly env P m)
    (o : Origin) :
    Meets (nothingBut P) False
      (fun out =>
        ((∀ m ∈ membersOfAll env ctx ps, ¬ m.node.IsLate env.registry) →
          out = joined separator ((membersOfAll env ctx ps).filterMap Member.text?) o ctx) ∧
        ((∃ m ∈ membersOfAll env ctx ps, m.node.IsLate env.registry) →
          ∃ rs, out = .value (keptJoin separator rs o ctx) ∧ List.Forall₂ (Waits env ctx) ps rs))
      (inContext k (env.upTo l) (.call "Join" (.token separator :: ps) o) ctx) := by
  rcases k with _ | k
  · exact meets_halt _ id
  show Meets _ _ _ (call (env.upTo l) (inContext k) ⟨"Join", .token separator :: ps, o⟩ none ctx)
  have hget : Registry.get? (env.upTo l).registry "Join" = some Library.join := get?_join hregistry
  rw [call_eq_callFunction (by decide) hget]
  refine meets_bind (waits_params henv hregistry hctx hps hleaves "Join" o) fun r hr => ?_
  obtain ⟨rs, rfl, hrs⟩ := hr
  obtain ⟨_, items, hseparator, hitems, rfl⟩ := List.forall₂_cons_left_iff.mp hrs
  cases hseparator.1
  refine meets_bind ((still_join_loading hps hitems _ "Join" _).mono
    (still_covers_nothingBut P) id fun _ h => h) fun out hout => ?_
  obtain ⟨hnone, hlate⟩ := hout
  by_cases hany : ∃ m ∈ membersOfAll env ctx ps, m.node.IsLate env.registry
  · obtain rfl := hlate hany
    simp only [Outcome.isPending, (henv.upTo l).late, Bool.not_false, Bool.and_self, if_true]
    refine meets_map (meets_remarkAt (still_covers_nothingBut P) _ _ _) fun _ _ => ?_
    obtain ⟨m, hm, hmlate⟩ := hany
    exact ⟨fun hnone => absurd hmlate (hnone m hm), fun _ =>
      ⟨items, rfl, (Standing.all hitems).1⟩⟩
  · have hall : ∀ m ∈ membersOfAll env ctx ps, ¬ m.node.IsLate env.registry := fun m hm hmlate =>
      hany ⟨m, hm, hmlate⟩
    obtain rfl := hnone hall
    exact meets_pure ⟨fun _ => rfl, fun h => absurd h hany⟩

end

end Reduce

end ContentLang
