import ContentLang.Proofs.Loading.Slot
import ContentLang.Proofs.Loading.Removing
import ContentLang.Proofs.Deferral.Delivery

/-!
# Conditions that are decided later

A condition that is still a call when the file is loaded waits until the content is consumed, and
keeps the data it decides on, which has been reduced by then. Once it comes to a token that is true,
what was kept is consumed in its place. This is compared with the same file with `true` for the
condition (`ContentLang.Engine.conditional_yields`), wherever the condition stands
(`ContentLang.Slot`).

The data is kept as one node. That is what would stand there at once if the data has come to one
node, or, in a block, to several, which make an array either way. Nothing at all, however, is kept
as null (`ContentLang.Engine.conditional_misses`), and in a sequence several nodes are kept as an
array.

What the condition draws comes before whatever the data draws. So all that is drawn later is drawn
from another state, and the two files come to the same value only if that makes no difference
(`ContentLang.Reduce.Forced`).
-/

namespace ContentLang

open Walk

/-- A condition with the data it decides on. -/
def Node.conditional (o : Origin) (condition data : Node) : Node :=
  .statement ifName [condition] o data

namespace Reduce

/-! ### Loading -/

section

variable {env : Surroundings}

/-- In a sequence a condition keeps its data. -/
theorem plain_conditional (hregistry : env.registry = .builtin) (rec : Reducer) (o : Origin)
    (condition data : Node) : Plain env rec (.conditional o condition data) := by
  intro ctx
  have hdata : takesNoData env ifName = false := by
    rw [takesNoData, hregistry]
    decide
  rw [Node.conditional, element_statement, if_neg (by decide), hdata]
  rfl

theorem call_conditional (rec : Reducer) (ps : List Node) (o : Origin) (data : Option Node)
    (ctx : Context) :
    call env rec ⟨ifName, ps, o⟩ data ctx = conditional env rec ⟨ifName, ps, o⟩ data ctx := by
  have hother : ¬ ifName = includeName := by decide
  rw [call]
  simp only [hother, if_false, if_true]

variable (henv : env.Loads) {limit : Nat} {ctx : Context} {o : Origin}
include henv

/-- A condition that is true at once is replaced by what the data comes to. -/
theorem answer_conditional_true {t : Token} (ht : t.isTrue = true) (data : Node) (s : WalkState) :
    (inContext (limit + 1) env (.conditional o (.token t) data) ctx s).answer =
      (inContext limit env data ctx s).answer := by
  have hcall : inContext (limit + 1) env (.conditional o (.token t) data) ctx =
      conditional env (inContext limit) ⟨ifName, [.token t], o⟩ (some data) ctx := by
    show call env (inContext limit) ⟨ifName, [.token t], o⟩ (some data) ctx = _
    exact call_conditional _ _ _ _ _
  rw [hcall]
  cases limit with
  | zero => rfl
  | succ limit =>
    let u : Token := { t with origin := { t.origin with context := ctx } }
    have htoken : (evaluator env (inContext (limit + 1))).requireToken (.token t) ctx =
        pure (.ok u) := by
      show (visit env (inContext (limit + 1)) (.token t) ctx >>= _) = _
      rw [visit_loading henv.late]
      rfl
    have htrue : u.isTrue = true := ht
    rw [conditional]
    simp only [htoken, Walk.pure_bind, htrue, if_true, visit_loading henv.late]

/-- **A condition that waits keeps its data**, as a single node. -/
theorem surely_conditional_waits {condition c data d : Node} {s s' : WalkState} {out : Outcome}
    (hcondition : (inContext limit env condition ctx s).answer = .ok (.value c))
    (hdeferred : c.isDeferred (Registry.isKnown env.registry) = true)
    (hdata : (inContext limit env data ctx s').answer = .ok out)
    (hd : out.toNode? data.origin = some d) :
    Surely (· = .value (.conditional { o with context := ctx } c d))
      (inContext (limit + 1) env (.conditional o condition data) ctx) := by
  have hvisit {n : Node} {s : WalkState} {out : Outcome}
      (h : (inContext limit env n ctx s).answer = .ok out) :
      Surely (· = out) (visit env (inContext limit) n ctx) := by
    rw [visit_loading henv.late]
    exact surely_of_run h fun s s' => blind_inContext _ env henv n ctx s s'
  have hkept : Listwise (fun (_ : Node) l => l = [c]) fun ps qs => qs = ps.map fun _ => c :=
    ⟨rfl, by rintro _ _ _ _ rfl rfl; rfl⟩
  show Surely _ (call env (inContext limit) ⟨ifName, [condition], o⟩ (some data) ctx)
  rw [call_conditional, conditional]
  refine meets_bind (surely_requireToken_waits (hvisit hcondition) hdeferred) fun r hr => ?_
  subst hr
  simp only [henv.late, Bool.false_eq_true, if_false]
  refine meets_bind (meets_remarkAt (Terms.quietIf_covers_any True) _ _ _) fun _ _ => ?_
  refine (meets_keepStatement hkept (List.forall_mem_singleton.mpr ?_) ifName o (D := (· = d))
    ?_).imp fun out hout => ?_
  · refine (hvisit hcondition).imp fun out hout => ?_
    subst hout
    exact ⟨c, rfl, rfl⟩
  · refine (hvisit hdata).imp fun out hout => ?_
    subst hout
    exact ⟨d, hd, rfl⟩
  · obtain ⟨qs, d, rfl, rfl, rfl⟩ := hout
    rfl

end

/-! ### Consumption -/

/-- **Whether a condition is decided for its data**: from every state it comes to a token that is
true, unless that is given up as too deep. -/
def Decides (env : Surroundings) (ctx : Context) (condition : Node) : Prop :=
  ∀ limit, Certain (fun r => ∃ t : Token, r = .ok t ∧ t.isTrue = true)
    ((evaluator env (inContext limit)).requireToken condition ctx)

theorem certain_drawOnly (limit : Nat) : Certain (· = 0) (Walk.draw (uniformIndex 1 limit)) := by
  intro s
  rcases Nat.eq_zero_or_pos limit with rfl | hpos
  · exact .inl rfl
  · exact .inr ⟨0, by rw [Walk.draw, uniformIndex_one hpos], rfl⟩

theorem forced_token (env : Surroundings) (ctx : Context) (t : Token) :
    Forced env ctx (.token t) := by
  rintro (_ | limit) s s' <;> rfl

/-- A choice between one token that is true decides. -/
theorem decides_choice {env : Surroundings} (hlate : env.late = true)
    (hregistry : env.registry = .builtin) (ctx : Context) {t : Token} (ht : t.isTrue = true)
    (a b : Origin) : Decides env ctx (.call "Choose" [.array [.token t] a] b) := by
  intro limit
  have hfunction : Registry.get? env.registry "Choose" = some Library.choose := by
    rw [hregistry]
    rfl
  have hlateCall : Library.choose.late = true := rfl
  have hvisit : Certain (fun out => ∃ u : Token, out = .value (.token u) ∧ u.isTrue = true)
      (visit env (inContext limit) (.call "Choose" [.array [.token t] a] b) ctx) := by
    cases limit with
    | zero => exact fun _ => .inl rfl
    | succ limit =>
      show Certain _ (call env (inContext limit) ⟨"Choose", [.array [.token t] a], b⟩ none _)
      rw [call_eq_callFunction (by decide) hfunction, callFunction, if_pos hlateCall, if_pos hlate]
      show Certain _ (Walk.draw (uniformIndex 1 env.limit) >>= fun i => _)
      refine certain_bind (certain_drawOnly _) fun i hi => ?_
      subst hi
      cases limit with
      | zero => exact fun _ => .inl rfl
      | succ limit => exact certain_pure ⟨_, rfl, ht⟩
  refine certain_bind hvisit fun out hout => ?_
  obtain ⟨u, rfl, hu⟩ := hout
  exact certain_pure ⟨u, rfl, hu⟩

section

variable {env : Surroundings} {c ctx : Context} {condition d : Node}
  (hdecides : Decides env c condition) {limit : Nat} {m : Walk Outcome} (o : Origin)
include hdecides

/-- **A condition that is decided gives way to its data**, which is reduced after it. -/
theorem tracked_conditional (h : Tracked Alike (visit env (inContext limit) d c) m) :
    Tracked Alike (inContext (limit + 1) env (.conditional o condition d) c)
      ((evaluator env (inContext limit)).requireToken condition c >>= fun _ => m) := by
  show Tracked Alike (call env (inContext limit) ⟨ifName, [condition], o⟩ (some d) c) _
  rw [call_conditional, conditional]
  refine tracked_bind ((tracked_refl (fun _ => rfl) _).and (P := fun r => ∃ t : Token,
    r = .ok t ∧ t.isTrue = true) fun s r hr => ?_) fun r r' hr => ?_
  · rcases hdecides limit s with hdeep | ⟨r', hr', ht⟩
    · exact nomatch hr.symm.trans hdeep
    · rwa [Except.ok.inj (hr.symm.trans hr')]
  · obtain ⟨-, t, rfl, ht⟩ := hr
    simpa only [ht, if_true] using h

/-- What is drawn for the condition does not count, if it makes no difference to the data. -/
theorem regardless_conditional (h : Regardless Alike (visit env (inContext limit) d c) m) :
    Regardless Alike (inContext (limit + 1) env (.conditional o condition d) c) m := by
  show Regardless Alike (call env (inContext limit) ⟨ifName, [condition], o⟩ (some d) c) m
  rw [call_conditional, conditional]
  refine regardless_after (hdecides limit) fun r hr => ?_
  obtain ⟨t, rfl, ht⟩ := hr
  simpa only [ht, if_true] using h

end

section

variable {env : Surroundings} (hlate : env.late = true) {c ctx : Context}
  (hempty : c = [] → ctx = [])
include hlate hempty

theorem contextOf_conditional (condition d : Node) (o : Origin) :
    contextOf env (.conditional { o with context := c } condition d) ctx = c := by
  by_cases hc : c = []
  · rw [hc, hempty hc]
    simp [contextOf, Node.conditional, Node.origin]
  · exact contextOf_eq (n := .conditional { o with context := c } condition d) hlate hc ctx

variable (hregistry : env.registry = .builtin)
include hregistry

/-- Data that was kept for a condition is consumed as where it would have been put at once. -/
theorem tracked_kept {n : Node} (hsettled : n.Settled env.registry false)
    (hcaptured : c ≠ [] → n.Captured) {k l : Nat} (hkl : k ≤ l) :
    Tracked Alike (visit env (inContext k) n c) (visit env (inContext l) n ctx) := by
  refine tracked_moved hlate hregistry hsettled ?_ hkl
  by_cases hc : c = []
  · exact .inr (hc.trans (hempty hc).symm)
  · exact .inl (hcaptured hc)

/-- The same of an array that stands for several nodes. -/
theorem tracked_keptArray {items : List Node} {o o' : Origin} (ho : o.context = [])
    (ho' : o'.context = []) (hsettled : ∀ i ∈ items, i.Settled env.registry false)
    (hcaptured : c ≠ [] → ∀ i ∈ items, i.Captured) {k l : Nat} (hkl : k ≤ l) :
    Tracked Alike (visit env (inContext k) (.array items o) c)
      (visit env (inContext l) (.array items o') ctx) := by
  have hown : contextOf env (.array items o) c = c := by simp [contextOf, Node.origin, ho]
  have hown' : contextOf env (.array items o') ctx = ctx := by simp [contextOf, Node.origin, ho']
  cases k with
  | zero => exact fun _ => .inl rfl
  | succ k =>
    obtain ⟨l, rfl⟩ : ∃ l', l = l' + 1 := ⟨l - 1, by omega⟩
    rw [visit, visit, hown, hown']
    refine tracked_bind (R := Option.Rel Alike) ?_ fun r r' hr => ?_
    · rw [elements_eq_inTurn hlate _ _ hsettled, elements_eq_inTurn hlate _ _ hsettled]
      refine tracked_inTurn Alike.append (.refl []) (List.forall₂_same.mpr fun i hi =>
        tracked_map (tracked_kept hlate hempty hregistry (hsettled i hi)
          (fun hc => hcaptured hc i hi) (Nat.le_of_succ_le_succ hkl)) fun _ _ h => Alike.toItems? h)
    · cases hr with
      | none => exact tracked_pure rfl
      | some hr => exact tracked_pure (by simpa [Alike] using hr)

omit hlate hregistry in
/-- **What stands in a slot at once, where a condition would keep it**: if that is a single node, it
is consumed like what is kept. -/
theorem exists_standing {slot : Slot} {o o' : Origin} (ho : o.context = []) (ho' : o'.context = [])
    {out : Outcome} (hone : (∃ m, out = .value m) ∨ (∃ items, out = .splice items) ∧
      slot.inBlock = true)
    {w d : Node} (hw : slot.filled o out = some w) (hd : out.toNode? o' = some d)
    (hsettled : ∀ n ∈ out.nodes, n.Settled .builtin false)
    (hcaptured : c ≠ [] → ∀ n ∈ out.nodes, n.Captured) :
    ∃ y, w = slot.around y ∧ ∀ env : Surroundings, env.late = true → env.registry = .builtin →
      ∀ {k l : Nat}, k ≤ l →
        Tracked Alike (visit env (inContext k) d c) (visit env (inContext l) y ctx) := by
  rcases hone with ⟨m, rfl⟩ | ⟨⟨items, rfl⟩, hblock⟩
  · obtain rfl := Option.some.inj hd
    exact ⟨m, Slot.filled_value hw, fun env hlate hregistry k l hkl =>
      tracked_kept hlate hempty hregistry (hregistry ▸ hsettled m (by simp))
        (fun hne => hcaptured hne m (by simp)) hkl⟩
  · obtain rfl := Option.some.inj hd
    exact ⟨.array items o, Slot.filled_splice hblock hw, fun env hlate hregistry k l hkl =>
      tracked_keptArray hlate hempty hregistry ho' ho (hregistry ▸ hsettled) hcaptured hkl⟩

end

end Reduce

namespace Engine

open Reduce

/-- What stands for a condition that is decided, and what it is compared with, are consumed alike;
what the condition draws comes first. -/
theorem kept_yields {e : Engine} {file : String} (hregistry : e.registry = .builtin)
    {c : Context} {slot : Slot} (hempty : c = [] → slot.context = []) {o : Origin} {k d y : Node}
    (hdecides : Decides (e.surroundings true file) c k)
    (htracked : ∀ {k l : Nat}, k ≤ l →
      Tracked ContentLang.Alike (visit (e.surroundings true file) (inContext k) d c)
        (visit (e.surroundings true file) (inContext l) y slot.context))
    (hkept : (slot.around (.conditional { o with context := c } k d)).Settled .builtin false)
    (hy : (slot.around y).Settled .builtin false) :
    let kept := Node.conditional { o with context := c } k d
    (∀ limit, Tracked ContentLang.Alike
      (visit (e.surroundings true file) (inContext (limit + 1)) kept slot.context)
      ((evaluator (e.surroundings true file) (inContext limit)).requireToken k c >>=
        fun _ => visit (e.surroundings true file) (inContext (limit + 1)) y slot.context)) ∧
      ((∀ n ∈ y :: slot.after, Reduce.Forced (e.surroundings true file) slot.context n) →
        e.Compares file ContentLang.Alike (slot.around kept) (slot.around y)) := by
  intro kept
  have hown : ∀ limit, visit (e.surroundings true file) (inContext limit) kept slot.context =
      inContext limit (e.surroundings true file) kept c :=
    fun limit => by rw [visit, contextOf_conditional rfl hempty]
  constructor
  · intro limit
    rw [hown]
    exact tracked_conditional hdecides _ (htracked (Nat.le_succ limit))
  · intro hforced
    obtain ⟨hforced, hafter⟩ := List.forall_mem_cons.mp hforced
    refine compares_around hregistry hkept hy hafter fun limit => ?_
    rw [hown]
    cases limit with
    | zero => exact fun _ _ => .inl rfl
    | succ limit =>
      exact regardless_conditional hdecides _
        ((htracked (Nat.le_succ limit)).regardless (hforced _))

/-- **A condition that is decided later yields what it yields at once**, if its data comes to
exactly one node while the file is loaded, or is the value of an entry and comes to several. The
node that keeps the data is consumed like what stands in its place at once, after the condition;
with nothing else to draw, so are the nodes around the two. -/
theorem conditional_yields {env : Surroundings} (hlate : env.late = false)
    (henv : env.registry = .builtin) {limit : Nat} {ctx : Context}
    (hctx : ctx.Laid env.registry noneShunned) (slot : Slot) {t : Token} (ht : t.isTrue = true)
    {o : Origin} (ho : o.context = []) {data : Node} (hdata : data.origin.context = [])
    {s : WalkState} {whole : Outcome}
    (hload :
      (inContext (limit + 2) env (slot.around (.conditional o (.token t) data)) ctx s).answer =
        .ok whole) :
    ∃ (loaded : Slot) (c : Context) (out : Outcome) (w d : Node),
      whole = .value w ∧ loaded.filled o out = some w ∧ out.toNode? data.origin = some d ∧
      (inContext limit env data c s).answer = .ok out ∧
      ∀ condition k, (inContext limit env condition c s).answer = .ok (.value k) →
        k.isDeferred Registry.builtin.isKnown = true →
        let kept := Node.conditional { o with context := c } k d
        (inContext (limit + 2) env (slot.around (.conditional o condition data)) ctx s).answer =
          .ok (.value (loaded.around kept)) ∧
        ((∃ m, out = .value m) ∨ (∃ items, out = .splice items) ∧ slot.inBlock = true →
          ∃ y, w = loaded.around y ∧
            ∀ (e : Engine) (file : String), e.registry = .builtin →
              Decides (e.surroundings true file) c k →
              (∀ limit, Tracked ContentLang.Alike
                (visit (e.surroundings true file) (inContext (limit + 1)) kept ctx)
                ((evaluator (e.surroundings true file) (inContext limit)).requireToken k c >>=
                  fun _ => visit (e.surroundings true file) (inContext (limit + 1)) y ctx)) ∧
              ((∀ n ∈ y :: loaded.after, Reduce.Forced (e.surroundings true file) ctx n) →
                e.Compares file ContentLang.Alike (loaded.around kept) w)) := by
  have hloads := Surroundings.loads_builtin hlate henv
  obtain ⟨loaded, c, hloaded, hblock, hc, hempty, ⟨out, s', hout⟩, hothers⟩ :=
    exists_slot hloads henv hctx slot (plain_conditional henv _ o (.token t) data) hload
  obtain ⟨w, hw, hrun⟩ := hothers _ (plain_conditional henv _ o (.token t) data) s' out hout
  rw [answer_conditional_true hloads ht, blind_inContext limit env hloads data c s' s] at hout
  obtain ⟨d, hd⟩ := Outcome.toNode?_of_ready
    (gives_answer (ready_inContext limit env hlate data c) hout) data.origin
  refine ⟨loaded, c, out, w, d, Except.ok.inj (hload.symm.trans hrun), hw, hd, hout,
    fun condition k hk hdeferred => ?_⟩
  -- The condition waits, and keeps what the data came to.
  have hwaits := surely_conditional_waits hloads (o := o) hk (henv ▸ hdeferred) hout hd s
    fun _ _ => trivial
  obtain ⟨out', hout'⟩ := hwaits.ends trivial
  obtain rfl := hwaits.answer _ hout'
  obtain ⟨w', hw', hrun'⟩ := hothers _ (plain_conditional henv _ o condition data) s _ hout'
  obtain rfl := Slot.filled_value hw'
  refine ⟨hrun', fun hone => ?_⟩
  have hlaid := answer_of_loading (settles_inContext noneShunned limit env hloads data c
    data.inert_noneShunned hc) hout
  obtain ⟨y, hy, htracked⟩ := exists_standing hempty ho hdata (hblock ▸ hone) hw hd
    (fun n hn => henv ▸ (hlaid.nodes n hn).1) fun hne =>
      gives_answer
        (captures_inContext limit env hlate (henv ▸ Function.capturing_builtin) data c hne) hout
  subst hy hloaded
  have hsettled {x z : Node}
      (h : (inContext (limit + 2) env x loaded.context s).answer = .ok (.value z)) :
      z.Settled .builtin false :=
    henv ▸ settled_of_run hloads hctx h rfl
  exact ⟨y, rfl, fun e file hregistry hdecides => kept_yields hregistry hempty hdecides
    (htracked _ rfl hregistry) (hsettled hrun') (hsettled hrun)⟩

/-- A condition with a choice in it, between two tokens. -/
theorem conditional_yields_choice :
    let e := Engine.start .standard (.plain (fun _ => none) fun _ => none) 0
    let env := e.surroundings false "main.txt"
    let o : Origin := .unwritten
    let word (s : String) : Node := .token (.content s o)
    let around (condition : Node) : Node :=
      .array [word "a", .conditional o condition (word "x"), word "b"] o
    let load (condition : Node) := (inContext 20 env (around condition) .empty e.state).answer
    ∃ w r, load (word "true") = .ok (.value w) ∧
      load (.call "Choose" [.array [word "true"] o] o) = .ok (.value r) ∧
      ∃ v v', e.comesTo "main.txt" w = .ok (some v) ∧ e.comesTo "main.txt" r = .ok (some v') ∧
        r.text .compact = "[a, If(Choose([true])) x, b]" ∧ v.text .compact = "[a, x, b]" ∧
        ContentLang.Alike v' v := by
  intro e env o word around load
  let choice : Node := .call "Choose" [.array [word "true"] o] o
  have hlower : "true".map Char.toLower = "true" := by decide +kernel
  have htrue {o : Origin} : (TokenOf.content "true" o).isTrue = true := by
    simp [TokenOf.isTrue, TokenOf.content, hlower]
  have hrun : ((load (word "true")).toOption.any fun whole => (whole.toNode? o).any fun w =>
      (w.items?.any fun items => items.all fun i => i.token?.isSome) &&
        ((e.comesTo "main.txt" w).toOption.join.any fun v =>
          decide (v.text .compact = "[a, x, b]")) &&
        (load choice).toOption.any fun whole' => (whole'.toNode? o).any fun r =>
          decide (r.text .compact = "[a, If(Choose([true])) x, b]") &&
            (e.comesTo "main.txt" r).toOption.join.isSome) = true := by decide +kernel
  obtain ⟨whole, hload, hrun⟩ := (Option.any_eq_true _ _).mp hrun
  obtain ⟨w, hw, hrun⟩ := (Option.any_eq_true _ _).mp hrun
  obtain ⟨hrun, hother⟩ := Bool.and_eq_true_iff.mp hrun
  obtain ⟨hitems, hrun⟩ := Bool.and_eq_true_iff.mp hrun
  obtain ⟨items, hitems, htokens⟩ := (Option.any_eq_true _ _).mp hitems
  obtain ⟨v, hv, htext⟩ := (Option.any_eq_true _ (e.comesTo "main.txt" w).toOption.join).mp hrun
  obtain ⟨whole', hload', hother⟩ := (Option.any_eq_true _ _).mp hother
  obtain ⟨r, hr, hother⟩ := (Option.any_eq_true _ _).mp hother
  obtain ⟨htext', hcomes⟩ := Bool.and_eq_true_iff.mp hother
  obtain ⟨v', hv'⟩ := Option.isSome_iff_exists.mp hcomes
  have hload := toOption_eq_some.mp hload
  have hempty : Context.Laid env.registry noneShunned .empty := by
    simp [Context.Laid, Context.empty]
  obtain ⟨loaded, c, out, w', d, rfl, hfilled, hd, hout, hothers⟩ := conditional_yields
    (show env.late = false from rfl) rfl hempty (.item [word "a"] [word "b"] o) htrue (o := o) rfl
    (show (word "x").origin.context = [] from rfl) hload
  obtain rfl := Option.some.inj hw
  -- Loading leaves the choice as it is, and the token for the data too.
  have hchoice : (inContext 18 env choice c e.state).answer =
      .ok (.value (.call "Choose" [.array [.token (.content "true" { o with context := c })]
        { o with context := c }] { o with context := c })) := rfl
  have hdeferred : (Node.call "Choose"
      [.array [.token (.content "true" { o with context := c })] { o with context := c }]
      { o with context := c }).isDeferred Registry.builtin.isKnown = true :=
    show Registry.builtin.isKnown "Choose" = true by decide
  have hone : ∃ m, out = .value m := ⟨_, (Except.ok.inj (hout.symm.trans rfl) :)⟩
  obtain ⟨hkept, hyields⟩ := hothers choice _ hchoice hdeferred
  obtain ⟨y, rfl, hyields⟩ := hyields (.inl hone)
  have hends := (hyields e "main.txt" rfl (decides_choice rfl rfl c htrue _ _)).2 (by
    intro n hn
    have hn : n ∈ items := by
      cases loaded with
      | item before after o =>
        obtain rfl := Option.some.inj hitems
        exact List.mem_append_right _ hn
      | entry => exact absurd hitems (by simp [Slot.around, Node.items?])
    have htoken := List.all_eq_true.mp htokens n hn
    cases n with
    | token u => exact forced_token _ _ u
    | _ => exact absurd htoken (by simp [Node.token?]))
  rw [Compares, join_toOption_eq_some.mp hv] at hends
  obtain rfl := Except.ok.inj ((toOption_eq_some.mp hload').symm.trans hkept)
  obtain rfl := Option.some.inj hr
  have hv' := join_toOption_eq_some.mp hv'
  rw [hv'] at hends
  rcases hends with hdeep | ⟨⟨⟨hsame⟩⟩⟩
  · exact absurd hdeep (by simp)
  · exact ⟨_, _, hload, toOption_eq_some.mp hload', v, v', join_toOption_eq_some.mp hv, hv',
      of_decide_eq_true htext', of_decide_eq_true htext, hsame⟩

/-- **A condition that is decided later may yield what it does not yield at once**: data that comes
to nothing at all is kept as null. -/
theorem conditional_misses :
    let e := Engine.start .standard (.plain (fun _ => none) fun _ => none) 0
    ∃ v w, e.firstOf "[If(true) Combine()]" "main.txt" = some v ∧
      e.firstOf "[If(Choose([true])) Combine()]" "main.txt" = some w ∧
      v.text .compact = "[]" ∧ w.text .compact = "[~]" := by
  intro e
  have hrun : (e.firstOf "[If(true) Combine()]" "main.txt").any (fun v =>
      (e.firstOf "[If(Choose([true])) Combine()]" "main.txt").any fun w =>
        decide (v.text .compact = "[]" ∧ w.text .compact = "[~]")) = true := by
    decide +kernel
  obtain ⟨v, hv, hother⟩ := (Option.any_eq_true _ _).mp hrun
  obtain ⟨w, hw, hdiffers⟩ := (Option.any_eq_true _ _).mp hother
  exact ⟨v, w, hv, hw, of_decide_eq_true hdiffers⟩

end Engine

end ContentLang
