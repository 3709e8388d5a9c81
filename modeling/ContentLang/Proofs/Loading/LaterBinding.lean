import ContentLang.Node.Printer
import ContentLang.Proofs.Loading.Settling
import ContentLang.Proofs.Nodes.Entries
import ContentLang.Proofs.Walk.Matching

/-!
# Later bindings

A value that is bound with `Set^` is reduced where it is bound, and again at each read: there it
is reduced, and marked with what is bound, in the context of the read. In the loading pass that
makes no difference. The value is settled, and a settled node stays as it is; so what a read
comes to is the same node, whatever was bound in between.

It is the consumption of that node which may differ. A read of a binding that is left in it, as its
name is not known before consumption, and an include that is left, look up what is bound at the
node: which is what was bound at the read of the value, and not where the value stands. Where no
such calls are left, a later binding is not seen
(`ContentLang.Reduce.later_binding_unseen`); where there is one, it may be
(`ContentLang.Engine.later_binding_seen`).
-/

namespace ContentLang

open Walk

/-! ### Bindings and reads -/

/-- A binding of a name, as it stands in a sequence. -/
def Node.bindCall (o : Origin) (name : Token) (value : Node) : Node :=
  .call setName [.token name, value] o

/-- A read of a name. -/
def Node.readCall (o : Origin) (name : Token) : Node := .call "^" [.token name] o

namespace Reduce

/-- A binding of a name in a sequence. -/
theorem elements_bindCall (env : Surroundings) (rec : Reducer) (ctx : Context) (o : Origin)
    (name : Token) (value : Node) (ns : List Node) :
    elements env rec ctx (.bindCall o name value :: ns) =
      bind env rec ⟨setName, [.token name, value], o⟩ ctx >>= fun c => elements env rec c ns :=
  elements_binding env rec ctx [.token name, value] o ns

section

variable {T : Terms} {env : Surroundings} (henv : env.Loads) {ctx : Context}
  {limit : Nat}
include henv

theorem meets_visit_token (t : Token) :
    Meets T False (· = .value (.token { t with origin := { t.origin with context := ctx } }))
      (visit env (inContext limit) (.token t) ctx) := by
  rw [visit_loading henv.late]
  rcases limit with _ | limit
  · exact meets_halt _ id
  · exact meets_pure rfl

/-- A token that has to be one is. -/
theorem meets_requireToken_token (t : Token) :
    Meets T False (· = .ok { t with origin := { t.origin with context := ctx } })
      ((evaluator env (inContext limit)).requireToken (.token t) ctx) := by
  refine meets_bind (meets_visit_token henv t) fun o ho => ?_
  subst ho
  exact meets_pure rfl

/-- **A binding of a name** leaves a context in which a value is bound to it that the pass gave. -/
theorem settles_binding (hctx : ctx.Laid env.registry noneShunned) (o : Origin) (name : Token)
    (value : Node) :
    Loading env noneShunned
      (fun c => ∃ t n, t.label.reading = name.label.reading ∧
        n.Laid env.registry noneShunned ∧ c = ctx.bind t n)
      (bind env (inContext limit) ⟨setName, [.token name, value], o⟩ ctx) := by
  refine meets_bind (meets_requireToken_token henv name) fun key hkey => ?_
  subst hkey
  refine meets_bind (settles_visit (settles_inContext _ limit) henv hctx value.inert_noneShunned)
    fun out hout => ?_
  obtain ⟨n, hn, hlaid⟩ := hout.toNode value.origin
  simp only [hn]
  exact meets_map (settles_remarkAt _ _ _) fun _ _ => ⟨_, n, rfl, hlaid, rfl⟩

/-- A settled node stays as it is. -/
theorem settles_stays {n : Node} (hn : n.Laid env.registry noneShunned) :
    Loading env noneShunned (Says n) (visit env (inContext limit) n ctx) :=
  (still_inContext limit env n _ (henv.late.symm ▸ hn.1)).mono
    (Terms.quietIf_covers_steadily _ _) (fun h => h.elim) fun _ h => h

/-- **A name that is read** comes to what its value comes to in the context of the read, marked
with the identity of the read. -/
theorem settles_readBinding (o : Origin) {t : Token} {value : Node} (hget : ctx.get? t = some value)
    (hvalue : value.Laid env.registry noneShunned) :
    Loading env noneShunned
      (fun out => Says (value.markUid (o.uid ++ ">")) out ∧
        ∃ s, (visit env (inContext limit) (value.markUid (o.uid ++ ">")) ctx s).answer = .ok out)
      (Library.readBinding.reduce (evaluator env (inContext limit)) ⟨"^", [.token t], o⟩ ctx) := by
  refine meets_bind (meets_requireToken_token henv t) fun x hx => ?_
  subst hx
  have hread : ctx.get? { t with origin := { t.origin with context := ctx } } = some value := hget
  simp only [hread]
  exact (settles_stays henv (hvalue.alike (Node.alike_markUid _ value))).here

/-- The same of a read as a call in the tree. -/
theorem settles_readCall (hregistry : env.registry = .builtin) (o : Origin) {name : Token}
    {value : Node} (hget : ctx.get? name = some value)
    (hvalue : value.Laid env.registry noneShunned) :
    Loading env noneShunned
      (fun out => Says (value.markUid (o.uid ++ ">")) out ∧
        ∃ s, (visit env (inContext limit) (value.markUid (o.uid ++ ">")) ctx s).answer = .ok out)
      (call env (inContext limit) ⟨"^", [.token name], o⟩ none ctx) := by
  let t : Token := { name with origin := { name.origin with context := ctx } }
  have hparams : Loading env noneShunned (· = some ⟨"^", [.token t], { o with context := ctx }⟩)
      (reduceCallParams env (inContext limit) ⟨"^", [.token name], o⟩ ctx) := by
    refine meets_map (P := (· = some [.token t])) (meets_bind (meets_visit_token henv name) ?_) ?_
    · rintro out rfl
      exact meets_pure rfl
    · rintro r rfl
      rfl
  have hfunction : Registry.get? env.registry "^" = some Library.readBinding := by
    rw [hregistry]
    rfl
  rw [call_eq_callFunction (by decide) hfunction]
  refine meets_bind hparams fun r hr => ?_
  subst hr
  refine meets_bind (settles_readBinding henv { o with context := ctx } (t := t) hget hvalue)
    fun out hout => ?_
  obtain ⟨⟨m, rfl, hm⟩, hrun⟩ := hout
  exact meets_pure ⟨⟨m, rfl, hm⟩, hrun⟩

/-- The same of a read as the only element of a sequence. -/
theorem settles_read (hregistry : env.registry = .builtin) (o : Origin) {name : Token}
    {value : Node} (hget : ctx.get? name = some value)
    (hvalue : value.Laid env.registry noneShunned) :
    Loading env noneShunned
      (fun r => ∃ m, r = some [m] ∧ Alike (value.markUid (o.uid ++ ">")) m ∧ ∃ s,
        (visit env (inContext (limit - 1)) (value.markUid (o.uid ++ ">")) ctx s).answer =
          .ok (.value m))
      (elements env (inContext limit) ctx [.readCall o name]) := by
  have hvisit : Loading env noneShunned
      (fun out => ∃ l, out.toItems? = some l ∧ ∃ m, l = [m] ∧
        Alike (value.markUid (o.uid ++ ">")) m ∧ ∃ s,
          (visit env (inContext (limit - 1)) (value.markUid (o.uid ++ ">")) ctx s).answer =
            .ok (.value m))
      (visit env (inContext limit) (.readCall o name) ctx) := by
    rw [visit_loading henv.late _ (.readCall o name)]
    rcases limit with _ | limit
    · exact meets_halt _ id
    · refine (settles_readCall henv hregistry o hget hvalue).imp fun out hout => ?_
      obtain ⟨⟨m, rfl, hm⟩, hrun⟩ := hout
      exact ⟨[m], rfl, m, rfl, hm, hrun⟩
  rw [elements]
  refine meets_bind (P := fun r => ∃ m, r = (some [m], ctx) ∧
    Alike (value.markUid (o.uid ++ ">")) m ∧ ∃ s,
      (visit env (inContext (limit - 1)) (value.markUid (o.uid ++ ">")) ctx s).answer =
        .ok (.value m)) ?_ fun r hr => ?_
  · rw [Node.readCall, element, if_neg (by decide)]
    refine (meets_plainElement hvisit).imp fun r hr => ?_
    obtain ⟨l, rfl, m, rfl, hm⟩ := hr
    exact ⟨m, rfl, hm⟩
  · obtain ⟨m, rfl, hm⟩ := hr
    exact meets_pure ⟨m, rfl, hm⟩

end

end Reduce

/-! ### Nodes that do not depend on bindings -/

/-- **The kinship of nodes that do not depend on bindings**: none is read or made in them, and no
file is included. What is bound where they stand may differ. -/
def Kinship.unread : Kinship :=
  ⟨fun f => f ≠ "^" ∧ f ≠ includeName ∧ f ≠ setName, fun _ _ => True⟩

theorem Kinship.unread_scoped : Kinship.unread.Scoped where
  captured _ _ := trivial
  read h := absurd rfl h.1
  bind h := absurd rfl h.2.2
  overlay h := absurd rfl h.2.1
  written h := absurd rfl h.2.1

/-- The simulation of runs on nodes that do not depend on bindings. -/
def Simulation.unread (late : Bool) (w : World) : Simulation late w w :=
  .matching late w Kinship.unread_scoped (fun h => absurd rfl h.2.2) Halt.never Halt.never
    (Halt.never_excuses late) Halt.not_never

theorem Simulation.unread_respects (late : Bool) (w : World) :
    (Simulation.unread late w).RespectsAll .builtin .builtin :=
  (Simulation.unread late w).respects_builtin fun _ => Walk.matches_halt id

/-- Two nodes that do not depend on bindings are consumed alike. -/
theorem Engine.resolve_unread {e : Engine} (hregistry : e.registry = .builtin) {m n : Node}
    (h : m.Kin .unread n) :
    SameEnd (Option.Rel fun x y => x.same y = true) (e.resolve m).answer (e.resolve n).answer ∧
      (e.resolve m).notes = (e.resolve n).notes ∧ (e.resolve m).engine = (e.resolve n).engine := by
  let S := Simulation.unread true ⟨e.host, e.settings⟩
  have hfunctions : S.RespectsAll e.registry e.registry :=
    hregistry ▸ Simulation.unread_respects true _
  have hlocation : m.location = n.location := h.origin.location
  have hrun := S.reduce (Engine.fits e e hfunctions (.inl rfl) m.location.file) h
    h.origin.context e.state
  have hsame : ∀ {x y : Option Node}, Option.Rel (Node.Kin .unread) x y →
      Option.Rel (fun x y => x.same y = true) x y := by
    rintro _ _ (hkin | _)
    · exact .some hkin.alike.same
    · exact .none
  rcases hrun with ⟨halt, hnever, -⟩ | ⟨hanswer, hstate, hnotes, -⟩
  · exact hnever.elim
  · simp only [resolve, reduceNode, consume, carryOut, ← hlocation, hstate, hnotes, and_self,
      and_true]
    exact hanswer.map fun _ _ hkin => hsame (hkin.toNode? h.origin)

namespace Reduce

variable {env : Surroundings} {limit : Nat} {ctx : Context}

/-- What a run of the loading pass comes to is as that pass makes it. -/
theorem answer_of_loading {α : Type} {P : α → Prop} {m : Walk α} (h : Loading env noneShunned P m)
    {s : WalkState} {a : α} (ha : (m s).answer = .ok a) : P a :=
  (h s fun _ _ _ _ _ _ n _ => n.inert_noneShunned).answer a ha

/-- A settled node that reads no binding and includes no file comes to nodes of the same kind in
any two contexts. -/
theorem kin_of_runs (henv : env.Loads) (hregistry : env.registry = .builtin) {ctx' : Context}
    {x m n : Node} (hx : x.Kin .unread x) {s s' : WalkState}
    (hm : (visit env (inContext limit) x ctx s).answer = .ok (.value m))
    (hn : (visit env (inContext limit) x ctx' s').answer = .ok (.value n)) : m.Kin .unread n := by
  let S := Simulation.unread false ⟨env.host, env.settings⟩
  have hfits : S.Fits env env := ⟨rfl, (.inl <| henv.late.symm.trans ·), rfl, rfl, rfl, rfl, rfl,
    hregistry ▸ Simulation.unread_respects false _, .inl rfl⟩
  have hrec : S.Recursors (inContext limit) (inContext limit) := S.inContext (.inl rfl)
  have hcontexts : S.kin.contexts ctx ctx' := trivial
  have hrun := Simulation.visit hrec hfits hx hcontexts s
  -- The second run comes to the same from the state of the first one.
  have hn' : (visit env (inContext limit) x ctx' s).answer = .ok (.value n) := by
    rw [visit_loading henv.late] at hn ⊢
    exact (blind_inContext limit env henv x ctx' s s').trans hn
  rcases hrun with ⟨halt, hnever, -⟩ | ⟨hanswer, -, -, -⟩
  · exact hnever.elim
  · rw [hm, hn'] at hanswer
    rcases hanswer with ⟨⟨hkin⟩⟩
    exact hkin

/-- **A later binding is not seen** by a value that was bound before. In every context that the
loading pass comes upon, a read of the value comes to the same node with the later binding as
without it; and if that node leaves no reads of bindings and no includes to consumption, it is
consumed alike in every engine: to the same, with the same notes, and with the engine going on
from the same state. -/
theorem later_binding_unseen (hlate : env.late = false) (hregistry : env.registry = .builtin)
    (hctx : ctx.Laid env.registry noneShunned) {a b : Token}
    (hab : a.label.reading ≠ b.label.reading) (v : Node) (w : Token) (oa ob o : Origin)
    (s : WalkState) {alone after : List Node}
    (halone : (elements env (inContext limit) ctx [.bindCall oa a v, .readCall o a] s).answer =
      .ok (some alone))
    (hafter : (elements env (inContext limit) ctx
      [.bindCall oa a v, .bindCall ob b (.token w), .readCall o a] s).answer = .ok (some after)) :
    ∃ m n, alone = [m] ∧ after = [n] ∧ m.same n = true ∧
      ((∀ c ∈ m.calls, c.function ≠ "^" ∧ c.function ≠ includeName) →
        ∀ e : Engine, e.registry = .builtin →
          SameEnd (Option.Rel fun x y => x.same y = true) (e.resolve m).answer
              (e.resolve n).answer ∧
            (e.resolve m).notes = (e.resolve n).notes ∧
            (e.resolve m).engine = (e.resolve n).engine) := by
  have henv := Surroundings.loads_builtin hlate hregistry
  rw [elements_bindCall] at halone hafter
  obtain ⟨c, hc, halone, -⟩ := answer_of_bind halone
  obtain ⟨c', hc', hafter, -⟩ := answer_of_bind hafter
  obtain rfl : c = c' := Except.ok.inj (hc.symm.trans hc')
  -- One value is bound in both contexts.
  obtain ⟨t, value, ht, hvalue, rfl⟩ := answer_of_loading (settles_binding henv hctx oa a v) hc
  have hctx₁ : (ctx.bind t value).Laid env.registry noneShunned := Context.laid_bind hctx hvalue
  have hget₁ : (ctx.bind t value).get? a = some value := Context.get?_bind_self ht
  rw [elements_bindCall] at hafter
  obtain ⟨c₂, hc₂, hafter, -⟩ := answer_of_bind hafter
  obtain ⟨t', value', ht', -, rfl⟩ :=
    answer_of_loading (settles_binding henv hctx₁ ob b (.token w)) hc₂
  have hget₂ : ((ctx.bind t value).bind t' value').get? a = some value := by
    rw [Context.get?_bind_of_ne (ht'.trans_ne hab.symm), hget₁]
  obtain ⟨m, halone, hm, s₁, hs₁⟩ :=
    answer_of_loading (settles_read henv hregistry o hget₁ hvalue) halone
  obtain ⟨n, hafter, hn, s₂, hs₂⟩ :=
    answer_of_loading (settles_read henv hregistry o hget₂ hvalue) hafter
  obtain rfl : alone = [m] := Option.some.inj halone
  obtain rfl : after = [n] := Option.some.inj hafter
  refine ⟨m, n, rfl, rfl, (hm.symm.trans hn).same, fun hcalls e he =>
    Engine.resolve_unread he (kin_of_runs henv hregistry ?_ hs₁ hs₂)⟩
  refine Node.Kin.refl (fun _ => trivial) fun call hcall => ?_
  -- What is called in the value is called in what was read.
  have hset : call.function ≠ setName :=
    ((hvalue.1.alike (Node.alike_markUid _ value)).of_mem_calls call hcall).1.ne_setName
  have hunread : m.Inert fun f => f == "^" || f == includeName := fun c hc => by
    simpa using hcalls c hc
  have hinert := hm.symm.inert hunread call hcall
  simp only [Bool.or_eq_false_iff, beq_eq_false_iff_ne] at hinert
  exact ⟨hinert.1, hinert.2, hset⟩

/-- A value in which a choice is left to consumption. -/
theorem later_binding_unseen_choice :
    let e := Engine.start .standard (.plain (fun _ => none) fun _ => none) 0
    let env := e.surroundings false "main.txt"
    let o : Origin := .unwritten
    let text (s : String) : Token := .content s o
    let value : Node := .call "Choose" [.array [.token (text "x"), .token (text "y")] o] o
    let read (ns : List Node) : Except Halt (Option (List Node)) :=
      (elements env (inContext e.limit) .empty ns e.state).answer
    ∃ m n, read [.bindCall o (text "A") value, .readCall o (text "A")] = .ok (some [m]) ∧
      read [.bindCall o (text "A") value, .bindCall o (text "B") (.token (text "w")),
        .readCall o (text "A")] = .ok (some [n]) ∧
      m.calls.map (·.function) = ["Choose"] ∧
      SameEnd (Option.Rel fun x y => x.same y = true) (e.resolve m).answer
        (e.resolve n).answer := by
  intro e env o text value read
  have hrun : ((read [.bindCall o (text "A") value, .readCall o (text "A")]).toOption.join.any
      fun ms => (read [.bindCall o (text "A") value, .bindCall o (text "B") (.token (text "w")),
        .readCall o (text "A")]).toOption.join.any
          fun _ => ms.all fun m => decide (m.calls.map (·.function) = ["Choose"])) = true := by
    decide +kernel
  obtain ⟨ms, halone, hother⟩ := (Option.any_eq_true _ _).mp hrun
  obtain ⟨ns, hafter, hall⟩ := (Option.any_eq_true _ _).mp hother
  have hnames : (text "A").label.reading ≠ (text "B").label.reading := by decide
  have hempty : Context.Laid env.registry noneShunned .empty := by
    simp [Context.Laid, Context.empty]
  obtain ⟨m, n, rfl, rfl, -, hconsumed⟩ := later_binding_unseen rfl rfl hempty hnames value
    (text "w") o o o e.state (join_toOption_eq_some.mp halone) (join_toOption_eq_some.mp hafter)
  have hcalls : m.calls.map (·.function) = ["Choose"] := by simpa using hall
  have hunread : ∀ c ∈ m.calls, c.function ≠ "^" ∧ c.function ≠ includeName := by
    intro c hc
    have hchoice : c.function ∈ ["Choose"] := hcalls ▸ List.mem_map_of_mem hc
    rw [List.mem_singleton.mp hchoice]
    decide
  exact ⟨m, n, join_toOption_eq_some.mp halone, join_toOption_eq_some.mp hafter, hcalls,
    (hconsumed hunread e rfl).1⟩

end Reduce

namespace Engine

/-- What the first item of a text comes to, when the text is loaded and the item is consumed. -/
def firstOf (e : Engine) (text file : String) : Option Node := do
  let loaded := e.loadText text file
  let l ← loaded.answer.toOption
  let item ← l.root.items?.bind List.head?
  (loaded.engine.resolve item).answer.toOption.join

/-- **A later binding may be seen**: a read whose name is chosen in consumption comes to what was
bound to the name after the value was, and not to its default. -/
theorem later_binding_seen :
    let e := Engine.start .standard (.plain (fun _ => none) fun _ => none) 0
    ∃ m n, e.firstOf "Set^(A, ^(Choose([B]), dflt)); ^(A)" "main.txt" = some m ∧
      e.firstOf "Set^(A, ^(Choose([B]), dflt)); Set^(B, w); ^(A)" "main.txt" = some n ∧
      m.text .compact = "dflt" ∧ n.text .compact = "w" ∧ m.same n = false := by
  intro e
  have hrun : (e.firstOf "Set^(A, ^(Choose([B]), dflt)); ^(A)" "main.txt").any (fun m =>
      (e.firstOf "Set^(A, ^(Choose([B]), dflt)); Set^(B, w); ^(A)" "main.txt").any fun n =>
        decide (m.text .compact = "dflt" ∧ n.text .compact = "w" ∧ m.same n = false)) = true := by
    decide +kernel
  obtain ⟨m, hm, hother⟩ := (Option.any_eq_true _ _).mp hrun
  obtain ⟨n, hn, hdiffers⟩ := (Option.any_eq_true _ _).mp hother
  exact ⟨m, n, hm, hn, of_decide_eq_true hdiffers⟩

end Engine

end ContentLang
