import ContentLang.Proofs.Loading.LaterBinding
import ContentLang.Proofs.Loading.Removing
import ContentLang.Proofs.Restating.Reduction

/-!
# Includes that wait

An include whose path is still a call when the file is loaded waits until the content is consumed,
and keeps its parameters as they were loaded. Once the path comes to a token, and the overrides to a
block, the file is included like the one that is named there at once
(`ContentLang.Engine.include_waits`).

What the parameters draw comes first, so the include that is written with the path and the block is
consumed from the state after that. A block that is written has other places than one that
is come upon, and it is reduced once more; so the bindings in the two files are restated
(`ContentLang.Context.Restates`), and what they come to is alike.

Overrides are not waited for by themselves: a call that is left there while the path is known is
no block, and that is reported (`ContentLang.Engine.include_hurries`).
-/

namespace ContentLang

open Walk

/-- An include. -/
def Node.including (o : Origin) (params : List Node) : Node := .call includeName params o

/-! ### Runs that leave the state as it is -/

namespace Walk

variable {α β : Type} {s : WalkState} {m : Walk α} {f : α → Walk β} {a : α} {b : β}
  {ds ds' : List Diagnostic}

/-- Whether a walk comes to an answer and leaves the state as it is, with some diagnostics. -/
def Arrives (s : WalkState) (ds : List Diagnostic) (a : α) (m : Walk α) : Prop :=
  (m s).answer = .ok a ∧ (m s).state = s ∧ diagnosticsOf (m s).notes = ds

theorem arrives_pure (a : α) : Arrives s [] a (Pure.pure a : Walk α) := ⟨rfl, rfl, rfl⟩

theorem arrives_bind (h : Arrives s ds a m) (hf : Arrives s ds' b (f a)) :
    Arrives s (ds ++ ds') b (m >>= f) := by
  obtain ⟨ha, hs, hd⟩ := h
  obtain ⟨hb, hs', hd'⟩ := hf
  rw [Arrives, bind_ok ha, hs]
  exact ⟨hb, hs', by rw [diagnosticsOf_append, hd, hd']⟩

theorem arrives_map {g : α → β} (h : Arrives s ds a m) :
    Arrives s ds (g a) (m >>= fun a => Pure.pure (g a)) := by
  rw [← List.append_nil ds]
  exact arrives_bind h (arrives_pure (g a))

/-- What comes after a remark. -/
theorem arrives_remark {level : Level} {location : Location} {text : String} {m : Walk β}
    (h : Arrives s ds b m) :
    Arrives s ds b (Walk.remarkAt level location text >>= fun _ => m) := by
  have hremark : Arrives s [] () (Walk.remarkAt level location text) := ⟨rfl, rfl, rfl⟩
  exact arrives_bind hremark h

end Walk

namespace Reduce

theorem accepts_include {others : List Node} (h : others.length ≤ 1) (path : Node) :
    (Arity.either 1 2).accepts (path :: others).length = true := by
  simp only [Arity.accepts, List.length_cons]
  grind

/-! ### Loading -/

section

variable {env : Surroundings} {limit : Nat} {ctx : Context} {s : WalkState}

/-- What is reported of a node. -/
def reports (env : Surroundings) (limit : Nat) (ctx : Context) (s : WalkState) (n : Node) :
    List Diagnostic :=
  diagnosticsOf (inContext limit env n ctx s).notes

/-- Whether a node is loaded as another one. -/
def LoadedAs (env : Surroundings) (limit : Nat) (ctx : Context) (s : WalkState) (n m : Node) :
    Prop :=
  ∃ out, (inContext limit env n ctx s).answer = .ok out ∧ out.toNode? n.origin = some m

variable (henv : env.Loads)
include henv

theorem LoadedAs.arrives {n m : Node} (h : LoadedAs env limit ctx s n m) :
    ∃ out, out.toNode? n.origin = some m ∧
      Arrives s (reports env limit ctx s n) out (visit env (inContext limit) n ctx) := by
  obtain ⟨out, hout, hm⟩ := h
  rw [visit_loading henv.late]
  exact ⟨out, hm, hout, (loadAlike_inContext limit henv n ctx s s).2.1, rfl⟩

theorem arrives_reduceParams {ps qs : List Node}
    (h : List.Forall₂ (LoadedAs env limit ctx s) ps qs) :
    Arrives s (ps.flatMap (reports env limit ctx s)) (some qs)
      (reduceParams env (inContext limit) ctx ps) := by
  induction h with
  | nil => exact arrives_pure _
  | @cons p q ps qs hp _ ih =>
    obtain ⟨out, hq, hout⟩ := hp.arrives henv
    refine arrives_bind hout ?_
    simp only [hq]
    exact arrives_map (g := Option.map (q :: ·)) ih

theorem arrives_keepCall {f : String} {ps qs : List Node} (o : Origin)
    (h : List.Forall₂ (LoadedAs env limit ctx s) ps qs) :
    Arrives s (ps.flatMap (reports env limit ctx s))
      (.value (.call f qs { o with context := ctx }))
      (keepCall env (inContext limit) ⟨f, ps, o⟩ none ctx) := by
  have hcall : Arrives s (ps.flatMap (reports env limit ctx s))
      (some ⟨f, qs, { o with context := ctx }⟩)
      (reduceCallParams env (inContext limit) ⟨f, ps, o⟩ ctx) :=
    arrives_map (g := Option.map fun qs => (⟨f, qs, { o with context := ctx }⟩ : Call))
      (arrives_reduceParams henv h)
  rw [← List.append_nil (ps.flatMap _)]
  exact arrives_bind hcall (arrives_pure _)

/-- **An include whose path is left for later is kept**, with its parameters as they were loaded,
and nothing but these reports anything; the path does so twice, as it is asked for first. -/
theorem arrives_include {path k : Node} {others ps : List Node} (hothers : others.length ≤ 1)
    (o : Origin) (hpath : LoadedAs env limit ctx s path k)
    (hk : k.isDeferred (Registry.isKnown env.registry) = true)
    (hps : List.Forall₂ (LoadedAs env limit ctx s) others ps) :
    Arrives s ((path :: path :: others).flatMap (reports env limit ctx s))
      (.value (.including { o with context := ctx } (k :: ps)))
      (inContext (limit + 1) env (.including o (path :: others)) ctx) := by
  have hkept := arrives_keepCall henv (f := includeName) o (.cons hpath hps)
  obtain ⟨out, hout, hrun⟩ := hpath.arrives henv
  have hpending : Arrives s (reports env limit ctx s path) (.error .pending)
      ((evaluator env (inContext limit)).requireToken path ctx) := by
    rw [← List.append_nil (reports env limit ctx s path)]
    refine arrives_bind hrun ?_
    -- Neither nothing nor several nodes stand for a call.
    cases out with
    | pending => exact absurd hout (by simp [Outcome.toNode?])
    | empty =>
      obtain rfl := Option.some.inj hout
      exact absurd hk (by simp [Node.isDeferred, Node.function?])
    | splice items =>
      obtain rfl := Option.some.inj hout
      exact absurd hk (by simp [Node.isDeferred, Node.function?])
    | value found =>
      obtain rfl := Option.some.inj hout
      cases found with
      | call f ps o =>
        simp only [Node.function?, show (evaluator env (inContext limit)).isKnown f = true from hk,
          if_true]
        exact arrives_pure _
      | statement f ps o data =>
        simp only [Node.function?, show (evaluator env (inContext limit)).isKnown f = true from hk,
          if_true]
        exact arrives_pure _
      | _ => exact absurd hk (by simp [Node.isDeferred, Node.function?])
  have hcall : Arrives s ((path :: path :: others).flatMap (reports env limit ctx s))
      (.value (.including { o with context := ctx } (k :: ps)))
      (includeCall env (inContext limit) ⟨includeName, path :: others, o⟩ ctx) := by
    rw [List.flatMap_cons]
    unfold includeCall
    simp only [accepts_include hothers path, Bool.not_true, Bool.false_eq_true, if_false]
    refine arrives_bind hpending ?_
    simp only [henv.late, Bool.false_eq_true, if_false]
    exact arrives_remark hkept
  show Arrives s _ _ (includeCall env (inContext limit) ⟨includeName, path :: others, o⟩ ctx >>= _)
  rw [← List.append_nil (List.flatMap _ _)]
  exact arrives_bind hcall (arrives_pure _)

end

/-! ### Consumption -/

/-- What an include does once its path is known. -/
def includeFrom (env : Surroundings) (rec : Reducer) (call : Call) (ctx : Context)
    (others : List Node) (path : String) : Walk Outcome := do
  match ← overrides env rec call ctx others with
  | .error outcome => return outcome
  | .ok bindings =>
    let file := Path.resolve call.origin.location.file path
    includeFile env rec call file (Context.overlay ctx bindings)

section

variable {env : Surroundings} {rec : Reducer} {ctx : Context} {s : WalkState} {o : Origin}

/-- In consumption an include does not look at its parameters once more. -/
theorem includeFrom_eq (hlate : env.late = true) (ps qs : List Node) (f : String)
    (others : List Node) (path : String) :
    includeFrom env rec ⟨f, ps, o⟩ ctx others path =
      includeFrom env rec ⟨f, qs, o⟩ ctx others path := by
  have hoverrides : overrides env rec ⟨f, ps, o⟩ ctx others =
      overrides env rec ⟨f, qs, o⟩ ctx others := by
    cases others with
    | nil => rfl
    | cons param others =>
      simp only [overrides, hlate, if_true]
      rfl
  rw [includeFrom, hoverrides]
  rfl

section

variable {path : Node} {t : Token} {left : WalkState}
  (hpath : ((evaluator env rec).requireToken path ctx s).answer = .ok (.ok t))
  (hleft : ((evaluator env rec).requireToken path ctx s).state = left)
include hpath hleft

/-- **An include goes on from its path**, in the state that this leaves. -/
theorem run_include {others : List Node} (hothers : others.length ≤ 1) :
    let next := includeFrom env rec ⟨includeName, path :: others, o⟩ ctx others t.value left
    (step rec env (.including o (path :: others)) ctx s).answer = next.answer ∧
      (step rec env (.including o (path :: others)) ctx s).state = next.state := by
  intro next
  have hcall : step rec env (.including o (path :: others)) ctx =
      includeCall env rec ⟨includeName, path :: others, o⟩ ctx := by
    show includeCall env rec ⟨includeName, path :: others, o⟩ ctx >>= (fun out => pure out) = _
    exact bind_pure _
  rw [hcall, includeCall]
  simp only [accepts_include hothers path, Bool.not_true, Bool.false_eq_true, if_false]
  rw [bind_ok hpath, hleft]
  exact ⟨rfl, rfl⟩

/-- **It goes on from its overrides** if these come to a block, and includes the file. -/
theorem run_include_block {d : Node} {es : List (Token × Node)} {b : Origin} {left' : WalkState}
    (hd : (visit env rec d ctx left).answer = .ok (.value (.block es b)))
    (hleft' : (visit env rec d ctx left).state = left') :
    let file := Path.resolve o.location.file t.value
    let next := includeFile env rec ⟨includeName, [path, d], o⟩ file (ctx.overlay es) left'
    (step rec env (.including o [path, d]) ctx s).answer = next.answer ∧
      (step rec env (.including o [path, d]) ctx s).state = next.state := by
  intro file next
  have hes : (overrides env rec ⟨includeName, [path, d], o⟩ ctx [d] left).answer =
      .ok (.ok es) := by
    rw [overrides, bind_ok hd]
    rfl
  have hstate : (overrides env rec ⟨includeName, [path, d], o⟩ ctx [d] left).state = left' := by
    rw [overrides, bind_ok hd, hleft']
    rfl
  obtain ⟨hanswer, hends⟩ := run_include (o := o) hpath hleft
    (show [d].length ≤ 1 from Nat.le_refl 1)
  rw [hanswer, hends, includeFrom, bind_ok hes, hstate]
  exact ⟨rfl, rfl⟩

end

end

/-- Where anything comes to a token, a token does, and leaves the state as it is. -/
theorem requireToken_token {env : Surroundings} {m : Nat} {ctx : Context} {s : WalkState}
    {path : Node} {t : Token}
    (hpath : ((evaluator env (inContext m)).requireToken path ctx s).answer = .ok (.ok t))
    (t' : Token) (left : WalkState) :
    let run := (evaluator env (inContext m)).requireToken (.token t') ctx left
    (∃ u, run.answer = .ok (.ok u) ∧ u.value = t'.value) ∧ run.state = left := by
  cases m with
  | zero => cases hpath
  | succ m => exact ⟨⟨_, rfl, rfl⟩, rfl⟩

section

variable {env : Surroundings} (hlate : env.late = true) {m : Nat} {ctx : Context} {s : WalkState}
  {o : Origin} {path : Node} {others : List Node} (hothers : others.length ≤ 1) {t t' : Token}
  (hpath : ((evaluator env (inContext m)).requireToken path ctx s).answer = .ok (.ok t))
  (ht : t'.value = t.value)
include hlate hothers hpath ht

/-- **An include whose path comes to a token is consumed like one that names it**, from the state
that the path leaves. -/
theorem include_path_found :
    let left := ((evaluator env (inContext m)).requireToken path ctx s).state
    let found := inContext (m + 1) env (.including o (path :: others)) ctx s
    let named := inContext (m + 1) env (.including o (.token t' :: others)) ctx left
    found.answer = named.answer ∧ found.state = named.state := by
  intro left found named
  obtain ⟨⟨u, hu, hvalue⟩, hleft⟩ := requireToken_token hpath t' left
  obtain ⟨hanswer, hstate⟩ := run_include (o := o) hpath rfl hothers
  obtain ⟨hanswer', hstate'⟩ := run_include (o := o) hu hleft hothers
  rw [includeFrom_eq hlate (path :: others) (.token t' :: others)] at hanswer hstate
  rw [hvalue, ht] at hanswer' hstate'
  exact ⟨hanswer.trans hanswer'.symm, hstate.trans hstate'.symm⟩

/-- **The same of an include whose overrides come to a block**, up to where the block stands: the
one that it is compared with is written with the path and the block. -/
theorem include_overrides_found (hregistry : env.registry = .builtin) (hlimit : m ≤ env.limit)
    {d : Node} (hd : others = [d]) {es es' : List (Token × Node)} {b b' : Origin}
    (hblock : Alike (Node.block es b) (.block es' b'))
    (hdepth : (Node.block es' b').depth ≤ m) :
    let left := ((evaluator env (inContext m)).requireToken path ctx s).state
    (visit env (inContext m) d ctx left).answer = .ok (.value (.block es b)) →
      let left' := (visit env (inContext m) d ctx left).state
      let found := inContext (m + 1) env (.including o (path :: others)) ctx s
      let named := inContext (m + 1) env
        (.including o [.token t', .block es' b']) ctx left'
      found.answer = .error .exhausted ∨
        SameEnd Alike found.answer named.answer ∧ found.state = named.state := by
  intro left hfound left' found named
  subst hd
  have hfaithful : env.Faithful := ⟨hlate, hregistry ▸ Function.faithful_builtin⟩
  have hinert : (Node.block es b).Inert (known env) :=
    (propagates_visit (propagates_inContext m) hfaithful d ctx left _ hfound).1
  have hinert' := hblock.inert hinert
  -- The block that is written is reduced once more, which changes nothing but places.
  obtain ⟨hstate, -, hends, hanswer⟩ := (still_inContext m env (.block es' b')
    (contextOf env (.block es' b') ctx) hinert'.settled) left' fun _ _ => trivial
  obtain ⟨out, hout⟩ := hends ⟨hdepth, hlimit⟩
  obtain ⟨_, rfl, hv⟩ := hanswer out hout
  obtain ⟨fs, b'', rfl, hfs⟩ := (hblock.trans hv).block
  have hwritten : (visit env (inContext m) (.block es' b') ctx left').answer =
      .ok (.value (.block fs b'')) := hout
  have hsame : (visit env (inContext m) (.block es' b') ctx left').state = left' := hstate trivial
  obtain ⟨⟨u, hu, hvalue⟩, hleft⟩ := requireToken_token hpath t' left'
  obtain ⟨hanswer₁, hstate₁⟩ := run_include_block (o := o) hpath rfl hfound rfl
  obtain ⟨hanswer₂, hstate₂⟩ := run_include_block (o := o) hu hleft hwritten hsame
  rw [hvalue, ht] at hanswer₂ hstate₂
  have hbindings : (ctx.overlay es).Restates (known env) (ctx.overlay fs) :=
    (Context.restates_refl ctx).overlay (Node.inert_block.mp hinert) hfs
  have hfile := tracked_includeFile (restating_inContext m) hlate hregistry hbindings
    ⟨includeName, [path, d], o⟩ (Path.resolve o.location.file t.value) left'
  rw [← hanswer₁, ← hstate₁] at hfile
  exact hfile.imp_right fun ⟨hends, hstate⟩ =>
    ⟨hanswer₂ ▸ hends, hstate.trans hstate₂.symm⟩

end

end Reduce

namespace Engine

open Reduce

/-- The engine going on from another state. -/
def continued (e : Engine) (s : WalkState) : Engine := { e with state := s }

/-- A call that was kept is resolved in the bindings that it was kept with. -/
theorem resolve_kept (e : Engine) {m : Nat} (hlimit : e.limit = m + 1) (f : String)
    (ps : List Node) (o : Origin) (ctx : Context) :
    let run := inContext (m + 1) (e.surroundings true o.location.file)
      (.call f ps { o with context := ctx }) ctx e.state
    let reply := e.resolve (.call f ps { o with context := ctx })
    reply.answer = run.answer.map (·.toNode? { o with context := ctx }) ∧
      reply.engine.state = run.state := by
  intro run reply
  have hown : contextOf (e.surroundings true o.location.file)
      (.call f ps { o with context := ctx }) ctx = ctx := by
    unfold contextOf
    split <;> rfl
  have hrun : reduce (e.surroundings true o.location.file)
      (.call f ps { o with context := ctx }) ctx e.state = run := by
    show visit _ (inContext e.limit) _ _ _ = _
    rw [visit, hown, hlimit]
  rw [← hrun]
  exact ⟨rfl, rfl⟩

/-- **An include whose path is left for later waits**: it is kept with its parameters as they were
loaded, and nothing is reported but what is reported of these, of the path twice. Once its path
comes to a token, it is resolved like the include that is written with this token, from the state
that the path leaves. If its overrides come to a block then, it is resolved like the include that is
written with the token and this block, wherever they stand, from the state that both leave. -/
theorem include_waits {env : Surroundings} (hlate : env.late = false)
    (hregistry : env.registry = .builtin) {limit : Nat} {ctx : Context} {s : WalkState}
    {path k : Node} {others ps : List Node} (hothers : others.length ≤ 1) (o : Origin)
    (hpath : LoadedAs env limit ctx s path k) (hk : k.isDeferred Registry.builtin.isKnown = true)
    (hps : List.Forall₂ (LoadedAs env limit ctx s) others ps) :
    let here : Origin := { o with context := ctx }
    Arrives s ((path :: path :: others).flatMap (reports env limit ctx s))
      (.value (.including here (k :: ps)))
      (inContext (limit + 1) env (.including o (path :: others)) ctx) ∧
    ∀ (e : Engine) (m : Nat), e.registry = .builtin → e.limit = m + 1 →
      let late := e.surroundings true o.location.file
      let kept := e.resolve (.including here (k :: ps))
      let asked := (evaluator late (inContext m)).requireToken k ctx e.state
      ∀ t t' : Token, asked.answer = .ok (.ok t) → t'.value = t.value →
        (let named := (e.continued asked.state).resolve (.including here (.token t' :: ps))
         kept.answer = named.answer ∧ kept.engine.state = named.engine.state) ∧
        ∀ d, ps = [d] →
          let bound := visit late (inContext m) d ctx asked.state
          ∀ es b es' b', bound.answer = .ok (.value (.block es b)) →
            ContentLang.Alike (Node.block es b) (.block es' b') → (Node.block es' b').depth ≤ m →
              let named := (e.continued bound.state).resolve
                (.including here [.token t', .block es' b'])
              kept.answer = .error .exhausted ∨
                SameEnd (Option.Rel ContentLang.Alike) kept.answer named.answer ∧
                  kept.engine.state = named.engine.state := by
  intro here
  have henv := Surroundings.loads_builtin hlate hregistry
  refine ⟨arrives_include henv hothers o hpath (hregistry ▸ hk) hps, ?_⟩
  intro e m hbuiltin hlimit late kept asked t t' ht hsame
  have hparams : ps.length ≤ 1 := hps.length_eq ▸ hothers
  obtain ⟨hanswer, hstate⟩ := e.resolve_kept hlimit includeName (k :: ps) o ctx
  refine ⟨?_, ?_⟩
  · intro named
    obtain ⟨hanswer', hstate'⟩ := (e.continued asked.state).resolve_kept hlimit includeName
      (.token t' :: ps) o ctx
    obtain ⟨hfound, hends⟩ := include_path_found (o := here) (show late.late = true from rfl)
      hparams ht hsame
    exact ⟨(hanswer.trans (congrArg _ hfound)).trans hanswer'.symm,
      (hstate.trans hends).trans hstate'.symm⟩
  · intro d hd bound es b es' b' hbound hblock hdepth named
    obtain ⟨hanswer', hstate'⟩ := (e.continued bound.state).resolve_kept hlimit includeName
      [.token t', .block es' b'] o ctx
    have hrun := include_overrides_found (o := here) (show late.late = true from rfl) hparams ht
      hsame hbuiltin (show m ≤ e.limit by omega) hd hblock hdepth hbound
    refine hrun.imp (fun hdeep => ?_) fun ⟨hends, hsame⟩ => ⟨?_, ?_⟩
    · exact hanswer.trans (congrArg _ hdeep)
    · rw [show kept.answer = _ from hanswer, show named.answer = _ from hanswer']
      exact hends.map fun _ _ h => h.toNode? _ _
    · exact (hstate.trans hsame).trans hstate'.symm

/-- An include of a file that is chosen, with bindings that are chosen. -/
theorem include_waits_choices :
    let host := Host.plain (fun _ => none) fun f => if f = "f" then some "^(A)" else none
    let e := Engine.start .standard host 0
    let o : Origin := .unwritten
    let word (s : String) : Node := .token (.content s o)
    let choice (n : Node) : Node := .call "Choose" [.array [n] o] o
    let rows := Node.block [(.content "A" o, word "x")] o
    let call := Node.including o [choice (word "f"), choice rows]
    ∃ (s : WalkState) (es : List (Token × Node)) (v v' : Node),
      Arrives e.state [] (.value call)
        (inContext 20 (e.surroundings false "main.txt") call .empty) ∧
      (Node.block es o).text .compact = "\x7b A: x \x7d" ∧
      (e.resolve call).answer = .ok (some v) ∧
      ((e.continued s).resolve (.including o [word "f", .block es o])).answer = .ok (some v') ∧
      v.text .compact = "x" ∧ ContentLang.Alike v v' := by
  intro host e o word choice rows call
  let late := e.surroundings true ""
  have hdeferred : (choice (word "f")).isDeferred Registry.builtin.isKnown = true :=
    show Registry.builtin.isKnown "Choose" = true by decide
  have hloaded (n : Node) (h : n = word "f" ∨ n = rows) :
      LoadedAs (e.surroundings false "main.txt") 19 .empty e.state (choice n) (choice n) := by
    rcases h with rfl | rfl
    · exact ⟨_, rfl, rfl⟩
    · exact ⟨_, rfl, rfl⟩
  obtain ⟨harrives, hwaits⟩ := include_waits rfl rfl
    (show [choice rows].length ≤ 1 from Nat.le_refl 1) o (hloaded _ (.inl rfl)) hdeferred
    (.cons (hloaded _ (.inr rfl)) .nil)
  -- What is consumed: the path, then the overrides, and the include as it was kept.
  let asked := (evaluator late (inContext 999999999999)).requireToken (choice (word "f")) .empty
    e.state
  let bound := visit late (inContext 999999999999) (choice rows) .empty asked.state
  have hrun : ((asked.answer.toOption.any fun r =>
        r.toOption.any fun t => decide (t.value = "f")) &&
      (bound.answer.toOption.any fun out => (out.toNode? o).any fun n => n.entries?.any fun es =>
        decide ((Node.block es o).text .compact = "\x7b A: x \x7d" ∧
          (Node.block es o).depth ≤ 999999999999)) &&
      (e.resolve call).answer.toOption.join.any fun v =>
        decide (v.text .compact = "x")) = true := by decide +kernel
  obtain ⟨hrun, hkept⟩ := Bool.and_eq_true_iff.mp hrun
  obtain ⟨hpath, hblock⟩ := Bool.and_eq_true_iff.mp hrun
  obtain ⟨r, hasked, hpath⟩ := (Option.any_eq_true _ _).mp hpath
  obtain ⟨t, ht, hpath⟩ := (Option.any_eq_true _ _).mp hpath
  obtain ⟨out, hbound, hblock⟩ := (Option.any_eq_true _ _).mp hblock
  obtain ⟨n, hn, hblock⟩ := (Option.any_eq_true _ _).mp hblock
  obtain ⟨es, hes, hblock⟩ := (Option.any_eq_true _ _).mp hblock
  obtain ⟨hrows, hdepth⟩ := of_decide_eq_true hblock
  obtain ⟨v, hv, htext⟩ := (Option.any_eq_true _ _).mp hkept
  obtain ⟨b, rfl⟩ : ∃ b, n = .block es b := by
    cases n with
    | block fs b => exact ⟨b, by rw [Option.some.inj hes]⟩
    | _ => exact absurd hes (by simp [Node.entries?])
  obtain rfl : out = .value (.block es b) := by
    cases out with
    | value n => rw [Option.some.inj hn]
    | _ => exact absurd hn (by simp [Outcome.toNode?])
  obtain rfl : r = .ok t := by
    cases r with
    | ok u => rw [Option.some.inj ht]
    | error _ => exact absurd ht (by simp [Except.toOption])
  have hsame := (hwaits e 999999999999 rfl rfl t (.content "f" o) (toOption_eq_some.mp hasked)
    (of_decide_eq_true hpath).symm).2 (choice rows) rfl es b es o (toOption_eq_some.mp hbound)
    (.refl _) hdepth
  have hv := join_toOption_eq_some.mp hv
  rcases hsame with hdeep | ⟨hends, -⟩
  · exact absurd (hv.symm.trans hdeep) (by simp)
  · obtain ⟨w, hw, hsame⟩ := hends.exists_ok hv
    cases hsame with
    | some hsame =>
      exact ⟨_, es, v, _, harrives, hrows, hv, hw, of_decide_eq_true htext, hsame⟩

/-- **Overrides are not waited for**: a call that is left there is reported as no block while the
file is loaded, and nothing is left to include. -/
theorem include_hurries :
    let host := Host.plain (fun _ => none) fun f => if f = "f" then some "^(A)" else none
    let e := Engine.start .standard host 0
    ∃ l v, (e.loadText "Include(f, Choose([\x7bA: x\x7d]))" "main.txt").answer = .ok l ∧
      l.diagnostics = [⟨⟨"main.txt", 1, 12⟩, 6,
        .invalidArgument includeName (.overridesNotABlock .call)⟩] ∧
      l.root.text .compact = "[error]" ∧
      e.firstOf "Include(f, \x7bA: x\x7d)" "main.txt" = some v ∧ v.text .compact = "x" := by
  intro host e
  have hrun : ((e.loadText "Include(f, Choose([\x7bA: x\x7d]))" "main.txt").answer.toOption.any
      fun l => (e.firstOf "Include(f, \x7bA: x\x7d)" "main.txt").any fun v =>
        decide (l.diagnostics = [⟨⟨"main.txt", 1, 12⟩, 6,
            .invalidArgument includeName (.overridesNotABlock .call)⟩] ∧
          l.root.text .compact = "[error]" ∧ v.text .compact = "x")) = true := by
    decide +kernel
  obtain ⟨l, hl, hrun⟩ := (Option.any_eq_true _ _).mp hrun
  obtain ⟨v, hv, hrun⟩ := (Option.any_eq_true _ _).mp hrun
  obtain ⟨hdiagnostics, hroot, htext⟩ := of_decide_eq_true hrun
  exact ⟨l, v, toOption_eq_some.mp hl, hdiagnostics, hroot, hv, htext⟩

end Engine

end ContentLang
