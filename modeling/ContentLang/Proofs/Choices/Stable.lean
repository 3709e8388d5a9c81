import ContentLang.Proofs.Choices.Picks
import ContentLang.Proofs.Loading.Independent

/-!
# Choices with a seed are stable

A choice with a seed, or a static one, samples a generator that the host makes for it. What it comes
to could depend on the engine's generator, on conditions and on what was done before only through
the members of its list, and does not if all that is called there is **steady**
(`ContentLang.Registry.isSteady`): functions that are not late, but for `^`.

The members are consumed, and late functions would draw, ask and remember then. None of them can be
called, so that what relates two loading passes relates the two runs of the members
(`ContentLang.Simulation.steady`). Around the members there are the options, which are what they
are, and the sample, which is that of one and the same generator.

An engine is left as it was, apart from its diagnostics. Whatever else it is asked for before and
after a stable choice gives what it would give without the choice
(`ContentLang.Engine.stable_choices`).
-/

namespace ContentLang

open Walk Library

/-! ### What stable choices are made of -/

/-- Whether a name is that of a function that is not late and reads no binding. -/
def Registry.isSteady (f : String) : Bool :=
  decide (f ≠ "^") && (get? builtin f).any fun function => !function.late

namespace Node

/-- Whether a node calls nothing but steady functions. -/
def isSteady (n : Node) : Bool := n.calls.all fun c => Registry.isSteady c.function

/-- **Whether a node is a stable choice**: its list is written out and calls nothing but steady
functions, and its options are tokens, of which some is a seed or `Static`. -/
def isStableChoice : Node → Bool
  | .call f (.array items _ :: options) _ =>
    (f == "Choose" || f == "ChooseWeighted") && items.all isSteady &&
      options.all (·.token?.isSome) &&
      options.any fun n => n.token?.any fun t => decide (t.value ≠ flattenOption)
  | _ => false

/-- The parts of a stable choice. -/
theorem exists_of_isStableChoice {n : Node} (h : n.isStableChoice = true) :
    ∃ (f : String) (items : List Node) (ts : List Token) (o o' : Origin),
      n = .call f (.array items o' :: ts.map .token) o ∧ (f = "Choose" ∨ f = "ChooseWeighted") ∧
        (∀ i ∈ items, i.isSteady = true) ∧
        (ts.any fun t => decide (t.value ≠ flattenOption)) = true := by
  unfold isStableChoice at h
  split at h
  next f items o' options o =>
    simp only [Bool.and_eq_true, Bool.or_eq_true, beq_iff_eq, List.all_eq_true] at h
    obtain ⟨⟨⟨hf, hitems⟩, htokens⟩, hseed⟩ := h
    obtain ⟨ts, rfl⟩ : options ∈ Set.range (List.map Node.token) := by
      rw [Set.range_list_map]
      intro n hn
      have htoken := htokens n hn
      cases n with
      | token t => exact ⟨t, rfl⟩
      | _ => exact absurd htoken Bool.false_ne_true
    rw [List.any_map] at hseed
    exact ⟨f, items, ts, o, o', rfl, hf, hitems, hseed⟩
  next => exact absurd h Bool.false_ne_true

end Node

/-! ### Seeds -/

namespace Library.ChoiceOptions

/-- Whether the options name a seed, or will be given one. -/
def isSeeded (options : ChoiceOptions) : Bool := options.isStatic || options.seed.isSome

theorem take_isSeeded (options : ChoiceOptions) (t : Token) :
    (options.take t).isSeeded = (options.isSeeded || decide (t.value ≠ flattenOption)) := by
  unfold take
  split
  next h => simp [h, isSeeded]
  next h => split <;> simp [h, isSeeded]

/-- **An option that is not `Flatten` gives a seed**, be it one or `Static`. -/
theorem exists_seed (uid : String) {ts : List Token}
    (h : (ts.any fun t => decide (t.value ≠ flattenOption)) = true) :
    ∃ seed, (ofTokens uid ts).seed = some seed := by
  have hseeded : (ts.foldl take .none).isSeeded = true :=
    (foldl_take take_isSeeded .none ts).trans (by rw [h, Bool.or_true])
  unfold ofTokens
  dsimp only
  split
  next => exact ⟨_, rfl⟩
  next hstatic =>
    refine Option.isSome_iff_exists.mp ?_
    cases hseed : (ts.foldl take .none).seed with
    | some seed => rfl
    | none => simp_all [isSeeded]

end Library.ChoiceOptions

/-! ### Members -/

/-- The kinship of equal nodes that call nothing but steady functions. -/
def Kinship.steady : Kinship := ⟨fun f => Registry.isSteady f = true, (· = ·)⟩

theorem Kinship.not_steady {f : String} (hf : Registry.isSteady f = false) :
    ¬ Kinship.steady.calls f := fun h => Bool.false_ne_true (hf.symm.trans h)

theorem Kinship.steady_scoped : Kinship.steady.Scoped where
  captured := by
    rintro o _ c _ rfl rfl
    rfl
  read h := absurd h (not_steady (by decide))
  bind h := absurd h (not_steady (by decide))
  overlay h := absurd h (not_steady (by decide))
  written h := absurd h (not_steady (by decide))

theorem Node.kin_steady {n : Node} (h : n.isSteady = true) : n.Kin .steady n :=
  Node.Kin.refl (fun _ => rfl) (List.all_eq_true.mp h)

section

variable {w₁ w₂ : World} (h : w₁.LoadsAs w₂)

/-- **The simulation of runs that load alike**, on nodes that call nothing but steady functions. -/
def Simulation.steady : Simulation false w₁ w₂ :=
  { (Congruence.loading h).simulation with
    kin := .steady
    scope := Kinship.steady_scoped
    unbound := fun h => absurd h (Kinship.not_steady (by decide)) }

variable {h} in
/-- Walks whose answers are the same load alike if they are related. -/
theorem Simulation.steady_loadAlike {α : Type} {R : α → α → Prop} (hR : ∀ a b, R a b → a = b)
    {m₁ m₂ : Walk α} (hrel : (Simulation.steady h).rel R m₁ m₂) : LoadAlike m₁ m₂ :=
  Congruence.Sides.rel (Congruence.Sides.imp hrel hR)

variable {env : Surroundings} (hregistry : env.registry = .builtin)
include hregistry

/-- Surroundings of either pass fit the simulation, since no late function is called. -/
theorem Simulation.steady_fits :
    (Simulation.steady h).Fits (env.beside w₁) (env.beside w₂) where
  sameLate := rfl
  consumes _ := .inr fun {f function} (hf : Registry.isSteady f = true) hget => by
    have hget : Registry.get? .builtin f = some function := hregistry ▸ hget
    have hearly : f ≠ "^" ∧ function.late = false := by simpa [Registry.isSteady, hget] using hf
    exact hearly.2
  host₁ := rfl
  host₂ := rfl
  settings₁ := rfl
  settings₂ := rfl
  files := rfl
  functions := hregistry ▸ (Simulation.steady h).respects_builtin fun h => absurd h (by decide)
  limit := .inl rfl

namespace Reduce

/-- **Nodes that call nothing but steady functions** are reduced alike beside two worlds and from
any states, in either pass. -/
theorem steady_agree (limit : Nat) :
    (Simulation.steady h).Agree (visit (env.beside w₁) (inContext limit))
      (visit (env.beside w₂) (inContext limit)) :=
  Simulation.visit ((Simulation.steady h).inContext (.inl rfl)) (Simulation.steady_fits h hregistry)

variable (limit : Nat) (ctx : Context)
include h

theorem loadAlike_steady {n : Node} (hn : n.Kin .steady n) :
    LoadAlike (visit (env.beside w₁) (inContext limit) n ctx)
      (visit (env.beside w₂) (inContext limit) n ctx) := by
  have hctx : Kinship.steady.contexts ctx ctx := rfl
  exact Simulation.steady_loadAlike (fun _ _ hkin => hkin.eq id)
    (steady_agree h hregistry limit hn hctx)

/-- So are their weights. -/
theorem loadAlike_weights {items : List Node} (hitems : ∀ i ∈ items, i.Kin .steady i) :
    LoadAlike (weights (evaluator (env.beside w₁) (inContext limit)) ctx items)
      (weights (evaluator (env.beside w₂) (inContext limit)) ctx items) := by
  have hctx : Kinship.steady.contexts ctx ctx := rfl
  obtain ⟨h₁, h₂⟩ := (Simulation.steady_fits h hregistry).evaluator (inContext limit)
    (inContext limit)
  rw [h₁, h₂]
  refine Simulation.steady_loadAlike ?_ (Simulation.weights (steady_agree h hregistry limit) _ hctx
    (List.forall₂_same.mpr hitems))
  rintro _ _ (hsame | hkin)
  · rw [hsame]
  · rw [hkin.eq id]

/-! ### Samples -/

variable (hrandom : w₁.host.random = w₂.host.random)

omit hregistry h in
include hrandom in
/-- A sample of the generator of a seed. -/
theorem loadAlike_sample {α : Type} {options : ChoiceOptions} {seed : UInt64}
    (hseed : options.seed = some seed) (f : Generator → Option (α × Generator)) :
    LoadAlike
      ((evaluator (env.beside w₁) (inContext limit)).sample options.seed options.isStatic f)
      ((evaluator (env.beside w₂) (inContext limit)).sample options.seed options.isStatic f) := by
  have hask : LoadAlike (Walk.askRandom w₁.host seed options.isStatic)
      (Walk.askRandom w₂.host seed options.isStatic) := by
    refine fun s₁ s₂ => ⟨?_, rfl, rfl, ?_⟩
    · simp [Walk.askRandom, hrandom]
    · simp [Walk.askRandom, diagnosticsOf_questionNotes]
  rw [hseed]
  refine loadAlike_bind hask fun g => ?_
  cases f g with
  | none => exact fun _ _ => ⟨rfl, rfl, rfl, rfl⟩
  | some a => exact fun _ _ => ⟨rfl, rfl, rfl, rfl⟩

include hrandom in
/-- **A pick with a seed**, and the reduction of the member that is picked. -/
theorem loadAlike_pick {items : List Node} (hitems : ∀ i ∈ items, i.Kin .steady i)
    {options : ChoiceOptions} {seed : UInt64} (hseed : options.seed = some seed)
    (f : Generator → Option (Nat × Generator)) (change : Node → Node)
    (hchange : ∀ n : Node, n.Kin .steady n → (change n).Kin .steady (change n)) (o : Origin) :
    LoadAlike
      ((evaluator (env.beside w₁) (inContext limit)).sample options.seed options.isStatic f >>=
        fun i => match items[i]? with
        | some member => visit (env.beside w₁) (inContext limit) (change member) ctx
        | none => Pure.pure (.error o))
      ((evaluator (env.beside w₂) (inContext limit)).sample options.seed options.isStatic f >>=
        fun i => match items[i]? with
        | some member => visit (env.beside w₂) (inContext limit) (change member) ctx
        | none => Pure.pure (.error o)) := by
  refine loadAlike_bind (loadAlike_sample limit hrandom hseed f) fun i => ?_
  cases hmember : items[i]? with
  | none => exact fun _ _ => ⟨rfl, rfl, rfl, rfl⟩
  | some member =>
    have hsteady := hchange member (hitems member (List.mem_of_getElem? hmember))
    exact loadAlike_steady h hregistry limit ctx hsteady

/-! ### Choices -/

section

variable {items : List Node} {ts : List Token} (o o' : Origin)

omit h hregistry in
/-- At the bottom no option can be read. -/
theorem withMembers_spent (hts : ts ≠ []) (f : String)
    (k : Node → List Node → ChoiceOptions → Walk Outcome) :
    withMembers (evaluator env (inContext 0)) ⟨f, .array items o' :: ts.map .token, o⟩ ctx k =
      Walk.halt .exhausted := by
  have haccepts : (Arity.atLeast 1).accepts
      (Node.array items o' :: ts.map Node.token).length = true := by
    simp [Arity.accepts]
  obtain ⟨t, ts, rfl⟩ := List.exists_cons_of_ne_nil hts
  unfold withMembers Evaluator.withFirst
  dsimp only
  rw [if_pos haccepts]
  rfl

omit h hregistry in
/-- What is done with the members and the options of a choice that is written out. -/
theorem loadAlike_withMembers
    (hseed : (ts.any fun t => decide (t.value ≠ flattenOption)) = true) (f : String)
    {k₁ k₂ : Node → List Node → ChoiceOptions → Walk Outcome}
    (hk : LoadAlike (k₁ (.array items o') items (.ofTokens o.uid ts))
      (k₂ (.array items o') items (.ofTokens o.uid ts))) :
    let call : Call := ⟨f, .array items o' :: ts.map .token, o⟩
    LoadAlike (withMembers (evaluator (env.beside w₁) (inContext limit)) call ctx k₁)
      (withMembers (evaluator (env.beside w₂) (inContext limit)) call ctx k₂) := by
  intro call
  cases limit with
  | zero =>
    have hts : ts ≠ [] := by
      rintro rfl
      exact Bool.false_ne_true hseed
    rw [withMembers_spent ctx o o' hts, withMembers_spent ctx o o' hts]
    exact fun _ _ => ⟨rfl, rfl, rfl, rfl⟩
  | succ limit =>
    rw [withMembers_written, withMembers_written]
    cases items with
    | nil => exact fun _ _ => ⟨rfl, rfl, rfl, rfl⟩
    | cons n items => exact hk

variable (hitems : ∀ i ∈ items, i.Kin .steady i)
  (hseed : (ts.any fun t => decide (t.value ≠ flattenOption)) = true)
include hrandom hitems hseed

theorem loadAlike_choose (f : String) :
    let call : Call := ⟨f, .array items o' :: ts.map .token, o⟩
    LoadAlike (choose.reduce (evaluator (env.beside w₁) (inContext limit)) call ctx)
      (choose.reduce (evaluator (env.beside w₂) (inContext limit)) call ctx) := by
  obtain ⟨seed, hseeded⟩ := ChoiceOptions.exists_seed o.uid hseed
  exact loadAlike_withMembers limit ctx o o' hseed f
    (loadAlike_pick h hregistry limit ctx hrandom hitems hseeded _ id (fun _ hn => hn) o)

theorem loadAlike_chooseWeighted (f : String) :
    let call : Call := ⟨f, .array items o' :: ts.map .token, o⟩
    LoadAlike (chooseWeighted.reduce (evaluator (env.beside w₁) (inContext limit)) call ctx)
      (chooseWeighted.reduce (evaluator (env.beside w₂) (inContext limit)) call ctx) := by
  obtain ⟨seed, hseeded⟩ := ChoiceOptions.exists_seed o.uid hseed
  refine loadAlike_withMembers limit ctx o o' hseed f ?_
  refine loadAlike_bind (loadAlike_weights h hregistry limit ctx hitems) fun xs => ?_
  rcases xs with out | _ | ⟨x, xs⟩
  · exact fun _ _ => ⟨rfl, rfl, rfl, rfl⟩
  · exact fun _ _ => ⟨rfl, rfl, rfl, rfl⟩
  · dsimp only
    split
    · exact fun _ _ => ⟨rfl, rfl, rfl, rfl⟩
    · split
      · exact fun _ _ => ⟨rfl, rfl, rfl, rfl⟩
      · exact loadAlike_pick h hregistry limit ctx hrandom hitems hseeded _
          (strip weightKey (ChoiceOptions.ofTokens o.uid ts).flatten)
          (fun _ hn => Simulation.strip (S := .steady h) _ _ hn) o

end

include hrandom in
/-- **A stable choice is consumed alike** beside two worlds and from any states. -/
theorem loadAlike_stableChoice (hlate : env.late = true) {n : Node}
    (hn : n.isStableChoice = true) :
    LoadAlike (inContext limit (env.beside w₁) n ctx) (inContext limit (env.beside w₂) n ctx) := by
  obtain ⟨f, items, ts, o, o', rfl, hf, hitems, hseed⟩ := Node.exists_of_isStableChoice hn
  have hitems (i : Node) (hi : i ∈ items) : i.Kin .steady i := Node.kin_steady (hitems i hi)
  cases limit with
  | zero => exact fun _ _ => ⟨rfl, rfl, rfl, rfl⟩
  | succ limit =>
    have hconstruct : f ∉ constructs := by
      rcases hf with rfl | rfl
      · decide
      · decide
    have hrun {function : Function} (hget : Registry.get? .builtin f = some function)
        (hfunction : function.late = true) (w : World) :
        inContext (limit + 1) (env.beside w) (.call f (.array items o' :: ts.map .token) o) ctx =
          function.reduce (evaluator (env.beside w) (inContext limit))
            ⟨f, .array items o' :: ts.map .token, o⟩ ctx :=
      inContext_late (show (env.beside w).late = true from hlate) hconstruct
        (show Registry.get? env.registry f = some function from hregistry ▸ hget) hfunction _ o
    rcases hf with rfl | rfl
    · have hget : Registry.get? .builtin "Choose" = some choose := rfl
      rw [hrun hget rfl, hrun hget rfl]
      exact loadAlike_choose h hregistry limit ctx hrandom o o' hitems hseed _
    · have hget : Registry.get? .builtin "ChooseWeighted" = some chooseWeighted := rfl
      rw [hrun hget rfl, hrun hget rfl]
      exact loadAlike_chooseWeighted h hregistry limit ctx hrandom o o' hitems hseed _

end Reduce

end

/-! ### Engines -/

/-- What an engine may be asked for, or be told of its host. -/
inductive Request where
  | load (text file : String)
  | refresh (l : Loaded)
  | resolve (n : Node)
  /-- The host's conditions are these from now on. -/
  | decide (condition : String → Option Bool)

/-- What comes of a request. -/
inductive Response where
  | loaded (answer : Except Halt Loaded)
  | resolved (answer : Except Halt (Option Node))
  | decided

/-- Whether a request is for a stable choice. -/
def Request.isStableChoice : Request → Bool
  | resolve n => n.isStableChoice
  | _ => false

namespace Engine

/-- What comes of a request, and the engine after it. -/
def serve (e : Engine) : Request → Response × Engine
  | .load text file => (.loaded (e.loadText text file).answer, (e.loadText text file).engine)
  | .refresh l => (.loaded (e.refresh l).answer, (e.refresh l).engine)
  | .resolve n => (.resolved (e.resolve n).answer, (e.resolve n).engine)
  | .decide condition => (.decided, e.withHost { e.host with condition })

/-- What comes of requests, one after the other. -/
def responses (e : Engine) : List Request → List (Request × Response)
  | [] => []
  | r :: rs => (r, (e.serve r).1) :: (e.serve r).2.responses rs

/-! ### Diagnostics do not matter -/

/-- The engine with other diagnostics that nobody has taken yet. -/
def holding (e : Engine) (ds : List Diagnostic) : Engine := { e with diagnostics := ds }

theorem serve_holding (e : Engine) (ds : List Diagnostic) (r : Request) :
    ((e.holding ds).serve r).1 = (e.serve r).1 ∧
      ∃ ds', ((e.holding ds).serve r).2 = (e.serve r).2.holding ds' := by
  cases r with
  | load text file => exact ⟨rfl, ds, rfl⟩
  | refresh l => exact ⟨rfl, ds, rfl⟩
  | resolve n => exact ⟨rfl, _, rfl⟩
  | decide condition => exact ⟨rfl, ds, rfl⟩

/-- Requests are served whatever diagnostics are still there. -/
theorem responses_holding (e : Engine) (ds : List Diagnostic) (rs : List Request) :
    (e.holding ds).responses rs = e.responses rs := by
  induction rs generalizing e ds with
  | nil => rfl
  | cons r rs ih =>
    obtain ⟨hresponse, ds', hengine⟩ := e.serve_holding ds r
    rw [responses, responses, hresponse, hengine, ih]

/-! ### Stable choices -/

section

variable {e e' : Engine} (halike : e.Alike e') (hrandom : e.host.random = e'.host.random)
  (hregistry : e.registry = .builtin) {n : Node} (hn : n.isStableChoice = true)
include hregistry hn

/-- The run of a stable choice in two engines. -/
theorem loadAlike_resolve (halike : e.Alike e') (hrandom : e.host.random = e'.host.random) :
    LoadAlike (reduce (e.surroundings true n.location.file) n n.origin.context)
      (reduce (e'.surroundings true n.location.file) n n.origin.context) := by
  have henv : e'.surroundings true n.location.file =
      (e.surroundings true n.location.file).beside e'.world := by
    simp [surroundings, Surroundings.beside, world, halike.registry, halike.limit]
  rw [henv]
  exact Reduce.loadAlike_stableChoice halike.loadsAs
    (show (e.surroundings true n.location.file).registry = .builtin from hregistry) e.limit _
    hrandom rfl hn

include halike hrandom in
/-- **A stable choice comes to the same in two engines** that differ at most in chance and
conditions, if their hosts make the same generators for seeds. -/
theorem resolve_stable : (e.resolve n).answer = (e'.resolve n).answer := by
  have hrun := (loadAlike_resolve hregistry hn halike hrandom e.state e'.state).1
  exact congrArg (Except.map fun out => out.toNode? n.origin) hrun

/-- It leaves the engine's generator, and what functions remember, as they are. -/
theorem resolve_stable_state : (e.resolve n).engine.state = e.state :=
  (loadAlike_resolve hregistry hn (.refl e) rfl e.state e.state).2.1

/-- Of the engine nothing is changed but its diagnostics. -/
theorem resolve_stable_engine : ∃ ds, (e.resolve n).engine = e.holding ds := by
  refine ⟨(e.resolve n).engine.diagnostics, ?_⟩
  have hstate := resolve_stable_state hregistry hn
  show { e with state := (e.resolve n).engine.state, diagnostics := _ } = _
  rw [hstate]
  rfl

end

/-- A request changes nothing of an engine but what was drawn and remembered, its conditions and
its diagnostics. -/
theorem serve_alike (e : Engine) (r : Request) :
    e.Alike (e.serve r).2 ∧ e.host.random = (e.serve r).2.host.random := by
  cases r with
  | load text file => exact ⟨⟨rfl, rfl, rfl, rfl, rfl⟩, rfl⟩
  | refresh l => exact ⟨⟨rfl, rfl, rfl, rfl, rfl⟩, rfl⟩
  | resolve n => exact ⟨⟨rfl, rfl, rfl, rfl, rfl⟩, rfl⟩
  | decide condition => exact ⟨⟨rfl, rfl, rfl, rfl, rfl⟩, rfl⟩

/-- What comes of a stable choice does not depend on the requests before it. -/
theorem response_stable {e : Engine} (hregistry : e.registry = .builtin) {rs : List Request}
    {p : Request × Response} (hp : p ∈ e.responses rs) (hstable : p.1.isStableChoice = true) :
    p.2 = (e.serve p.1).1 := by
  induction rs generalizing e with
  | nil => exact absurd hp List.not_mem_nil
  | cons r rs ih =>
    rcases List.mem_cons.mp hp with rfl | hp
    · rfl
    · obtain ⟨halike, hrandom⟩ := e.serve_alike r
      have hlater := ih (halike.registry.trans hregistry) hp
      obtain ⟨request, response⟩ := p
      cases request with
      | resolve n =>
        rw [hlater]
        exact congrArg Response.resolved (resolve_stable halike hrandom hregistry hstable).symm
      | _ => exact absurd hstable Bool.false_ne_true

/-- Stable choices among requests make no difference to what comes of the others. -/
theorem responses_unstable {e : Engine} (hregistry : e.registry = .builtin) (rs : List Request) :
    (e.responses rs).filter (fun p => !p.1.isStableChoice) =
      e.responses (rs.filter fun r => !r.isStableChoice) := by
  induction rs generalizing e with
  | nil => rfl
  | cons r rs ih =>
    have hlater := ih ((e.serve_alike r).1.registry.trans hregistry)
    rw [responses]
    cases hstable : r.isStableChoice with
    | false =>
      rw [List.filter_cons_of_pos (by simp [hstable]), List.filter_cons_of_pos (by simp [hstable]),
        responses, hlater]
    | true =>
      rw [List.filter_cons_of_neg (by simp [hstable]), List.filter_cons_of_neg (by simp [hstable]),
        hlater]
      cases r with
      | resolve n =>
        obtain ⟨ds, hengine⟩ := resolve_stable_engine hregistry hstable
        show (e.resolve n).engine.responses _ = _
        rw [hengine, responses_holding]
      | _ => exact absurd hstable Bool.false_ne_true

/-- **Choices with a seed and static choices are stable**, if all that their members call are
functions that are not late, but for `^`. Such a choice comes to the same whatever the engine's
generator, the conditions and what was done before, and leaves the generator as it is. So whatever
else is asked for between such choices comes to what it would without them. -/
theorem stable_choices (e : Engine) (hregistry : e.registry = .builtin) :
    (∀ n : Node, n.isStableChoice = true →
      (∀ e', e.Alike e' → e.host.random = e'.host.random →
        (e.resolve n).answer = (e'.resolve n).answer) ∧
      (e.resolve n).engine.state = e.state) ∧
    ∀ rs : List Request,
      (∀ p ∈ e.responses rs, p.1.isStableChoice = true → p.2 = (e.serve p.1).1) ∧
      (e.responses rs).filter (fun p => !p.1.isStableChoice) =
        e.responses (rs.filter fun r => !r.isStableChoice) :=
  ⟨fun _ hn => ⟨fun _ halike hrandom => resolve_stable halike hrandom hregistry hn,
      resolve_stable_state hregistry hn⟩,
    fun rs => ⟨fun _ hp => response_stable hregistry hp, responses_unstable hregistry rs⟩⟩

/-- A static choice in two engines, and two choices without a seed around it. -/
theorem stable_choices_static :
    let e := Engine.start .standard (.plain (fun _ => none) fun _ => none) 0
    let e' := Engine.start .standard (.plain (fun _ => some true) fun _ => none) 7
    let o : Origin := .unwritten
    let word (s : String) : Node := .token (.content s o)
    let pick := Node.call "Choose" [.array [.call "Concatenate" [word "a", word "b"] o,
      .block [(.content "k" o, word "c")] o] o, word "Static"] o
    let other := Request.resolve (.call "Choose" [.array [word "x", word "y"] o] o)
    (∃ v, (e.resolve pick).answer = .ok (some v) ∧ (e'.resolve pick).answer = .ok (some v) ∧
      v.text .compact = "ab") ∧
    (e.resolve pick).engine.state = e.state ∧
    (e.responses [other, .resolve pick, other]).filter (fun p => !p.1.isStableChoice) =
      e.responses [other, other] := by
  intro e e' o word pick other
  have hpick : pick.isStableChoice = true := by decide +kernel
  obtain ⟨hstable, hrequests⟩ := stable_choices e rfl
  obtain ⟨hsame, hstate⟩ := hstable pick hpick
  have hrun : ((e.resolve pick).answer.toOption.join.any fun v =>
      decide (v.text .compact = "ab")) = true := by decide +kernel
  obtain ⟨v, hv, htext⟩ := (Option.any_eq_true _ _).mp hrun
  have hv := join_toOption_eq_some.mp hv
  have halike : e.Alike e' := ⟨rfl, rfl, rfl, rfl, rfl⟩
  exact ⟨⟨v, hv, (hsame e' halike rfl).symm.trans hv, of_decide_eq_true htext⟩, hstate,
    (hrequests _).2⟩

end Engine

end ContentLang
