import ContentLang.Proofs.Walk.Functions
import ContentLang.Proofs.Walk.Parts

/-!
# The reduction respects simulations

Two reductions of kin nodes are related by every simulation (`ContentLang.Simulation.inContext`),
if the functions of the two registries are. One lemma for each part of a step, given related ways
to reduce the nodes within, and one induction on how deep a walk may be nested.
-/

namespace ContentLang

/-- A function that is found under a name is in the registry. -/
theorem Registry.mem_of_get? {registry : Registry} {name : String} {function : Function}
    (h : Registry.get? registry name = some function) : ∃ e ∈ registry, e.2 = function := by
  simp only [Registry.get?, Entries.get?, Option.map_eq_some_iff] at h
  obtain ⟨e, he, rfl⟩ := h
  exact ⟨e, List.mem_of_find?_eq_some he, rfl⟩

namespace Simulation

variable {late : Bool} {w₁ w₂ : World} (S : Simulation late w₁ w₂)

/-! ### Registries and surroundings -/

section

variable {S} {r r' : Registry} (h : S.RespectsAll r r')
include h

theorem RespectsAll.names : Registry.names r = Registry.names r' := by
  have hkeys : Entries.keys r = Entries.keys r' := by
    induction h with
    | nil => rfl
    | cons he _ ih =>
      unfold Entries.keys at ih ⊢
      rw [List.map_cons, List.map_cons, he.1, ih]
  rw [Registry.names, Registry.names, hkeys]

theorem RespectsAll.contains (name : String) :
    Registry.contains r name = Registry.contains r' name := by
  unfold Registry.contains Entries.contains Entries.find?
  induction h with
  | nil => rfl
  | @cons e e' _ _ he _ ih =>
    rw [List.find?_cons, List.find?_cons, he.1]
    cases e'.1 == name with
    | true => rfl
    | false => exact ih

theorem RespectsAll.isKnown : Registry.isKnown r = Registry.isKnown r' := by
  funext name
  rw [Registry.isKnown, Registry.isKnown, h.contains]

/-- The functions found under a name respect the simulation, if the name may be called. -/
theorem RespectsAll.get? {name : String} (hname : S.kin.calls name) :
    Option.Rel S.Respects (Registry.get? r name) (Registry.get? r' name) := by
  unfold Registry.get? Entries.get? Entries.find?
  induction h with
  | nil => exact .none
  | @cons e e' _ _ he _ ih =>
    rw [List.find?_cons, List.find?_cons, he.1]
    cases hfound : e'.1 == name with
    | false => exact ih
    | true =>
      have hcalled : e.1 = name := he.1.trans (eq_of_beq hfound)
      exact .some (he.2 (hcalled ▸ hname))

end

/-- **Whether two surroundings are those of a simulation**: beside its worlds, with functions that
respect it, and of one pass. Where late functions may be called, content is consumed only in the
pass of the simulation. -/
structure Fits (env₁ env₂ : Surroundings) : Prop where
  sameLate : env₁.late = env₂.late
  consumes : env₁.late = true → late = true ∨ ∀ {name : String} {function : Function},
    S.kin.calls name → Registry.get? env₁.registry name = some function → function.late = false
  host₁ : env₁.host = w₁.host
  host₂ : env₂.host = w₂.host
  settings₁ : env₁.settings = w₁.settings
  settings₂ : env₂.settings = w₂.settings
  files : env₁.files = env₂.files
  functions : S.RespectsAll env₁.registry env₂.registry
  limit : S.Within env₁.limit env₂.limit

/-- Whether two ways to reduce nodes are related in the surroundings of a simulation. -/
def Recursors (rec₁ rec₂ : Reducer) : Prop :=
  ∀ {env₁ env₂ : Surroundings}, S.Fits env₁ env₂ → S.Agree (rec₁ env₁) (rec₂ env₂)

section

variable {S} {env₁ env₂ : Surroundings} (henv : S.Fits env₁ env₂)
include henv

theorem Fits.within (file : String) : S.Fits (env₁.within file) (env₂.within file) :=
  { henv with files := congrArg (· ++ [file]) henv.files }

theorem Fits.maxIncludeDepth : env₁.settings.maxIncludeDepth = env₂.settings.maxIncludeDepth := by
  rw [henv.settings₁, henv.settings₂]
  exact S.maxIncludeDepth

theorem Fits.uniqueId : env₁.settings.uniqueId = env₂.settings.uniqueId := by
  rw [henv.settings₁, henv.settings₂]
  exact S.uniqueId

theorem Fits.takesNoData (function : String) :
    Reduce.takesNoData env₁ function = Reduce.takesNoData env₂ function := by
  rw [Reduce.takesNoData, Reduce.takesNoData, henv.functions.contains]

/-- What functions may do in surroundings of a simulation is what it compares. -/
theorem Fits.evaluator (rec₁ rec₂ : Reducer) :
    Reduce.evaluator env₁ rec₁ =
        (Reduce.evaluator env₁ rec₁).under w₁ env₁.limit (Reduce.visit env₁ rec₁) ∧
      Reduce.evaluator env₂ rec₂ =
        (Reduce.evaluator env₁ rec₁).under w₂ env₂.limit (Reduce.visit env₂ rec₂) := by
  constructor
  · simp only [Reduce.evaluator, Evaluator.under, Evaluator.beside, ← henv.host₁, ← henv.settings₁]
  · simp only [Reduce.evaluator, Evaluator.under, Evaluator.beside, ← henv.host₂, ← henv.settings₂,
      henv.sameLate, henv.functions.isKnown, henv.functions.names]

/-- What is pending is kept while loading. -/
theorem orKept {x y : Outcome} (hxy : x.Kin S.kin y) {m n : Node} (hnode : m.Kin S.kin n)
    {c d : Context} (hctx : S.kin.contexts c d) :
    S.rel (Outcome.Kin S.kin) (Reduce.orKept env₁ x m c) (Reduce.orKept env₂ y n d) := by
  refine S.ite (by rw [hxy.isPending, henv.sameLate]) ?_ (S.pure hxy)
  refine S.map (S.map (Q := Node.Kin S.kin) (S.remarkAt _ hnode.origin.location _)
    fun _ _ _ => ?_) fun _ _ h => .value h
  exact hnode.withContext hctx

omit henv in
theorem notIncluded {c d : Call} (hcall : c.Kin S.kin d) (problem : Problem) :
    S.rel (Outcome.Kin S.kin) (Reduce.notIncluded c problem) (Reduce.notIncluded d problem) :=
  S.map (S.report hcall.origin _) fun _ _ _ => .token hcall.origin.null

end

section

variable {S} {rec₁ rec₂ : Reducer} (hrec : S.Recursors rec₁ rec₂) {env₁ env₂ : Surroundings}
  (henv : S.Fits env₁ env₂) {ctx ctx' : Context} (hctx : S.kin.contexts ctx ctx')
include hrec henv

/-! ### Parameters -/

theorem visit : S.Agree (Reduce.visit env₁ rec₁) (Reduce.visit env₂ rec₂) := by
  intro m n c d hnode hctx
  refine hrec henv hnode ?_
  unfold Reduce.contextOf
  rw [← henv.sameLate]
  have hcaptured := S.scope.captured hnode.origin.context hctx
  cases env₁.late with
  | false => exact hctx
  | true => exact hcaptured

include hctx

theorem required {m n : Node} (hnode : m.Kin S.kin n) :
    S.rel (S.kin.Given (TokenOf.Kin S.kin)) ((Reduce.evaluator env₁ rec₁).requireToken m ctx)
      ((Reduce.evaluator env₂ rec₂).requireToken n ctx') := by
  obtain ⟨h₁, h₂⟩ := henv.evaluator rec₁ rec₂
  rw [h₁, h₂]
  exact requireToken (visit hrec henv) _ hctx hnode

theorem placeholders {m n : Node} (hnode : m.Kin S.kin n) :
    S.rel (Option.Rel (TokenOf.Kin S.kin))
      ((Reduce.evaluator env₁ rec₁).tokenOrPlaceholder? m ctx)
      ((Reduce.evaluator env₂ rec₂).tokenOrPlaceholder? n ctx') := by
  obtain ⟨h₁, h₂⟩ := henv.evaluator rec₁ rec₂
  rw [h₁, h₂]
  exact tokenOrPlaceholder? (visit hrec henv) _ hctx hnode

theorem reduceParams {ms ns : List Node} (hparams : List.Forall₂ (Node.Kin S.kin) ms ns) :
    S.rel (Option.Rel (List.Forall₂ (Node.Kin S.kin))) (Reduce.reduceParams env₁ rec₁ ctx ms)
      (Reduce.reduceParams env₂ rec₂ ctx' ns) := by
  induction hparams with
  | nil => exact S.pure (.some .nil)
  | @cons m n _ _ hparam _ ih =>
    refine S.bind (visit hrec henv hparam hctx) fun x y hxy => ?_
    have hnode := hxy.toNode? hparam.origin
    generalize x.toNode? m.origin = p, y.toNode? n.origin = q at hnode ⊢
    cases hnode with
    | none => exact S.pure .none
    | some hnode =>
      refine S.map ih fun ps qs hps => ?_
      cases hps with
      | none => exact .none
      | some hps => exact .some (.cons hnode hps)

theorem reduceCallParams {c d : Call} (hcall : c.Kin S.kin d) :
    S.rel (Option.Rel (Call.Kin S.kin)) (Reduce.reduceCallParams env₁ rec₁ c ctx)
      (Reduce.reduceCallParams env₂ rec₂ d ctx') := by
  refine S.map (reduceParams hrec henv hctx hcall.params) fun ps qs hps => ?_
  cases hps with
  | none => exact .none
  | some hps =>
    exact .some ⟨hcall.function, hcall.calls, hps, hcall.origin.within hctx⟩

omit hrec henv hctx in
/-- A call that is kept is a kin node. -/
theorem ofCall {c d : Call} (hcall : c.Kin S.kin d) :
    (Node.ofCall c).Kin S.kin (Node.ofCall d) := by
  obtain ⟨f, ps, o⟩ := c
  obtain ⟨g, qs, o'⟩ := d
  obtain rfl : f = g := hcall.function
  exact .call hcall.calls hcall.params hcall.origin

omit hrec henv hctx in
theorem ofStatement {c d : Call} (hcall : c.Kin S.kin d) {m n : Node} (hdata : m.Kin S.kin n) :
    (Node.ofStatement c m).Kin S.kin (Node.ofStatement d n) := by
  obtain ⟨f, ps, o⟩ := c
  obtain ⟨g, qs, o'⟩ := d
  obtain rfl : f = g := hcall.function
  exact .statement hcall.calls hcall.params hcall.origin hdata

/-- The node that data reduces to, or an outcome in its place. -/
theorem dataNode {m n : Node} (hdata : m.Kin S.kin n) {f g : Node → Node}
    (hfg : ∀ {m n}, m.Kin S.kin n → (f m).Kin S.kin (g n)) :
    S.rel (Outcome.Kin S.kin)
      (do
        match (← Reduce.visit env₁ rec₁ m ctx).toNode? m.origin with
        | some data => return .value (f data)
        | none => return .pending)
      (do
        match (← Reduce.visit env₂ rec₂ n ctx').toNode? n.origin with
        | some data => return .value (g data)
        | none => return .pending) := by
  refine S.bind (visit hrec henv hdata hctx) fun x y hxy => ?_
  have hnode := hxy.toNode? hdata.origin
  generalize x.toNode? m.origin = p, y.toNode? n.origin = q at hnode ⊢
  cases hnode with
  | none => exact S.pure .pending
  | some hnode => exact S.pure (.value (hfg hnode))

theorem keepCall {c d : Call} (hcall : c.Kin S.kin d) {x y : Option Node}
    (hdata : Option.Rel (Node.Kin S.kin) x y) :
    S.rel (Outcome.Kin S.kin) (Reduce.keepCall env₁ rec₁ c x ctx)
      (Reduce.keepCall env₂ rec₂ d y ctx') := by
  refine S.bind (reduceCallParams hrec henv hctx hcall) fun p q hpq => ?_
  cases hpq with
  | none => exact S.pure .pending
  | some hprocessed =>
    cases hdata with
    | none => exact S.pure (.value (ofCall hprocessed))
    | some hdata => exact dataNode hrec henv hctx hdata (ofStatement hprocessed)

theorem withTrailing {o o' : Outcome} (ho : o.Kin S.kin o') {x y : Option Node}
    (hdata : Option.Rel (Node.Kin S.kin) x y) :
    S.rel (Outcome.Kin S.kin) (Reduce.withTrailing env₁ rec₁ o x ctx)
      (Reduce.withTrailing env₂ rec₂ o' y ctx') := by
  cases hdata with
  | none => exact S.pure ho
  | some hdata =>
    refine S.bind (visit hrec henv hdata hctx) fun t t' ht => ?_
    have hitems := ho.toItems?
    have hmore := ht.toItems?
    generalize o.toItems? = is, o'.toItems? = is', t.toItems? = js, t'.toItems? = js'
      at hitems hmore ⊢
    cases hitems with
    | none => exact S.pure .pending
    | some hitems =>
      cases hmore with
      | none => exact S.pure .pending
      | some hmore => exact S.pure (.ofItems (List.rel_append hitems hmore))

/-! ### Bindings and functions -/

theorem bindCall {c d : Call} (hcall : c.Kin S.kin d) (hset : S.kin.calls setName) :
    S.rel S.kin.contexts (Reduce.bind env₁ rec₁ c ctx) (Reduce.bind env₂ rec₂ d ctx') := by
  have hunbound := S.unbound hset hcall
  have harity : S.rel S.kin.contexts
      (do
        Walk.report c.origin (.invalidArity setName (.exactly 2) c.params.length)
        return ctx)
      (do
        Walk.report d.origin (.invalidArity setName (.exactly 2) d.params.length)
        return ctx') := by
    rw [hcall.params.length_eq]
    exact S.map (S.report hcall.origin _) fun _ _ _ => hctx
  obtain ⟨f, ps, o⟩ := c
  obtain ⟨g, qs, o'⟩ := d
  have hparams : List.Forall₂ (Node.Kin S.kin) ps qs := hcall.params
  unfold Reduce.bind
  cases hparams with
  | nil => exact harity
  | cons hname hparams =>
    cases hparams with
    | nil => exact harity
    | @cons value value' _ _ hvalue hparams =>
      cases hparams with
      | cons _ _ => exact harity
      | nil =>
        refine S.bind (required hrec henv hctx hname) fun key key' hkey => ?_
        cases hkey with
        | ok hkey =>
          refine S.bind (visit hrec henv hvalue hctx) fun x y hxy => ?_
          have hnode := hxy.toNode? hvalue.origin
          generalize x.toNode? value.origin = p, y.toNode? value'.origin = q at hnode ⊢
          cases hnode with
          | none => exact S.bind hunbound fun _ _ _ => S.pure hctx
          | some hnode =>
            rw [hkey.value]
            exact S.map (S.remarkAt _ hcall.origin.location _) fun _ _ _ =>
              S.scope.bind hset hctx hkey hnode
        | error ho =>
          cases ho with
          | pending =>
            exact S.bind_same (S.report hname.origin _) fun _ =>
              S.bind hunbound fun _ _ _ => S.pure hctx
          | value _ => exact S.pure hctx
          | empty => exact S.pure hctx
          | splice _ => exact S.pure hctx

theorem callFunction {f g : Function} (hfg : S.Respects f g)
    (hconsumes : env₁.late = true → f.late = true → late = true) {c d : Call}
    (hcall : c.Kin S.kin d) :
    S.rel (Outcome.Kin S.kin) (Reduce.callFunction env₁ rec₁ f c ctx)
      (Reduce.callFunction env₂ rec₂ g d ctx') := by
  have hparams := reduceCallParams hrec henv hctx hcall
  -- A late function is reduced in the consumption pass alone.
  have hreduce : (f.late = true → late = true) → ∀ {c d : Call}, c.Kin S.kin d →
      S.rel (Outcome.Kin S.kin) (f.reduce (Reduce.evaluator env₁ rec₁) c ctx)
        (g.reduce (Reduce.evaluator env₂ rec₂) d ctx') := by
    intro hlate c d hcall
    obtain ⟨h₁, h₂⟩ := henv.evaluator rec₁ rec₂
    rw [h₁, h₂]
    exact hfg.reduce hlate _ henv.limit (visit hrec henv) hcall hctx
  unfold Reduce.callFunction
  rw [← hfg.sameLate, hcall.function, hcall.origin.location, ← henv.sameLate]
  by_cases hlate : f.late = true
  · rw [if_pos hlate, if_pos hlate]
    by_cases hpass : env₁.late = true
    · rw [if_pos hpass, if_pos hpass]
      exact hreduce (hconsumes hpass) hcall
    · rw [if_neg hpass, if_neg hpass]
      refine S.bind_same (S.remarkAt _ rfl _) fun _ => S.bind hparams fun p q hpq => ?_
      cases hpq with
      | none => exact S.pure .pending
      | some hprocessed => exact S.pure (.value (ofCall hprocessed))
  · rw [if_neg hlate, if_neg hlate]
    refine S.bind hparams fun p q hpq => ?_
    cases hpq with
    | none => exact S.pure .pending
    | some hprocessed =>
      refine S.bind (hreduce (fun h => absurd h hlate) hprocessed) fun x y hxy => ?_
      refine S.ite (by rw [hxy.isPending]) ?_ (S.pure hxy)
      exact S.map (S.remarkAt _ rfl _) fun _ _ _ => .value (ofCall hprocessed)

theorem callNamed {c d : Call} (hcall : c.Kin S.kin d) {x y : Option Node}
    (hdata : Option.Rel (Node.Kin S.kin) x y) :
    S.rel (Outcome.Kin S.kin) (Reduce.callNamed env₁ rec₁ c x ctx)
      (Reduce.callNamed env₂ rec₂ d y ctx') := by
  have hget := henv.functions.get? hcall.calls
  have hconsumes : ∀ f, Registry.get? env₁.registry c.function = some f → env₁.late = true →
      f.late = true → late = true := fun f hf hpass hlate =>
    (henv.consumes hpass).resolve_right fun h => Bool.false_ne_true
      ((h hcall.calls hf).symm.trans hlate)
  have hplace : c.origin.location = d.origin.location := hcall.origin.location
  unfold Reduce.callNamed
  rw [← hcall.function]
  generalize Registry.get? env₁.registry c.function = f,
    Registry.get? env₂.registry c.function = g at hget hconsumes ⊢
  cases hget with
  | none =>
    exact S.bind_same (S.remarkAt _ hplace _) fun _ => keepCall hrec henv hctx hcall hdata
  | some hfg =>
    refine S.bind (callFunction hrec henv hctx hfg (hconsumes _ rfl) hcall) fun o o' ho => ?_
    have htrailing := withTrailing hrec henv hctx ho hdata
    cases hdata with
    | none => exact htrailing
    | some _ =>
      refine S.bind_same ?_ fun _ => htrailing
      unfold Reduce.remarkTrailing
      rw [hcall.function]
      exact S.remarkAt _ hplace _

/-! ### Conditions -/

theorem conditional {c d : Call} (hcall : c.Kin S.kin d) {x y : Option Node}
    (hdata : Option.Rel (Node.Kin S.kin) x y) :
    S.rel (Outcome.Kin S.kin) (Reduce.conditional env₁ rec₁ c x ctx)
      (Reduce.conditional env₂ rec₂ d y ctx') := by
  have hplace : c.origin.location = d.origin.location := hcall.origin.location
  have hkeep := keepCall hrec henv hctx hcall hdata
  have harity : S.rel (Outcome.Kin S.kin)
      (do
        Walk.report c.origin (.invalidArity ifName (.exactly 1) c.params.length)
        return .error c.origin)
      (do
        Walk.report d.origin (.invalidArity ifName (.exactly 1) d.params.length)
        return .error d.origin) := by
    rw [hcall.params.length_eq]
    exact S.map (S.report hcall.origin _) fun _ _ _ => .token hcall.origin.error
  obtain ⟨f, ps, o⟩ := c
  obtain ⟨g, qs, o'⟩ := d
  have hparams : List.Forall₂ (Node.Kin S.kin) ps qs := hcall.params
  unfold Reduce.conditional
  cases hparams with
  | nil => exact harity
  | cons hcondition hparams =>
    cases hparams with
    | cons _ _ => exact harity
    | nil =>
      refine S.bind (required hrec henv hctx hcondition) fun s t hst => ?_
      cases hst with
      | error ho =>
        cases ho with
        | pending =>
          exact S.ite (by rw [henv.sameLate]) (S.pure .pending)
            (S.bind_same (S.remarkAt _ hplace _) fun _ => hkeep)
        | value hn => exact S.pure (.value hn)
        | empty => exact S.pure .empty
        | splice his => exact S.pure (.splice his)
      | ok hst =>
        refine S.ite (by rw [hst.isTrue]) ?_ (S.pure .empty)
        cases hdata with
        | some hdata => exact visit hrec henv hdata hctx
        | none => exact S.map (S.report hcall.origin _) fun _ _ _ => .empty

/-! ### Sequences -/

/-- What an element gives, and the context after it. -/
def Elements (S : Simulation late w₁ w₂) (x y : Option (List Node) × Context) : Prop :=
  Option.Rel (List.Forall₂ (Node.Kin S.kin)) x.1 y.1 ∧ S.kin.contexts x.2 y.2

theorem plainElement {m n : Node} (hnode : m.Kin S.kin n) :
    S.rel S.Elements (Reduce.plainElement env₁ rec₁ ctx m)
      (Reduce.plainElement env₂ rec₂ ctx' n) :=
  S.bind (visit hrec henv hnode hctx) fun _ _ hxy =>
    S.map (orKept henv hxy hnode hctx) fun _ _ h => ⟨h.toItems?, hctx⟩

theorem element {m n : Node} (hnode : m.Kin S.kin n) :
    S.rel S.Elements (Reduce.element env₁ rec₁ ctx m) (Reduce.element env₂ rec₂ ctx' n) := by
  induction m generalizing n ctx ctx' with
  | token t => cases hnode with
    | token ht => exact plainElement hrec henv hctx (.token ht)
  | block es o =>
    obtain ⟨fs, o', rfl, hes, ho⟩ := hnode.block
    exact plainElement hrec henv hctx hnode
  | array is o => cases hnode with
    | array his ho => exact plainElement hrec henv hctx (.array his ho)
  | call f ps o =>
    have hplain := plainElement hrec henv hctx hnode
    cases hnode with
    | @call _ _ qs _ o' hf hps ho =>
      rw [Reduce.element, Reduce.element]
      by_cases hset : f = setName
      · rw [if_pos hset, if_pos hset]
        have hcall : Call.Kin S.kin ⟨f, ps, o⟩ ⟨f, qs, o'⟩ := ⟨rfl, hf, hps, ho⟩
        exact S.map (bindCall hrec henv hctx hcall (hset ▸ hf)) fun _ _ h => ⟨.some .nil, h⟩
      · rw [if_neg hset, if_neg hset]
        exact hplain
  | statement f ps o data _ ihdata =>
    have hplain := plainElement hrec henv hctx hnode
    cases hnode with
    | @statement _ _ qs _ o' _ data' hf hps ho hdata =>
      have hcall : Call.Kin S.kin ⟨f, ps, o⟩ ⟨f, qs, o'⟩ := ⟨rfl, hf, hps, ho⟩
      rw [Reduce.element_statement, Reduce.element_statement]
      by_cases hset : f = setName
      · rw [if_pos hset, if_pos hset]
        exact S.bind (bindCall hrec henv hctx hcall (hset ▸ hf)) fun _ _ h => ihdata h hdata
      · rw [if_neg hset, if_neg hset]
        -- A call of a function or an include leaves its data to be the next element.
        refine S.ite (by rw [henv.takesNoData]) ?_ hplain
        have hnext : S.rel S.Elements
            (Reduce.elementAnd env₁ rec₁ ctx (.call f ps o) (Reduce.element env₁ rec₁ ctx data))
            (Reduce.elementAnd env₂ rec₂ ctx' (.call f qs o')
              (Reduce.element env₂ rec₂ ctx' data')) := by
          have hcalled : (Node.call f ps o).Kin S.kin (.call f qs o') := .call hf hps ho
          refine S.bind (hrec henv hcalled hctx) fun x y hxy =>
            S.bind (orKept henv hxy hcalled hctx) fun x y hxy => ?_
          have hitems := hxy.toItems?
          generalize x.toItems? = is, y.toItems? = js at hitems ⊢
          cases hitems with
          | none => exact S.pure ⟨.none, hctx⟩
          | some hitems =>
            refine S.map (ihdata hctx hdata) fun a b hab => ⟨?_, hab.2⟩
            obtain ⟨more, c⟩ := a
            obtain ⟨more', c'⟩ := b
            have hmore : Option.Rel (List.Forall₂ (Node.Kin S.kin)) more more' := hab.1
            cases hmore with
            | none => exact .none
            | some hmore => exact .some (List.rel_append hitems hmore)
        refine S.ite .rfl (S.bind_same (S.remarkAt _ ho.location _) fun _ => hnext) hnext

theorem elements {ms ns : List Node} (hnodes : List.Forall₂ (Node.Kin S.kin) ms ns) :
    S.rel (Option.Rel (List.Forall₂ (Node.Kin S.kin))) (Reduce.elements env₁ rec₁ ctx ms)
      (Reduce.elements env₂ rec₂ ctx' ns) := by
  induction hnodes generalizing ctx ctx' with
  | nil => exact S.pure (.some .nil)
  | cons hnode _ ih =>
    refine S.bind (element hrec henv hctx hnode) fun x y hxy => ?_
    obtain ⟨items, c⟩ := x
    obtain ⟨items', c'⟩ := y
    have hfound : Option.Rel (List.Forall₂ (Node.Kin S.kin)) items items' := hxy.1
    cases hfound with
    | none => exact S.pure .none
    | some hitems =>
      refine S.map (ih hxy.2) fun more more' hmore => ?_
      cases hmore with
      | none => exact .none
      | some hmore => exact .some (List.rel_append hitems hmore)

theorem entries {es fs : List (Token × Node)} (hes : List.Forall₂ S.kin.Entry es fs) :
    S.rel (Option.Rel (List.Forall₂ S.kin.Entry)) (Reduce.entries env₁ rec₁ ctx es)
      (Reduce.entries env₂ rec₂ ctx' fs) := by
  induction hes with
  | nil => exact S.pure (.some .nil)
  | @cons e f _ _ he _ ih =>
    obtain ⟨k, m⟩ := e
    obtain ⟨l, n⟩ := f
    have hkey : k.Kin S.kin l := he.1
    have hnode : m.Kin S.kin n := he.2
    have hmore : ∀ {m n : Node}, m.Kin S.kin n →
        S.rel (Option.Rel (List.Forall₂ S.kin.Entry)) _ _ := fun {m n} hmn =>
      S.map (f := fun r => r.map ((k, m) :: ·)) (g := fun r => r.map ((l, n) :: ·)) ih
        fun r r' hr => by
          cases hr with
          | none => exact .none
          | some hr => exact .some (.cons ⟨hkey, hmn⟩ hr)
    refine S.bind (visit hrec henv hnode hctx) fun x y hxy =>
      S.bind (orKept henv hxy hnode hctx) fun x y hxy => ?_
    cases hxy with
    | value h => exact hmore h
    | empty => exact ih
    | splice his => exact hmore (.array his hnode.origin)
    | pending => exact S.pure .none

/-! ### Includes -/

theorem overrides {c d : Call} (hcall : c.Kin S.kin d) {ms ns : List Node}
    (hparams : List.Forall₂ (Node.Kin S.kin) ms ns) :
    S.rel (S.kin.Given (List.Forall₂ S.kin.Entry)) (Reduce.overrides env₁ rec₁ c ctx ms)
      (Reduce.overrides env₂ rec₂ d ctx' ns) := by
  cases hparams with
  | nil => exact S.pure (.ok .nil)
  | @cons m n _ _ hparam _ =>
    have hwrong : ∀ found, S.rel (S.kin.Given (List.Forall₂ S.kin.Entry))
        (do return .error (← Reduce.overrides.wrong c m found))
        (do return .error (← Reduce.overrides.wrong d n found)) := fun found =>
      S.map (S.map (Q := Outcome.Kin S.kin) (S.report hparam.origin _) fun _ _ _ =>
        .token hcall.origin.error) fun _ _ h => .error h
    have hnull : ∀ {m' n' : Node}, m'.Kin S.kin n' → S.rel (S.kin.Given (List.Forall₂ S.kin.Entry))
        (if m'.isNull then Pure.pure (.ok []) else do
          return .error (← Reduce.overrides.wrong c m m'.kind))
        (if n'.isNull then Pure.pure (.ok []) else do
          return .error (← Reduce.overrides.wrong d n n'.kind)) := by
      intro m' n' h
      rw [h.isNull, h.kind]
      exact S.ite .rfl (S.pure (.ok .nil)) (hwrong _)
    refine S.bind (visit hrec henv hparam hctx) fun x y hxy => ?_
    cases hxy with
    | pending =>
      refine S.ite (by rw [henv.sameLate]) (S.pure (.error .pending)) ?_
      exact S.map (keepCall hrec henv hctx hcall .none) fun _ _ h => .error h
    | empty => exact hwrong .nothing
    | splice _ => exact hwrong .array
    | value hfound =>
      have hother := hnull hfound
      cases hfound with
      | columns hkeys hvalues _ => exact S.pure (.ok (forall₂_rows.mpr ⟨hkeys, hvalues⟩))
      | token _ => exact hother
      | call _ _ _ => exact hother
      | statement _ _ _ _ => exact hother
      | array _ _ => exact hother

omit hrec henv hctx in
theorem spliced {ms ns : List Node} (h : List.Forall₂ (Node.Kin S.kin) ms ns) :
    (Reduce.spliced ms).Kin S.kin (Reduce.spliced ns) := by
  have hitems := Outcome.Kin.ofItems h
  cases h with
  | nil => exact hitems
  | cons hn hns =>
    cases hns with
    | cons hn' hns => cases hn <;> exact hitems
    | nil =>
      cases hn with
      | array his _ => exact .splice his
      | _ => exact hitems

theorem includeText {c d : Call} (hcall : c.Kin S.kin d) (hinclude : S.kin.calls includeName)
    (file text : String) :
    S.rel (Outcome.Kin S.kin) (Reduce.includeText env₁ rec₁ c file text ctx)
      (Reduce.includeText env₂ rec₂ d file text ctx') := by
  unfold Reduce.includeText
  rw [henv.uniqueId, hcall.origin.uid]
  -- A file is read alike in both runs.
  have hwritten : ∀ ns : List Node, List.Forall₂ (Node.Kin S.kin) ns ns := fun ns =>
    List.forall₂_same.mpr fun n _ => S.scope.written hinclude n
  refine S.bind_same (S.remarkAt _ hcall.origin.location _) fun _ =>
    S.bind_same (S.leave _) fun _ =>
      S.bind (elements hrec (henv.within file) hctx (hwritten _)) fun x y hxy => ?_
  cases hxy with
  | none => exact S.pure .pending
  | some hitems => exact S.pure (spliced hitems)

theorem includeFile {c d : Call} (hcall : c.Kin S.kin d) (hinclude : S.kin.calls includeName)
    (file : String) :
    S.rel (Outcome.Kin S.kin) (Reduce.includeFile env₁ rec₁ c file ctx)
      (Reduce.includeFile env₂ rec₂ d file ctx') := by
  unfold Reduce.includeFile
  rw [henv.files, henv.maxIncludeDepth, henv.host₁, henv.host₂]
  refine S.ite .rfl (notIncluded hcall _) (S.ite .rfl (notIncluded hcall _)
    (S.bind_same (S.askFile file) fun text => ?_))
  cases text with
  | none => exact notIncluded hcall _
  | some text => exact includeText hrec henv hctx hcall hinclude file text

theorem includeCall {c d : Call} (hcall : c.Kin S.kin d) (hinclude : S.kin.calls includeName) :
    S.rel (Outcome.Kin S.kin) (Reduce.includeCall env₁ rec₁ c ctx)
      (Reduce.includeCall env₂ rec₂ d ctx') := by
  have hkeep := keepCall hrec henv hctx hcall .none
  have hnone := notIncluded hcall
  have hfile := fun {es fs : List (Token × Node)} (hes : List.Forall₂ S.kin.Entry es fs) =>
    includeFile hrec henv (S.scope.overlay hinclude hctx hes) hcall hinclude
  have hbindings := fun {ms ns} (h : List.Forall₂ (Node.Kin S.kin) ms ns) =>
    overrides hrec henv hctx hcall h
  have hplace : c.origin.location = d.origin.location := hcall.origin.location
  obtain ⟨f, ps, o⟩ := c
  obtain ⟨g, qs, o'⟩ := d
  have hparams : List.Forall₂ (Node.Kin S.kin) ps qs := hcall.params
  unfold Reduce.includeCall
  cases hparams with
  | nil => exact hnone _
  | cons hpath hothers =>
    dsimp only
    rw [List.length_cons, List.length_cons, hothers.length_eq]
    refine S.ite .rfl (hnone _) (S.bind (required hrec henv hctx hpath) fun s t hst => ?_)
    cases hst with
    | error ho =>
      cases ho with
      | pending =>
        exact S.ite (by rw [henv.sameLate]) (S.pure .pending)
          (S.bind_same (S.remarkAt _ hplace _) fun _ => hkeep)
      | value hn => exact S.pure (.value hn)
      | empty => exact S.pure .empty
      | splice his => exact S.pure (.splice his)
    | ok hst =>
      refine S.bind (hbindings hothers) fun x y hxy => ?_
      cases hxy with
      | error ho => exact S.pure ho
      | ok hes =>
        rw [hst.value, hplace]
        exact hfile hes _

/-! ### One node -/

theorem call {c d : Call} (hcall : c.Kin S.kin d) {x y : Option Node}
    (hdata : Option.Rel (Node.Kin S.kin) x y) :
    S.rel (Outcome.Kin S.kin) (Reduce.call env₁ rec₁ c x ctx)
      (Reduce.call env₂ rec₂ d y ctx') := by
  have hcalls := hcall.calls
  have hnamed := callNamed hrec henv hctx hcall hdata
  unfold Reduce.call
  rw [← hcall.function]
  by_cases hinclude : c.function = includeName
  · rw [if_pos hinclude, if_pos hinclude]
    exact S.bind (includeCall hrec henv hctx hcall (hinclude ▸ hcalls)) fun _ _ h =>
      withTrailing hrec henv hctx h hdata
  · rw [if_neg hinclude, if_neg hinclude]
    refine S.ite .rfl (conditional hrec henv hctx hcall hdata) ?_
    by_cases hset : c.function = setName
    · rw [if_pos hset, if_pos hset]
      refine S.bind (bindCall hrec henv hctx hcall (hset ▸ hcalls)) fun _ _ hctx => ?_
      cases hdata with
      | none => exact S.pure .empty
      | some hdata => exact visit hrec henv hdata hctx
    · rw [if_neg hset, if_neg hset]
      exact hnamed

end

variable {rec₁ rec₂ : Reducer}

/-- **One step respects a simulation**, if the steps within do. -/
theorem step (hrec : S.Recursors rec₁ rec₂) :
    S.Recursors (Reduce.step rec₁) (Reduce.step rec₂) := by
  intro env₁ env₂ henv m n c d hnode hctx
  cases m with
  | token t => cases hnode with
    | token ht => exact S.pure (.token (ht.within hctx))
  | array is o => cases hnode with
    | array his ho =>
      refine S.bind (elements hrec henv hctx his) fun x y hxy => ?_
      cases hxy with
      | none => exact S.pure .pending
      | some hitems => exact S.pure (.value (.array hitems (ho.within hctx)))
  | block es o =>
    obtain ⟨fs, o', rfl, hes, ho⟩ := hnode.block
    refine S.bind (entries hrec henv hctx hes) fun x y hxy => ?_
    cases hxy with
    | none => exact S.pure .pending
    | some hfs => exact S.pure (.value (Node.kin_block hfs (ho.within hctx)))
  | call f ps o => cases hnode with
    | @call _ _ qs _ o' hf hps ho =>
      have hcall : Call.Kin S.kin ⟨f, ps, o⟩ ⟨f, qs, o'⟩ := ⟨rfl, hf, hps, ho⟩
      exact call hrec henv hctx hcall .none
  | statement f ps o data => cases hnode with
    | @statement _ _ qs _ o' _ _ hf hps ho hdata =>
      have hcall : Call.Kin S.kin ⟨f, ps, o⟩ ⟨f, qs, o'⟩ := ⟨rfl, hf, hps, ho⟩
      exact call hrec henv hctx hcall (.some hdata)

/-- **Reduction respects a simulation**, however deep it may be nested. -/
theorem inContext {k l : Nat} (hkl : S.Within k l) :
    S.Recursors (Reduce.inContext k) (Reduce.inContext l) := by
  induction k generalizing l with
  | zero =>
    intro env₁ env₂ _ m n c d _ _
    exact S.spent hkl (fun l => Reduce.inContext l env₂ n d) rfl
  | succ k ih =>
    obtain ⟨l, rfl, hless⟩ := S.within_succ hkl
    exact S.step (ih hless)

/-- The reductions of two nodes that are kin. -/
theorem reduce {env₁ env₂ : Surroundings} (henv : S.Fits env₁ env₂) :
    S.Agree (ContentLang.reduce env₁) (ContentLang.reduce env₂) :=
  visit (S.inContext henv.limit) henv

end Simulation

end ContentLang
