import ContentLang.Node.Assembly
import ContentLang.Registry

/-!
# Reduction

The walk over a tree that reduces nodes to their values. One walk serves both passes:

* the **loading pass** puts included files in place, decides conditions, follows bindings
  and reduces calls of functions. Late calls stay in the tree, with their parameters
  reduced, and so does every call that cannot go on before one of them;
* the **consumption pass** reduces what is left.

In the consumption pass a node that was annotated while loading uses the bindings it
captured then (`ContentLang.Reduce.visit`). What is not ready is kept as it stands while
loading, and makes the result pending in consumption.

`ContentLang.Reduce.step` reduces one node, given a way to reduce others; it does not
recurse into the tree by itself. `ContentLang.Reduce.inContext` ties the knot for walks
that are nested no deeper than a limit and gives up beyond it. Two walks are therefore
compared by comparing their steps.
-/

namespace ContentLang

/-- What a walk is carried out in. -/
structure Surroundings where
  registry : Registry
  host : Host
  settings : Settings
  /-- Whether late calls are reduced too. -/
  late : Bool
  /-- The files that are being processed, outermost first. -/
  files : List String
  /-- How often a function may repeat something. -/
  limit : Nat

/-- A way to reduce a node within just the given context. -/
abbrev Reducer := Surroundings → Node → Context → Walk Outcome

/-- The surroundings within one more file. -/
def Surroundings.within (env : Surroundings) (file : String) : Surroundings :=
  { env with files := env.files ++ [file] }

namespace Reduce

/-- The context that a node is reduced in: the one it captured while loading, if there
is one and the node is consumed. -/
def contextOf (env : Surroundings) (node : Node) (ctx : Context) : Context :=
  if env.late && !node.origin.context.isEmpty then node.origin.context else ctx

/-- **Reduces a node**, in the context it captured or else in the one given. -/
def visit (env : Surroundings) (rec : Reducer) (node : Node) (ctx : Context) : Walk Outcome :=
  rec env node (contextOf env node ctx)

/-- What a function may do. -/
def evaluator (env : Surroundings) (rec : Reducer) : Evaluator where
  reduce := visit env rec
  late := env.late
  isKnown := Registry.isKnown env.registry
  knownNames := Registry.names env.registry ++ constructs
  host := env.host
  settings := env.settings
  limit := env.limit

/-! ### What is kept -/

/-- A node that is not ready, as it stays in the tree. -/
def keep (node : Node) (ctx : Context) : Walk Node := do
  Walk.remarkAt .debug node.location "not ready, kept for consumption"
  return node.withContext ctx

/-- While loading, a pending node is kept so that its siblings are still processed. -/
def orKept (env : Surroundings) (outcome : Outcome) (node : Node) (ctx : Context) :
    Walk Outcome :=
  if outcome.isPending && !env.late then return .value (← keep node ctx) else return outcome

/-! ### Parameters -/

/-- The nodes that parameters reduce to, unless one is pending; what reduces to nothing
becomes null. -/
def reduceParams (env : Surroundings) (rec : Reducer) (ctx : Context) :
    List Node → Walk (Option (List Node))
  | [] => return some []
  | p :: ps => do
    match (← visit env rec p ctx).toNode? p.origin with
    | none => return none
    | some n => return (← reduceParams env rec ctx ps).map (n :: ·)

/-- A call with its parameters reduced, in the context it is reduced in. -/
def reduceCallParams (env : Surroundings) (rec : Reducer) (call : Call) (ctx : Context) :
    Walk (Option Call) := do
  let params ← reduceParams env rec ctx call.params
  return params.map fun ps => ⟨call.function, ps, { call.origin with context := ctx }⟩

/-- Keeps a call in the tree, with its parameters and its data reduced. -/
def keepCall (env : Surroundings) (rec : Reducer) (call : Call) (data : Option Node)
    (ctx : Context) : Walk Outcome := do
  match ← reduceCallParams env rec call ctx with
  | none => return .pending
  | some processed =>
    match data with
    | none => return .value (.ofCall processed)
    | some data =>
      match (← visit env rec data ctx).toNode? data.origin with
      | some data => return .value (.ofStatement processed data)
      | none => return .pending

/-- Puts the outcome of data that follows a call behind the outcome of the call. -/
def withTrailing (env : Surroundings) (rec : Reducer) (outcome : Outcome) (data : Option Node)
    (ctx : Context) : Walk Outcome := do
  match data with
  | none => return outcome
  | some data =>
    let trailing ← visit env rec data ctx
    match outcome.toItems?, trailing.toItems? with
    | some items, some more => return .ofItems (items ++ more)
    | _, _ => return .pending

/-! ### Bindings -/

/-- The context after a binding. A name that depends on a late call is a problem; a
value that is pending binds nothing. Either way the walk goes on without the binding, and
notes that it does. -/
def bind (env : Surroundings) (rec : Reducer) (call : Call) (ctx : Context) : Walk Context := do
  match call.params with
  | [name, value] =>
    match ← (evaluator env rec).requireToken name ctx with
    | .error .pending =>
      Walk.report name.origin (.invalidArgument setName .lateName)
      Walk.leave [.unbound call]
      return ctx
    | .error _ => return ctx
    | .ok key =>
      match (← visit env rec value ctx).toNode? value.origin with
      | none =>
        Walk.leave [.unbound call]
        return ctx
      | some value =>
        Walk.remarkAt .trace call.origin.location ("binding context value `" ++ key.value ++ "`")
        return Context.bind ctx key value
  | _ =>
    Walk.report call.origin (.invalidArity setName (.exactly 2) call.params.length)
    return ctx

/-! ### Functions -/

/-- Remarks on data after a call that takes none. -/
def remarkTrailing (call : Call) : Walk Unit :=
  Walk.remarkAt .warn call.origin.location
    ("data after `" ++ call.function ++ "` is read as the next element")

/-- The outcome of a call of a function, its data aside. -/
def callFunction (env : Surroundings) (rec : Reducer) (function : Function) (call : Call)
    (ctx : Context) : Walk Outcome := do
  if function.late then
    if env.late then function.reduce (evaluator env rec) call ctx
    else
      Walk.remarkAt .trace call.origin.location
        ("deferring late call `" ++ call.function ++ "`")
      match ← reduceCallParams env rec call ctx with
      | some processed => return .value (.ofCall processed)
      | none => return .pending
  else
    match ← reduceCallParams env rec call ctx with
    | none => return .pending
    | some processed =>
      let outcome ← function.reduce (evaluator env rec) processed ctx
      if outcome.isPending && !env.late then
        Walk.remarkAt .trace call.origin.location
          ("`" ++ call.function ++ "` is waiting on late calls")
        return .value (.ofCall processed)
      else return outcome

/-- A call of what may be a function. Unknown calls stay as they are, whatever is done
to their parameters. -/
def callNamed (env : Surroundings) (rec : Reducer) (call : Call) (data : Option Node)
    (ctx : Context) : Walk Outcome := do
  match Registry.get? env.registry call.function with
  | none =>
    Walk.remarkAt .debug call.origin.location
      ("leaving unknown function `" ++ call.function ++ "` untouched")
    keepCall env rec call data ctx
  | some function =>
    let outcome ← callFunction env rec function call ctx
    if data.isSome then remarkTrailing call
    withTrailing env rec outcome data ctx

/-! ### Conditions -/

/-- The outcome of a condition and its data. -/
def conditional (env : Surroundings) (rec : Reducer) (call : Call) (data : Option Node)
    (ctx : Context) : Walk Outcome := do
  match call.params with
  | [condition] =>
    match ← (evaluator env rec).requireToken condition ctx with
    | .error .pending =>
      if env.late then return .pending
      else
        Walk.remarkAt .trace call.origin.location
          ("condition not ready, keeping `" ++ ifName ++ "`")
        keepCall env rec call data ctx
    | .error outcome => return outcome
    | .ok condition =>
      if condition.isTrue then
        match data with
        | some data => visit env rec data ctx
        | none =>
          Walk.report call.origin (.invalidArgument ifName .missingData)
          return .empty
      else return .empty
  | _ =>
    Walk.report call.origin (.invalidArity ifName (.exactly 1) call.params.length)
    return .error call.origin

/-! ### Sequences -/

/-- Whether data after a call is the next element of a sequence. -/
def takesNoData (env : Surroundings) (function : String) : Bool :=
  function = includeName || Registry.contains env.registry function

/-- The nodes that an element gives which changes no context. -/
def plainElement (env : Surroundings) (rec : Reducer) (ctx : Context) (node : Node) :
    Walk (Option (List Node) × Context) := do
  let outcome ← orKept env (← visit env rec node ctx) node ctx
  return (outcome.toItems?, ctx)

/-- **The nodes that one element of a sequence gives**, unless it is pending, and the
context after it. Data after a binding, an include or a call of a function is the next
element. -/
def element (env : Surroundings) (rec : Reducer) (ctx : Context) :
    Node → Walk (Option (List Node) × Context)
  | .call f ps o => do
    if f = setName then return (some [], ← bind env rec ⟨f, ps, o⟩ ctx)
    else plainElement env rec ctx (.call f ps o)
  | .statement f ps o data => do
    if f = setName then
      let ctx ← bind env rec ⟨f, ps, o⟩ ctx
      element env rec ctx data
    else if takesNoData env f then
      if f ≠ includeName then remarkTrailing ⟨f, ps, o⟩
      let outcome ← orKept env (← rec env (.call f ps o) ctx) (.call f ps o) ctx
      match outcome.toItems? with
      | none => return (none, ctx)
      | some items =>
        let (more, ctx) ← element env rec ctx data
        return (more.map (items ++ ·), ctx)
    else plainElement env rec ctx (.statement f ps o data)
  | node => plainElement env rec ctx node

/-- The nodes that the elements of a sequence give, unless one is pending. A binding
holds for everything after it. -/
def elements (env : Surroundings) (rec : Reducer) :
    Context → List Node → Walk (Option (List Node))
  | _, [] => return some []
  | ctx, n :: ns => do
    match ← element env rec ctx n with
    | (none, _) => return none
    | (some items, ctx) => return (← elements env rec ctx ns).map (items ++ ·)

/-- The entries that those of a block give, unless one is pending. What gives nothing
is left out; several nodes become an array. -/
def entries (env : Surroundings) (rec : Reducer) (ctx : Context) :
    List (Token × Node) → Walk (Option (List (Token × Node)))
  | [] => return some []
  | (k, n) :: es => do
    match ← orKept env (← visit env rec n ctx) n ctx with
    | .value m => return (← entries env rec ctx es).map ((k, m) :: ·)
    | .empty => entries env rec ctx es
    | .splice items => return (← entries env rec ctx es).map ((k, .array items n.origin) :: ·)
    | .pending => return none

/-! ### Includes -/

/-- The bindings that a file is included with, unless there is an outcome at once. -/
def overrides (env : Surroundings) (rec : Reducer) (call : Call) (ctx : Context) :
    List Node → Walk (Except Outcome (List (Token × Node)))
  | [] => return .ok []
  | param :: _ => do
    match ← visit env rec param ctx with
    | .value (.block es _) => return .ok es
    | .pending =>
      if env.late then return .error .pending
      else return .error (← keepCall env rec call none ctx)
    | .value node =>
      if node.isNull then return .ok [] else return .error (← wrong param node.kind)
    | .empty => return .error (← wrong param .nothing)
    | .splice _ => return .error (← wrong param .array)
where
  /-- Reports overrides that are no block. -/
  wrong (param : Node) (found : Kind) : Walk Outcome := do
    Walk.report param.origin (.invalidArgument includeName (.overridesNotABlock found))
    return .error call.origin

/-- The outcome that puts the elements of a file in place of the call: those of its only
array, if it is one, or its own. -/
def spliced : List Node → Outcome
  | [.array items _] => .splice items
  | items => .ofItems items

/-- Puts the elements of a file in place of a call. Identities in the file are marked
with that of the call, so that a file may be included more than once. -/
def includeText (env : Surroundings) (rec : Reducer)
    (call : Call) (file text : String) (ctx : Context) : Walk Outcome := do
  Walk.remarkAt .trace call.origin.location ("including " ++ file)
  let (items, diagnostics) := parseText text file env.settings.uniqueId
  Walk.reportAll diagnostics
  let items := Node.markUids (call.origin.uid ++ ">") items
  match ← elements (env.within file) rec ctx items with
  | none => return .pending
  | some items => return spliced items

/-- Reports why a file is not included; null takes its place. -/
def notIncluded (call : Call) (problem : Problem) : Walk Outcome := do
  Walk.report call.origin problem
  return .null call.origin

/-- Includes a file that the path is resolved to, unless it is being processed already,
too deep, or not there. -/
def includeFile (env : Surroundings) (rec : Reducer)
    (call : Call) (file : String) (ctx : Context) : Walk Outcome := do
  if env.files.contains file then notIncluded call (.includeCycle (env.files ++ [file]))
  else if env.settings.maxIncludeDepth < env.files.length then
    notIncluded call (.includeDepth env.settings.maxIncludeDepth)
  else
    match ← Walk.askFile env.host file with
    | none => notIncluded call (.includeNotFound file)
    | some text => includeText env rec call file text ctx

/-- The outcome of an include. -/
def includeCall (env : Surroundings) (rec : Reducer)
    (call : Call) (ctx : Context) : Walk Outcome := do
  let arity := Arity.either 1 2
  match call.params with
  | [] => notIncluded call (.invalidArity includeName arity 0)
  | path :: others =>
    if !arity.accepts call.params.length then
      notIncluded call (.invalidArity includeName arity call.params.length)
    else
      match ← (evaluator env rec).requireToken path ctx with
      | .error .pending =>
        if env.late then return .pending
        else
          Walk.remarkAt .trace call.origin.location
            ("path not ready, keeping `" ++ includeName ++ "`")
          keepCall env rec call none ctx
      | .error outcome => return outcome
      | .ok path =>
        match ← overrides env rec call ctx others with
        | .error outcome => return outcome
        | .ok bindings =>
          let file := Path.resolve call.origin.location.file path.value
          includeFile env rec call file (Context.overlay ctx bindings)

/-! ### One node -/

/-- The outcome of a call with or without data. -/
def call (env : Surroundings) (rec : Reducer) (c : Call) (data : Option Node) (ctx : Context) :
    Walk Outcome := do
  if c.function = includeName then
    let outcome ← includeCall env rec c ctx
    withTrailing env rec outcome data ctx
  else if c.function = ifName then conditional env rec c data ctx
  else if c.function = setName then
    let ctx ← bind env rec c ctx
    match data with
    | some data => visit env rec data ctx
    | none => return .empty
  else callNamed env rec c data ctx

/-- **The outcome of a node**, given a way to reduce others. -/
def step (rec : Reducer) : Reducer := fun env node ctx => do
  match node with
  | .token t => return .value (.token { t with origin := { t.origin with context := ctx } })
  | .array is o =>
    match ← elements env rec ctx is with
    | some items => return .value (.array items { o with context := ctx })
    | none => return .pending
  | .block es o =>
    match ← entries env rec ctx es with
    | some entries => return .value (.block entries { o with context := ctx })
    | none => return .pending
  | .call f ps o => call env rec ⟨f, ps, o⟩ none ctx
  | .statement f ps o data => call env rec ⟨f, ps, o⟩ (some data) ctx

/-! ### Any depth -/

/-- **The outcome of a node in a context**, in a walk that is nested no deeper than a
limit. -/
def inContext : Nat → Reducer
  | 0 => fun _ _ _ => Walk.halt .exhausted
  | n + 1 => step (inContext n)

end Reduce

/-- **Reduces a node**, as deep as the surroundings allow. -/
def reduce (env : Surroundings) (node : Node) (ctx : Context) : Walk Outcome :=
  Reduce.visit env (Reduce.inContext env.limit) node ctx

end ContentLang
