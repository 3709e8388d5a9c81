import ContentLang.Reduce

/-!
# Engines

An engine loads content files and consumes what they hold. Loading reads a text into a
tree (`ContentLang.Loaded.source`) and carries out the loading pass on it; what comes out
is the root of the loaded file. Any part of it can be consumed, as often as one likes.

| operation | what it does |
|---|---|
| `ContentLang.Engine.loadText` | forgets what functions remember, reads a text, processes it |
| `ContentLang.Engine.refresh` | processes the tree of a loaded file once more |
| `ContentLang.Engine.wouldChange` | whether some function of a loaded file would now give something else |
| `ContentLang.Engine.reduceNode` | reduces a part of the tree in either pass |

Loading and refreshing are one operation, `ContentLang.Engine.process`, on a file whose
diagnostics are those of its text. Each operation gives a reply: an answer, unless it had
to be given up, the engine afterwards, and the notes that were left.
-/

namespace ContentLang

/-- A content file after the loading pass. -/
structure Loaded where
  /-- Its path from the content root. -/
  file : String
  /-- The tree as it was read. -/
  source : Node
  /-- The tree after the loading pass. -/
  root : Node
  diagnostics : List Diagnostic

/-- The elements of a loaded file. -/
def Loaded.items (l : Loaded) : List Node := l.root.items?.getD [l.root]

/-- An engine. -/
structure Engine where
  settings : Settings
  host : Host
  registry : Registry
  /-- What reductions go on from: the engine's generator and what functions remember. -/
  state : WalkState
  /-- The diagnostics of consumption that nobody has taken yet. -/
  diagnostics : List Diagnostic
  /-- How deep a walk may be nested. -/
  limit : Nat

/-- What an operation gives. -/
structure Reply (α : Type) where
  answer : Except Halt α
  engine : Engine
  notes : List Note

namespace Engine

/-- Deeper than any walk that ends is nested. -/
def standardLimit : Nat := 1000000000000

/-- **A new engine**, with the functions of the language. The seed given here counts if
the settings name none. -/
def start (settings : Settings) (host : Host) (otherwise : UInt64) : Engine where
  settings := settings
  host := host
  registry := .builtin
  state := ⟨.standard (settings.seed.getD otherwise), []⟩
  diagnostics := []
  limit := standardLimit

/-- What a walk that starts in a file is carried out in. -/
def surroundings (e : Engine) (late : Bool) (file : String) : Surroundings where
  registry := e.registry
  host := e.host
  settings := e.settings
  late := late
  files := [Path.normalize file]
  limit := e.limit

/-- Carries out a walk. The diagnostics are left to the caller. -/
def carryOut {α : Type} (e : Engine) (walk : Walk α) : Reply α :=
  let walked := walk e.state
  ⟨walked.answer, { e with state := walked.state }, walked.notes⟩

/-! ### Loading -/

/-- The loading pass over a tree. What does not become a node is left as it was. -/
def processed (e : Engine) (file : String) (source : Node) : Walk Node := do
  let outcome ← reduce (e.surroundings false file) source .empty
  return (outcome.toNode? source.origin).getD source

/-- **Carries out the loading pass on the tree of a file.** Of the file's diagnostics
those about texts are kept, and those of the pass come after them. -/
def process (e : Engine) (l : Loaded) : Reply Loaded :=
  let reply := e.carryOut (e.processed l.file l.source)
  let kept := l.diagnostics.filter (·.problem.isTextual)
  let loaded (root : Node) : Loaded :=
    { l with root, diagnostics := kept ++ reply.notes.filterMap Note.diagnostic? }
  ⟨reply.answer.map loaded, reply.engine, reply.notes⟩

/-- A remark before everything else that a reply notes. -/
def remarking {α : Type} (level : Level) (text : String) (r : Reply α) : Reply α :=
  { r with notes := .remark ⟨level, text⟩ :: r.notes }

/-- The engine after its functions forgot everything. -/
def forgetful (e : Engine) : Engine := { e with state := { e.state with memory := [] } }

/-- A text as it was read, before the loading pass. -/
def read (e : Engine) (text file : String) : Loaded :=
  let (items, diagnostics) := parseText text file e.settings.uniqueId
  let source := rootOf file items
  ⟨file, source, source, diagnostics⟩

/-- **Loads a text** as the content of a file. -/
def loadText (e : Engine) (text file : String) : Reply Loaded :=
  remarking .debug "clearing function caches" (e.forgetful.process (e.read text file))

/-- Loads a file from its path. -/
def loadFile (e : Engine) (path : String) : Reply (Except Failure Loaded) :=
  let file := Path.normalize path
  let asked := Walk.questionNotes e.host (.file file)
  remarking .info ("loading content file: " ++ file) <|
    match e.host.fileText file with
    | none => ⟨.ok (.error (.fileNotFound file)), e, asked⟩
    | some text =>
      let reply := e.loadText text file
      ⟨reply.answer.map .ok, reply.engine, asked ++ reply.notes⟩

/-- **Carries out the loading pass once more**, without reading the text again. -/
def refresh (e : Engine) (l : Loaded) : Reply Loaded :=
  remarking .debug ("refreshing " ++ l.file) (e.process l)

/-! ### Looking ahead -/

/-- Whether the result of a call would be another one now. -/
def callWouldChange (e : Engine) (call : Call) : Bool × List Note :=
  match Registry.get? e.registry call.function with
  | some function => function.wouldChange e.host e.state.memory call
  | none => (false, [])

/-- Whether the result of some call would be another one now; the first one decides. -/
def anyWouldChange (e : Engine) : List Call → Bool × List Note
  | [] => (false, [])
  | call :: calls =>
    match e.callWouldChange call with
    | (true, notes) => (true, notes)
    | (false, notes) =>
      let (answer, more) := e.anyWouldChange calls
      (answer, notes ++ more)

/-- **Whether some function in a loaded file would now give something else** than it
gave when it was reduced last. -/
def wouldChange (e : Engine) (l : Loaded) : Bool × List Note := e.anyWouldChange l.root.calls

/-! ### Consuming -/

/-- Carries out a walk, keeping its diagnostics until they are taken. -/
def consume {α : Type} (e : Engine) (walk : Walk α) : Reply α :=
  let reply := e.carryOut walk
  let engine := reply.engine
  let diagnostics := engine.diagnostics ++ reply.notes.filterMap Note.diagnostic?
  ⟨reply.answer, { engine with diagnostics }, reply.notes⟩

/-- Reduces a part of a tree, in the bindings visible there. -/
def reduceNode (e : Engine) (late : Bool) (node : Node) : Reply Outcome :=
  e.consume (reduce (e.surroundings late node.location.file) node node.origin.context)

/-- **Consumes a node**: the node it comes to, if that is known yet. -/
def resolve (e : Engine) (node : Node) : Reply (Option Node) :=
  let reply := e.reduceNode true node
  ⟨reply.answer.map (·.toNode? node.origin), reply.engine, reply.notes⟩

/-- Consumes a node that has to come to a token; the placeholder stands for anything
else. -/
def resolveToken (e : Engine) (node : Node) : Reply (Option Token) :=
  let env := e.surroundings true node.location.file
  let evaluator := Reduce.evaluator env (Reduce.inContext env.limit)
  e.consume (evaluator.tokenOrPlaceholder? node node.origin.context)

/-- Hands over the diagnostics of consumption. -/
def takeDiagnostics (e : Engine) : List Diagnostic × Engine :=
  (e.diagnostics, { e with diagnostics := [] })

/-! ### Functions of the host -/

/-- The engine with one more function. A function that had the name before is forgotten,
with all that it remembered. -/
def register (e : Engine) (name : String) (function : Function) : Engine × List Note :=
  let memory := e.state.memory.filter (·.1.1 ≠ name)
  ({ e with
      registry := Entries.insert e.registry name function
      state := { e.state with memory } },
    if Registry.contains e.registry name then
      [.remark ⟨.debug, "function `" ++ name ++ "` replaced"⟩]
    else [])

/-- The functions by name, each with whether its calls are late. -/
def functions (e : Engine) : List (String × Bool) :=
  e.registry.names.filterMap fun name =>
    (e.registry.get? name).map fun function => (name, function.late)

/-- The engine beside another host. -/
def withHost (e : Engine) (host : Host) : Engine := { e with host }

end Engine

end ContentLang
