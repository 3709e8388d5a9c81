import ContentLang.CommandLine.Arguments
import ContentLang.Engine
import ContentLang.Excerpt
import ContentLang.Node.Printer
import ContentLang.Settings.File
import ContentLang.Toml.Writer

/-!
# Commands

What the commands print. A command is given a way to read files and prints to two streams
(`ContentLang.CommandLine.Printed`): its result, or what kept it from one, goes to standard
output, and what is wrong with the content to standard error. It fails only if a file
cannot be read, a value of an option makes no sense, or content has no form to be printed
in. Which files it asked for is told as well, so that they can be fetched when they are
wanted.

Without settings the content root is the directory that holds the file.
-/

namespace ContentLang

namespace CommandLine

/-! ### What is printed -/

/-- What a command leaves behind. -/
structure Printed where
  /-- The status that the program ends with. -/
  status : Nat
  output : String
  errors : String
  log : List Remark
  /-- The files that were asked for. -/
  wanted : List String

/-- Why a command fails. -/
inductive CommandFault where
  | failure (e : Failure)
  | unreadable (path : String) (fault : FileFault)
  | noFile (path : String)
  | badSeed (word : String) (fault : IntegerFault)
  /-- Content that a toml document cannot hold. -/
  | noDocument
  | halted (h : Halt)

namespace CommandFault

/-- The wording of a fault. -/
def message : CommandFault → String
  | failure e => e.message
  | unreadable path _ => "failed reading " ++ shownPath path
  | noFile path => "not a file path: " ++ shownPath path
  | badSeed word _ => "invalid seed: " ++ word
  | noDocument => "values must be emitted before tables"
  | halted h => h.message

/-- What is behind it, in words. -/
def cause? : CommandFault → Option String
  | unreadable _ fault => some fault.text
  | badSeed _ fault => some fault.text
  | _ => none

/-- What a command that fails prints to its two streams, and its status. -/
def printed (fault : CommandFault) : Nat × String × String :=
  match fault with
  | halted h => (101, "", h.message ++ "\n")
  | fault =>
    let cause := (fault.cause?.map fun s => "Caused by:\n" ++ s ++ "\n").getD ""
    (1, "error: " ++ fault.message ++ "\n" ++ cause, "")

end CommandFault

/-- What a command does on its way: remarks for the log, and questions for files. -/
structure Trail where
  remarks : List Remark
  wanted : List String

/-- What is carried out, leaving a trail. -/
abbrev Running := ExceptT CommandFault (StateM Trail)

/-- Makes remarks. -/
def remarking (rs : List Remark) : Running Unit :=
  modify fun t => { t with remarks := t.remarks ++ rs }

/-- Tells that a file was asked for. -/
def wanting (path : String) : Running Unit :=
  modify fun t => { t with wanted := t.wanted ++ [path] }

/-- The path that a note asks for the content of. -/
def askedPath? (settings : Settings) (note : Note) : Option String :=
  match note.query? with
  | some (.file path) => some (settings.contentPath path)
  | _ => none

/-- Passes on what an engine noted. -/
def noting (settings : Settings) (notes : List Note) : Running Unit := do
  remarking (notes.filterMap Note.remark?)
  (notes.filterMap (askedPath? settings)).forM wanting

/-- Goes on with what an engine answers. -/
def answered {α : Type} (r : Reply α) : Running (α × Engine) := do
  noting r.engine.settings r.notes
  match r.answer with
  | .ok a => return (a, r.engine)
  | .error h => throw (.halted h)

/-! ### Files -/

/-- A way to read files. -/
abbrev ReadBytes := String → Except FileFault ByteArray

/-- The text of a file. -/
def readText (read : ReadBytes) (path : String) : Except FileFault String :=
  read path >>= textOfBytes

/-- The text of a file that is named on the command line. -/
def readSource (read : ReadBytes) (path : String) : Running String := do
  wanting path
  match readText read path with
  | .ok text => return text
  | .error fault => throw (.unreadable path fault)

/-- The excerpts of diagnostics, with a way to the text that each is about. -/
def excerpts (source : String → Option String) (ds : List Diagnostic) : String :=
  String.join (ds.map fun d => Excerpt.text d (source d.location.file))

/-- Settings, and the path of the file from the content root. -/
def locate (read : ReadBytes) (file : String) (settings : Option String) :
    Running (Settings × String) := do
  match settings with
  | some path =>
    wanting path
    match Settings.ofFile read path with
    | .ok s => return (s, file)
    | .error e => throw (.failure e)
  | none =>
    match Path.fileName? file.toList with
    | none => throw (.noFile file)
    | some name =>
      let root :=
        match Path.parent? file.toList with
        | some (c :: cs) => String.ofList (c :: cs)
        | _ => "."
      return ({ Settings.standard with contentRoot := root }, String.ofList name)

/-! ### Tokens and trees -/

/-- A text with blanks before it, up to some length. -/
def padLeft (n : Nat) (s : String) : String := Excerpt.times (n - s.length) ' ' ++ s

/-- A text with blanks behind it, up to some length. -/
def padRight (n : Nat) (s : String) : String := s ++ Excerpt.times (n - s.length) ' '

/-- The line for a token: its place, its sort and its value. -/
def tokenLine (t : Token) : String :=
  padLeft 4 (toString t.origin.location.line) ++ ":" ++
    padRight 4 (toString t.origin.location.column) ++ " " ++
    padRight 6 (if t.isContent then "text" else "symbol") ++ " " ++ t.value ++ "\n"

/-- The tokens of a file. -/
def tokens (read : ReadBytes) (file uniqueId : String) : Running (String × String) := do
  let text ← readSource read file
  let (ts, ds) := tokenize text file uniqueId
  return (String.join (ts.map tokenLine), excerpts (fun _ => some text) ds)

/-- The tree of a file as it is read. -/
def parse (read : ReadBytes) (file : String) (compact : Bool) : Running (String × String) := do
  let text ← readSource read file
  let (items, ds) := parseText text file ""
  return (Node.fileText (if compact then .compact else .spread) items,
    excerpts (fun _ => some text) ds)

/-! ### Loading -/

/-- Content as a toml document: a single block as its table, anything else as the items of
one. -/
def tomlText (items : List Node) : Running String := do
  let value :=
    match items with
    | [.block es _] => Toml.ofEntries es
    | items => (Toml.ofItems items).map fun vs => [("items", .array vs)]
  match value with
  | .error e => throw (.failure e)
  | .ok es =>
    match Toml.documentText es with
    | some text => return text
    | none => throw .noDocument

/-- Content in the form that is asked for. -/
def contentText (form : OutputForm) (items : List Node) : Running String :=
  match form with
  | .toml => tomlText items
  | .dsl => return Node.fileText .spread items

/-- Consumes elements one after the other. Those that are not ready stay as they are. -/
def resolveAll : Engine → List Node → Running (List Node × Engine)
  | engine, [] => return ([], engine)
  | engine, n :: ns => do
    let (resolved, engine) ← answered (engine.resolve n)
    if resolved.isNone then
      remarking [⟨.warn, n.location.text ++ ": not ready, left unresolved"⟩]
    let (others, engine) ← resolveAll engine ns
    return (resolved.getD n :: others, engine)

/-- The seed that a word names. -/
def seedOf (word : String) : Running UInt64 :=
  match readInteger .unsigned64 word.toList with
  | .ok n => return n.toNat.toUInt64
  | .error fault => throw (.badSeed word fault)

/-- An engine on the files of the settings. -/
def engineOf (read : ReadBytes) (settings : Settings) (chance : UInt64) : Engine :=
  Engine.start settings (Host.ofFiles settings (readText read)) chance

/-- Loads a file, which has to be there. -/
def loadFile (engine : Engine) (file : String) : Running (Loaded × Engine) := do
  let (loaded, engine) ← answered (engine.loadFile file)
  match loaded with
  | .ok loaded => return (loaded, engine)
  | .error e => throw (.failure e)

/-- The text of a content file. -/
def contentSource (read : ReadBytes) (settings : Settings) (file : String) : Option String :=
  (readText read (settings.contentPath file)).toOption

/-- The content of a file, loaded and perhaps consumed. -/
def load (read : ReadBytes) (chance : UInt64) (file : String) (settings : Option String)
    (late : Bool) (form : OutputForm) (seed : Option String) : Running (String × String) := do
  let (settings, file) ← locate read file settings
  let settings ←
    match seed with
    | some word => pure { settings with seed := some (← seedOf word) }
    | none => pure settings
  let (loaded, engine) ← loadFile (engineOf read settings chance) file
  let (items, ds) ←
    if late then do
      let (items, engine) ← resolveAll engine loaded.items
      pure (items, loaded.diagnostics ++ engine.diagnostics)
    else pure (loaded.items, loaded.diagnostics)
  let text ← contentText form items
  return (text, excerpts (contentSource read settings) ds)

/-- Whether consuming the content of a file once more would give something else. -/
def refresh (read : ReadBytes) (chance : UInt64) (file : String) (settings : Option String) :
    Running (String × String) := do
  let (settings, file) ← locate read file settings
  let (loaded, engine) ← loadFile (engineOf read settings chance) file
  let (_, engine) ← resolveAll engine loaded.items
  let (changes, notes) := engine.wouldChange loaded
  noting settings notes
  let text :=
    if changes then "refresh would change the content\n" else "content is up to date\n"
  return (text, excerpts (contentSource read settings) loaded.diagnostics)

/-! ### Any command -/

/-- Carries out a command. -/
def perform (read : ReadBytes) (chance : UInt64) : Command → Running (String × String)
  | .tokens file uniqueId => tokens read file uniqueId
  | .parse file compact => parse read file compact
  | .load file settings late form seed => load read chance file settings late form seed
  | .refresh file settings => refresh read chance file settings

/-- How the program is called. -/
def usage : String :=
  "usage: [--verbosity LEVEL] COMMAND FILE [OPTION ...]\n" ++
  "  tokens FILE [--unique-id ID]\n" ++
  "  parse FILE [--compact]\n" ++
  "  load FILE [--config PATH] [--late] [--format dsl|toml] [--seed N]\n" ++
  "  refresh FILE [--config PATH]\n"

/-- **What the program prints** for a command line, given a way to read files and a number
by chance. -/
def run (read : ReadBytes) (chance : UInt64) (args : List String) : Printed :=
  match readArguments args with
  | none => ⟨1, "", usage, [], []⟩
  | some .help => ⟨0, usage, "", [], []⟩
  | some (.request request) =>
    let (result, trail) := (perform read chance request.command).run.run ⟨[], []⟩
    let log := trail.remarks.filter fun r => request.verbosity.any fun l => r.level.rank ≤ l.rank
    let (status, output, errors) :=
      match result with
      | .ok (output, errors) => (0, output, errors)
      | .error fault => fault.printed
    ⟨status, output, errors, log, trail.wanted⟩

end CommandLine

end ContentLang
