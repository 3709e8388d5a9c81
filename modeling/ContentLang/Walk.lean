import ContentLang.Diagnostic
import ContentLang.Host

/-!
# Walks

What happens while a tree is reduced. A walk gives an answer, unless it has to be given
up (`ContentLang.Halt`); on the way it may draw random numbers, remember things, and leave
notes: diagnostics, remarks for the log, questions that were put to the host, bindings that
were not made. Notes are only ever added, and a walk cannot see those made before it, so what
it does depends on nothing but the generator and the memory it starts with.

A walk that is given up keeps what it did until then.
-/

namespace ContentLang

/-- What functions remember from one reduction to the next: for a function's name and
the identity of a call, the answers that the result was made from. -/
abbrev Memory := Entries (String × String) (List Bool)

/-- Why a walk was given up. -/
inductive Halt where
  /-- Nodes were nested, or files and bindings followed, beyond the limit. -/
  | exhausted
  /-- Weights that add up to infinity. -/
  | infiniteWeight
  deriving DecidableEq

/-- The words for it. -/
def Halt.message : Halt → String
  | exhausted => "recursion limit exceeded"
  | infiniteWeight => "Uniform::new called with non-finite boundaries"

/-- What a walk leaves behind. -/
inductive Note where
  | report (d : Diagnostic)
  | remark (r : Remark)
  | asked (q : Query)
  /-- A binding was not made, since its name or its value was not ready. Nothing is said
  of it outside. -/
  | unbound (call : Call)

namespace Note

/-- The diagnostic, if this is one. -/
def diagnostic? : Note → Option Diagnostic
  | report d => some d
  | _ => none

/-- The remark, if this is one. -/
def remark? : Note → Option Remark
  | remark r => some r
  | _ => none

/-- The question, if this is one. -/
def query? : Note → Option Query
  | asked q => some q
  | _ => none

end Note

/-- What a walk goes on from. -/
structure WalkState where
  generator : Generator
  memory : Memory

/-- How a walk ended. -/
structure Walked (α : Type) where
  answer : Except Halt α
  state : WalkState
  notes : List Note

/-- A walk with an answer of type `α`. -/
def Walk (α : Type) : Type := WalkState → Walked α

namespace Walk

variable {α β : Type}

/-- A walk that does nothing. -/
def done (a : α) : Walk α := fun s => ⟨.ok a, s, []⟩

/-- A walk after another one, whose answer it starts from. -/
def andThen (m : Walk α) (f : α → Walk β) : Walk β := fun s =>
  match m s with
  | ⟨.ok a, s, notes⟩ =>
    let r := f a s
    ⟨r.answer, r.state, notes ++ r.notes⟩
  | ⟨.error h, s, notes⟩ => ⟨.error h, s, notes⟩

instance : Monad Walk where
  pure := done
  bind := andThen

/-- A walk that is given up. -/
def halt (h : Halt) : Walk α := fun s => ⟨.error h, s, []⟩

/-- Leaves notes. -/
def leave (notes : List Note) : Walk Unit := fun s => ⟨.ok (), s, notes⟩

/-- Reports a problem with what comes from `origin`. -/
def report (origin : Origin) (problem : Problem) : Walk Unit :=
  leave [.report (.about origin problem)]

/-- Passes diagnostics on. -/
def reportAll (ds : List Diagnostic) : Walk Unit := leave (ds.map .report)

/-- Makes a remark. -/
def remark (level : Level) (text : String) : Walk Unit := leave [.remark ⟨level, text⟩]

/-- Makes a remark on what stands at a location. -/
def remarkAt (level : Level) (location : Location) (text : String) : Walk Unit :=
  remark level (location.text ++ ": " ++ text)

/-- The notes that go with a question. -/
def questionNotes (host : Host) (q : Query) : List Note :=
  .asked q :: (host.remarks q).map .remark

/-- Asks the host whether a condition holds. -/
def askCondition (host : Host) (s : String) : Walk (Option Bool) := fun state =>
  ⟨.ok (host.condition s), state, questionNotes host (.condition s)⟩

/-- Asks the host for the name of an asset. -/
def askAsset (host : Host) (path : String) : Walk String := fun state =>
  ⟨.ok (host.assetName path), state, questionNotes host (.asset path)⟩

/-- Asks the host for the text of a file. -/
def askFile (host : Host) (path : String) : Walk (Option String) := fun state =>
  ⟨.ok (host.fileText path), state, questionNotes host (.file path)⟩

/-- Asks the host for a generator. -/
def askRandom (host : Host) (seed : UInt64) (isStatic : Bool) : Walk Generator := fun state =>
  ⟨.ok (host.random seed isStatic), state, questionNotes host (.random seed isStatic)⟩

/-- Samples the engine's own generator. -/
def draw (sample : Generator → Option (α × Generator)) : Walk α := fun s =>
  match sample s.generator with
  | some (a, g) => ⟨.ok a, { s with generator := g }, []⟩
  | none => ⟨.error .exhausted, s, []⟩

/-- What is remembered of a call. -/
def remembered (function uid : String) : Walk (Option (List Bool)) := fun s =>
  ⟨.ok (Entries.get? s.memory (function, uid)), s, []⟩

/-- Remembers something of a call, in place of what was remembered of it. -/
def remember (function uid : String) (answers : List Bool) : Walk Unit := fun s =>
  ⟨.ok (), { s with memory := Entries.insert s.memory (function, uid) answers }, []⟩

end Walk

end ContentLang
