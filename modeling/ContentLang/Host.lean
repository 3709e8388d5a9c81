import ContentLang.Failure
import ContentLang.Path
import ContentLang.Random.Generator
import ContentLang.Settings
import ContentLang.Text.Shown

/-!
# Hosts

A host is the application around an engine. It answers four sorts of questions: whether
a condition holds, what an asset is called, which random numbers belong to a seed, and
what a file says. A condition may have no answer yet, and a file may not be there.

While it answers, a host may have remarks for the log; an engine passes them on. The
host that reads a directory, `ContentLang.Host.ofFiles`, remarks on files that it cannot
read and on conditions it knows nothing of.
-/

namespace ContentLang

/-! ### Remarks for the log -/

/-- How important a remark is. -/
inductive Level where
  | error
  | warn
  | info
  | debug
  | trace
  deriving DecidableEq

namespace Level

/-- The rank of a level, the most important first. -/
def rank : Level → Nat
  | error => 1
  | warn => 2
  | info => 3
  | debug => 4
  | trace => 5

/-- The name of a level in a log. -/
def name : Level → String
  | error => "ERROR"
  | warn => "WARN"
  | info => "INFO"
  | debug => "DEBUG"
  | trace => "TRACE"

end Level

/-- A line of a log. -/
structure Remark where
  level : Level
  text : String
  deriving DecidableEq

/-- The line as it is written. -/
def Remark.line (r : Remark) : String := r.level.name ++ " " ++ r.text

/-! ### Questions and answers -/

/-- What a host can be asked. -/
inductive Query where
  | condition (text : String)
  | asset (path : String)
  | random (seed : UInt64) (isStatic : Bool)
  | file (path : String)
  deriving DecidableEq

/-- A question as it is written. -/
def Query.text : Query → String
  | condition s => "condition " ++ s
  | asset s => "asset " ++ s
  | random seed isStatic => "random " ++ toString seed ++ " " ++ toString isStatic
  | file s => "file " ++ s

/-- An application around an engine. -/
structure Host where
  /-- Whether a condition holds, if that is known yet. -/
  condition : String → Option Bool
  /-- The name of the asset at a path from the content root. -/
  assetName : String → String
  /-- The generator for a seed. The static one of a seed is to be the same always. -/
  random : UInt64 → Bool → Generator
  /-- The text of the file at a path from the content root. -/
  fileText : String → Option String
  /-- What the host remarks on while it answers. -/
  remarks : Query → List Remark

namespace Host

/-- A host that knows some conditions and some files by name, calls assets by their paths
and gives every seed its standard generator. -/
def plain (condition : String → Option Bool) (fileText : String → Option String) : Host where
  condition := condition
  assetName := id
  random seed _ := Generator.standard seed
  fileText := fileText
  remarks _ := []

/-- A host that knows some conditions and some files by name, and puts assets into one
folder, in small letters. -/
def tables (conditions : Entries String Bool) (files : Entries String String)
    (random : UInt64 → Bool → Generator) : Host where
  condition := Entries.get? conditions
  assetName path := "assets/" ++ path.toLower
  random := random
  fileText := Entries.get? files
  remarks _ := []

/-- What reading a file of a directory gives, and the remarks on it. -/
def readFile (settings : Settings) (read : String → Except FileFault String) (path : String) :
    Except FileFault String × List Remark :=
  let full := settings.contentPath path
  let reading : Remark := ⟨.debug, "reading text file: " ++ shownPath full⟩
  match read full with
  | .ok text => (.ok text, [reading])
  | .error fault =>
    (.error fault,
      [reading, ⟨.debug, "failed reading " ++ shownPath full ++ ": io error: " ++ fault.text⟩])

/-- **The host that reads a directory.** Conditions that the settings do not answer do not
hold. -/
def ofFiles (settings : Settings) (read : String → Except FileFault String) : Host where
  condition s := some ((Entries.get? settings.conditions s).getD false)
  assetName path :=
    match settings.assetFolder with
    | some folder => Path.normalize (folder ++ "/" ++ path)
    | none => path
  random seed _ := Generator.standard seed
  fileText path := (readFile settings read path).1.toOption
  remarks
    | .condition s =>
      if Entries.contains settings.conditions s then []
      else [⟨.debug, "unknown condition `" ++ s ++ "`, assuming false"⟩]
    | .file path => (readFile settings read path).2
    | _ => []

end Host

end ContentLang
