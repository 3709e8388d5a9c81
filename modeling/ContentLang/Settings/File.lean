import ContentLang.Directory
import ContentLang.Settings
import ContentLang.Toml.Document
import ContentLang.Yaml.Document

/-!
# Settings files

Settings are read from a toml or a yaml file, told apart by the file's name. Each field may
be missing and keeps its standard value then; a field that occurs twice or has a value of
another type makes the whole file unreadable, and keys that are no field are ignored. A
content root that is not absolute is taken from the directory of the file.

The two formats differ in what they take for a text, a number or a missing value
(`ContentLang.SettingsFormat`); the reading of fields is one and the same.
-/

namespace ContentLang

/-- How values of some format are taken for what settings are made of. -/
structure SettingsFormat (ν : Type) where
  text? : ν → Option String
  /-- A number of 64 bits, without sign. -/
  number? : ν → Option Nat
  flag? : ν → Option Bool
  entries? : ν → Option (List (String × ν))
  /-- Whether a value says that there is none, if it makes sense where none may be. -/
  absence? : ν → Option Bool

/-! ### Toml -/

/-- The number of an integer that is not negative. -/
def Toml.Value.natural? : Toml.Value → Option Nat
  | .integer n => if 0 ≤ n then some n.toNat else none
  | _ => none

/-- Settings as toml values. -/
def tomlSettings : SettingsFormat Toml.Value where
  text? v := match v with
    | .string s => some s
    | _ => none
  number? := Toml.Value.natural?
  flag? v := match v with
    | .boolean b => some b
    | _ => none
  entries? v := match v with
    | .table es => some es
    | _ => none
  absence? _ := some false

/-! ### Yaml -/

/-- Settings as yaml values. -/
def yamlSettings : SettingsFormat Yaml.Value where
  text? := Yaml.Value.text?
  number? := Yaml.Value.natural?
  flag? := Yaml.Value.flag?
  entries? := Yaml.Value.entries?
  absence? := Yaml.Value.absence?

/-! ### Fields -/

namespace Settings

/-- The names of the fields. -/
def fieldNames : List String :=
  ["content_root", "unique_id", "seed", "max_include_depth", "asset_prefix", "conditions"]

variable {ν : Type}

/-- The value of a field that does not occur twice, read in some way; the standard value
if it is missing. -/
def field {α : Type} (es : List (String × ν)) (name : String) (standard : α)
    (read : ν → Option α) : Option α :=
  match es.filter (·.1 = name) with
  | [] => some standard
  | [e] => read e.2
  | _ => none

/-- A value that may be said to be missing. -/
def unlessAbsent {α : Type} (f : SettingsFormat ν) (read : ν → Option α) (v : ν) :
    Option (Option α) := do
  if ← f.absence? v then return none else return some (← read v)

/-- Answers to conditions; a later one replaces an earlier one. -/
def conditions? (f : SettingsFormat ν) (v : ν) : Option (Entries String Bool) := do
  let es ← f.entries? v
  let answers ← es.mapM fun e => (f.flag? e.2).map (e.1, ·)
  return Entries.overlay [] answers

/-- **Settings from entries.** -/
def ofEntries? (f : SettingsFormat ν) (es : List (String × ν)) : Option Settings := do
  let s := standard
  return {
    contentRoot := ← field es "content_root" s.contentRoot f.text?
    uniqueId := ← field es "unique_id" s.uniqueId f.text?
    seed := ← field es "seed" s.seed
      (unlessAbsent f fun v => (f.number? v).map Nat.toUInt64)
    maxIncludeDepth := ← field es "max_include_depth" s.maxIncludeDepth f.number?
    assetFolder := ← field es "asset_prefix" s.assetFolder (unlessAbsent f f.text?)
    conditions := ← field es "conditions" s.conditions (conditions? f) }

/-- Settings from a toml text. -/
def ofToml? (text : String) : Option Settings := do
  ofEntries? tomlSettings (← Toml.ofText? text)

/-- Settings from a yaml text: a mapping, or the values of the first fields in order. -/
def ofYaml? (text : String) : Option Settings := do
  match ← Yaml.ofText? text with
  | .sequence vs =>
    if vs.length ≤ fieldNames.length then ofEntries? yamlSettings (fieldNames.zip vs) else none
  | v => ofEntries? yamlSettings (← yamlSettings.entries? v)

/-! ### Files -/

/-- The settings that the bytes of a file with a given name hold. -/
def ofBytes (path : String) (bytes : ByteArray) : Except Failure Settings :=
  let text := String.fromUTF8? bytes
  let found (s : Option Settings) (e : Failure) : Except Failure Settings :=
    match s with
    | some s => .ok s
    | none => .error e
  let ending := ((Path.extension? path.toList).getD []).map Char.toLower
  if ending = "toml".toList then found (text.bind ofToml?) .toml
  else if ending = "yaml".toList ∨ ending = "yml".toList then found (text.bind ofYaml?) .yaml
  else .error (.unsupportedFormat path)

/-- Settings whose content root is taken from the directory of a file. -/
def beside (path : String) (s : Settings) : Settings :=
  if Path.isAbsolute s.contentRoot.toList then s
  else
    match Path.parent? path.toList with
    | some folder => { s with contentRoot := Path.join (String.ofList folder) s.contentRoot }
    | none => s

/-- **Reads settings from a file.** A file that cannot be read fails whatever its name
is. -/
def ofFile (read : String → Except FileFault ByteArray) (path : String) :
    Except Failure Settings :=
  match read path with
  | .error fault => .error (.file fault)
  | .ok bytes => (ofBytes path bytes).map (beside path)

/-- Whether settings are the standard ones; content roots are the same if they have the
same components. -/
def isStandard (s : Settings) : Bool :=
  Path.components s.contentRoot.toList == Path.components standard.contentRoot.toList &&
    s.uniqueId == standard.uniqueId && s.seed == standard.seed &&
    s.maxIncludeDepth == standard.maxIncludeDepth && s.assetFolder == standard.assetFolder &&
    s.conditions == standard.conditions

end Settings

end ContentLang
