import ContentLang.Host

/-!
# Arguments

The command line names a command, a file and options. An option has a long name behind two
dashes and perhaps a letter behind one; some take a value, which stands behind `=` or in
the next argument, or right behind the letter. Several letters may share a dash. Behind
`--` nothing is an option.

| command | options |
|---|---|
| `tokens` | `unique-id` |
| `parse` | `compact` |
| `load` | `config`, `late`, `format`, `seed` |
| `refresh` | `config` |

`verbosity` may stand before the command or behind it, once each. `help` and `version` may
stand anywhere and end the reading of what follows.

An option may be mentioned without its value, before another option or at the end. It then
has its standard value, and without one the command line is not well formed.
-/

namespace ContentLang

namespace CommandLine

/-! ### Options -/

/-- What an option does. -/
inductive OptionSort where
  /-- It is given or not. -/
  | flag
  /-- It takes a value, which may have a standard one. -/
  | valued (standard : Option String)
  /-- It asks how the program is called. -/
  | help
  deriving DecidableEq

/-- An option as it may be given. -/
structure OptionForm where
  name : String
  letter : Option Char
  sort : OptionSort

/-- A mention of an option, perhaps with a value. -/
structure Mention where
  form : OptionForm
  value : Option String

/-- What is given: options, and everything else. -/
structure Given where
  mentions : List Mention
  operands : List String

/-- Whether an argument is an option. A single dash is none. -/
def isOption (a : String) : Bool :=
  match a.toList with
  | '-' :: _ :: _ => true
  | _ => false

/-- Whether a mention asks for help. -/
def Mention.asksHelp (m : Mention) : Bool := m.form.sort = .help

/-- What one argument mentions, and the option whose value is still to come. -/
abbrev Mentioned := List Mention × Option OptionForm

/-- A mention of an option behind which some text stands in the same argument. Equal signs
before a value do not belong to it. -/
def mention (form : OptionForm) (behind : Option (List Char)) : Mentioned :=
  match form.sort, behind with
  | .valued _, none => ([], some form)
  | .valued _, some cs => ([⟨form, some (String.ofList (cs.dropWhile (· = '=')))⟩], none)
  | _, _ => ([⟨form, none⟩], none)

/-- The options that share a dash: letters up to the first that takes a value, which is
the text behind it. -/
def cluster (forms : List OptionForm) : List Char → Option Mentioned
  | [] => some ([], none)
  | c :: cs => do
    let form ← forms.find? (·.letter = some c)
    match form.sort with
    | .flag =>
      let (mentions, open?) ← cluster forms cs
      return (⟨form, none⟩ :: mentions, open?)
    | _ => return mention form (if cs = [] then none else some cs)

/-- An option by its long name. What stands behind the name of a flag does not count. -/
def long (forms : List OptionForm) (cs : List Char) : Option Mentioned := do
  let form ← forms.find? (·.name = String.ofList (cs.takeWhile (· ≠ '=')))
  match cs.dropWhile (· ≠ '=') with
  | [] => return mention form none
  | value => return mention form (some value)

/-- The options of one argument. -/
def mentioned (forms : List OptionForm) (a : String) : Option Mentioned :=
  match a.toList with
  | '-' :: '-' :: cs => long forms (cs.dropWhile (· = '-'))
  | '-' :: cs => cluster forms cs
  | _ => none

/-- What is given besides some mentions. -/
def Given.mentioning (g : Given) (mentions : List Mention) : Given :=
  { g with mentions := mentions ++ g.mentions }

/-- **Tells options from operands.** With `leading`, the first operand ends the options,
and they may not be ended otherwise. -/
def readGiven (forms : List OptionForm) (leading : Bool) : List String → Option Given
  | [] => some ⟨[], []⟩
  | a :: rest =>
    if a = "--" then if leading then none else some ⟨[], rest⟩
    else if isOption a then do
      let (mentions, open?) ← mentioned forms a
      if mentions.any Mention.asksHelp then return ⟨mentions, []⟩
      else
        match open?, rest with
        | none, rest => return (← readGiven forms leading rest).mentioning mentions
        | some form, [] => return ⟨mentions ++ [⟨form, none⟩], []⟩
        | some form, value :: rest =>
          if isOption value then
            return (← readGiven forms leading (value :: rest)).mentioning
              (mentions ++ [⟨form, none⟩])
          else
            return (← readGiven forms leading rest).mentioning
              (mentions ++ [⟨form, some value⟩])
    else if leading then some ⟨[], a :: rest⟩
    else do
      let given ← readGiven forms leading rest
      return { given with operands := a :: given.operands }

namespace Given

/-- The mention of an option. -/
def mention? (g : Given) (name : String) : Option Mention :=
  g.mentions.find? (·.form.name = name)

/-- The value of an option, if it is mentioned; perhaps its standard value. -/
def option? (g : Given) (name : String) : Option String := do
  let m ← g.mention? name
  m.value.orElse fun _ =>
    match m.form.sort with
    | .valued standard => standard
    | _ => none

/-- Whether an option is given. -/
def has (g : Given) (name : String) : Bool := (g.mention? name).isSome

/-- Whether help is asked for. -/
def asksHelp (g : Given) : Bool := g.mentions.any Mention.asksHelp

/-- Whether a mention of an option has all that it needs. -/
def isComplete (m : Mention) : Bool :=
  match m.form.sort with
  | .valued none => m.value.isSome
  | _ => true

/-- Whether no option is mentioned twice, and none lacks its value. -/
def isWellFormed (g : Given) : Bool :=
  g.mentions.all fun m =>
    isComplete m && (g.mentions.filter (·.form.name = m.form.name)).length = 1

end Given

/-! ### Commands -/

/-- The form that content is printed in. -/
inductive OutputForm where
  | dsl
  | toml
  deriving DecidableEq

/-- What is to be done. -/
inductive Command where
  | tokens (file uniqueId : String)
  | parse (file : String) (compact : Bool)
  | load (file : String) (settings : Option String) (late : Bool) (form : OutputForm)
    (seed : Option String)
  | refresh (file : String) (settings : Option String)

/-- The option for how much is logged. -/
def verbosityForm : OptionForm := ⟨"verbosity", some 'v', .valued (some "warn")⟩

/-- The options that may stand before a command and behind any. -/
def commonForms : List OptionForm :=
  [verbosityForm, ⟨"help", some 'h', .help⟩, ⟨"version", some 'V', .help⟩]

/-- The option for a file of settings. -/
def settingsForm : OptionForm := ⟨"config", some 'c', .valued none⟩

/-- The options of a command, if it is one. -/
def formsOf (name : String) : Option (List OptionForm) :=
  match name with
  | "tokens" => some [⟨"unique-id", some 'u', .valued none⟩]
  | "parse" => some [⟨"compact", none, .flag⟩]
  | "load" =>
    some [settingsForm, ⟨"late", some 'l', .flag⟩, ⟨"format", some 'f', .valued (some "dsl")⟩,
      ⟨"seed", some 's', .valued none⟩]
  | "refresh" => some [settingsForm]
  | _ => none

/-- The form that a word names. -/
def outputForm? (word : Option String) : Option OutputForm :=
  match word with
  | none => some .dsl
  | some "dsl" => some .dsl
  | some "toml" => some .toml
  | some _ => none

/-- The command that a name and what is given with it make up. -/
def commandOf (name : String) (g : Given) : Option Command := do
  match name, g.operands with
  | "tokens", [file] => return .tokens file ((g.option? "unique-id").getD "")
  | "parse", [file] => return .parse file (g.has "compact")
  | "load", [file] =>
    return .load file (g.option? "config") (g.has "late") (← outputForm? (g.option? "format"))
      (g.option? "seed")
  | "refresh", [file] => return .refresh file (g.option? "config")
  | _, _ => none

/-- What is to be done, and the least important remarks that are logged on the way; no
level logs none. -/
structure Request where
  command : Command
  verbosity : Option Level

/-- The level that a word names; an unknown word names the usual one. -/
def levelOf (word : String) : Option Level :=
  if ["0", "none"].contains word then none
  else if ["1", "err", "error", "min"].contains word then some .error
  else if ["3", "info"].contains word then some .info
  else if ["4", "debug"].contains word then some .debug
  else if ["5", "trace", "max", "all"].contains word then some .trace
  else some .warn

/-- What a command line asks for. -/
inductive Asked where
  | help
  | request (r : Request)

/-- **Reads a command line**, if it is well formed. -/
def readArguments (args : List String) : Option Asked := do
  let before ← readGiven commonForms true args
  if before.asksHelp then return .help
  match before.operands with
  | [] => none
  | ["help"] => return .help
  | ["help", name] => (formsOf name).map fun _ => .help
  | name :: args =>
    let forms ← formsOf name
    let given ← readGiven (commonForms ++ forms) false args
    if given.asksHelp then return .help
    unless before.isWellFormed ∧ given.isWellFormed do none
    let word := (given.option? "verbosity").orElse fun _ => before.option? "verbosity"
    return .request ⟨← commandOf name given, levelOf (word.getD "warn")⟩

end CommandLine

end ContentLang
