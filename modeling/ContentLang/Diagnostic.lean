import ContentLang.Node.Basic

/-!
# Diagnostics

What is wrong with content. A problem never stops the reading or the reduction of a
file: it is noted with the place it is about, and a placeholder stands for what could
not be used. `ContentLang.Problem` says what the problem is and `ContentLang.Problem.message`
how it is worded; `ContentLang.Diagnostic` adds the place.
-/

namespace ContentLang

/-- What a pair of brackets encloses. -/
inductive Enclosure where
  | array
  | block
  | call
  deriving DecidableEq

/-- The words for an enclosure. -/
def Enclosure.text : Enclosure → String
  | array => "array"
  | block => "block"
  | call => "function call"

/-- How many parameters are expected. -/
inductive Arity where
  | exactly (n : Nat)
  | either (m n : Nat)
  | between (m n : Nat)
  | atLeast (n : Nat)
  deriving DecidableEq

namespace Arity

/-- Whether so many parameters are accepted. -/
def accepts : Arity → Nat → Bool
  | exactly n, k => k == n
  | either m n, k => k == m || k == n
  | between m n, k => m ≤ k && k ≤ n
  | atLeast n, k => n ≤ k

/-- The words for an arity. -/
def text : Arity → String
  | exactly n => toString n
  | either m n => toString m ++ " or " ++ toString n
  | between m n => toString m ++ " to " ++ toString n
  | atLeast n => "at least " ++ toString n

end Arity

/-- What is wrong with an argument. -/
inductive Fault where
  | notAnArray (found : Kind)
  | notACollection (found : Kind)
  | mixedCollections
  | nothingToChoose
  | weightless
  | missingData
  | lateName
  | overridesNotABlock (found : Kind)
  | notANumber (found : String)
  | notAChannel (found : String)
  deriving DecidableEq

/-- The words for a fault. -/
def Fault.text : Fault → String
  | notAnArray k => "expected an array, found " ++ k.text
  | notACollection k => "expected an array or a block, found " ++ k.text
  | mixedCollections => "can't combine arrays with blocks"
  | nothingToChoose => "nothing to choose from"
  | weightless => "can't pick: All weights are zero."
  | missingData => "missing data after the condition"
  | lateName => "name can't depend on late-resolving functions"
  | overridesNotABlock k => "context overrides must be a block, found " ++ k.text
  | notANumber s => "`" ++ s ++ "` is not a number"
  | notAChannel s => "`" ++ s ++ "` is not a color channel in 0..=255"

/-- What is wrong with content. -/
inductive Problem where
  | unterminatedString
  | unterminatedComment
  | unexpectedToken (found : String)
  | missingKey (found : String)
  | missingSeparator (key : String)
  | missingValue (key : String)
  | duplicateKey (key : String)
  | unterminated (what : Enclosure)
  | includeNotFound (file : String)
  | includeCycle (chain : List String)
  | includeDepth (limit : Nat)
  | invalidArity (function : String) (expected : Arity) (found : Nat)
  | invalidArgument (function : String) (fault : Fault)
  | expectedValue (found : Kind)
  | unknownFunction (name : String) (suggestion : Option String)
  | invalidContextValue (name : String)
  deriving DecidableEq

namespace Problem

/-- The wording of a problem. -/
def message : Problem → String
  | unterminatedString => "unterminated string"
  | unterminatedComment => "unterminated block comment"
  | unexpectedToken found => "unexpected `" ++ found ++ "`"
  | missingKey found => "expected block key, found `" ++ found ++ "`"
  | missingSeparator key => "missing `:` after block key `" ++ key ++ "`"
  | missingValue key => "missing value for block key `" ++ key ++ "`"
  | duplicateKey key => "duplicate block key `" ++ key ++ "`"
  | unterminated what => "unterminated " ++ what.text
  | includeNotFound file => "included file not found: " ++ file
  | includeCycle chain => "include cycle: " ++ " -> ".intercalate chain
  | includeDepth limit => "include depth limit of " ++ toString limit ++ " exceeded"
  | invalidArity function expected found =>
    "`" ++ function ++ "` expects " ++ expected.text ++ " parameter(s), found " ++ toString found
  | invalidArgument function fault => "`" ++ function ++ "`: " ++ fault.text
  | expectedValue found => "expected a value, found " ++ found.text
  | unknownFunction name none => "unknown function `" ++ name ++ "`"
  | unknownFunction name (some s) =>
    "unknown function `" ++ name ++ "`, did you mean `" ++ s ++ "`?"
  | invalidContextValue name => "invalid context value " ++ name

/-- Whether the problem is with the text itself, and is there before any reduction. -/
def isTextual : Problem → Bool
  | unterminatedString | unterminatedComment | unexpectedToken _ | missingKey _
  | missingSeparator _ | missingValue _ | duplicateKey _ | unterminated _ => true
  | _ => false

end Problem

/-- A problem at a place. -/
structure Diagnostic where
  location : Location
  /-- How many characters are concerned, from the location on. -/
  length : Nat
  problem : Problem
  deriving DecidableEq

namespace Diagnostic

/-- A problem with what comes from `origin`; it concerns at least one character. -/
def about (origin : Origin) (problem : Problem) : Diagnostic :=
  ⟨origin.location, max origin.length 1, problem⟩

/-- The written form: place and wording. -/
def text (d : Diagnostic) : String :=
  let file := if d.location.file = "" then "unknown" else d.location.file
  "source: " ++ file ++ ", line: " ++ toString d.location.line ++ ", column: " ++
    toString d.location.column ++ " - " ++ d.problem.message

end Diagnostic

end ContentLang
