import ContentLang.Location

/-!
# Failures

What a host has to deal with. Problems within content are diagnostics and never end up
here: a failure is a file that cannot be read, a configuration that makes no sense, or
content that is used before it is reduced to values.
-/

namespace ContentLang

/-- Why a file cannot be read. -/
inductive FileFault where
  | missing
  | denied
  | isDirectory
  | notADirectory
  | nameTooLong
  | nameHoldsNull
  | notText
  deriving DecidableEq

/-- The words for a fault. -/
def FileFault.text : FileFault → String
  | missing => "No such file or directory (os error 2)"
  | denied => "Permission denied (os error 13)"
  | isDirectory => "Is a directory (os error 21)"
  | notADirectory => "Not a directory (os error 20)"
  | nameTooLong => "File name too long (os error 36)"
  | nameHoldsNull => "file name contained an unexpected NUL byte"
  | notText => "stream did not contain valid UTF-8"

/-- What can fail. -/
inductive Failure where
  | file (fault : FileFault)
  /-- Text or values that do not give what is asked for, as toml. -/
  | toml
  /-- Text or values that do not give what is asked for, as yaml. -/
  | yaml
  | unsupportedFormat (path : String)
  | fileNotFound (file : String)
  /-- A call where a value is needed. -/
  | unresolved (function : String) (location : Location)
  /-- The null value where a record is needed. -/
  | nullRecord (location : Location)
  deriving DecidableEq

/-- The wording of a failure. -/
def Failure.message : Failure → String
  | file fault => "io error: " ++ fault.text
  | toml => "toml deserialization error"
  | yaml => "yaml deserialization error"
  | unsupportedFormat path => "unsupported config file format: " ++ path
  | fileNotFound path => "content file not found: " ++ path
  | unresolved function location =>
    "content could not be fully resolved yet: `" ++ function ++ "` at " ++ location.text ++
      " is not resolved"
  | nullRecord location =>
    "failed converting content: can't deserialize null value at " ++ location.text

end ContentLang
