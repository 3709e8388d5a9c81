import ContentLang.CommandLine.Run

/-!
# The program

Carries out the command line on real files. A command is run on the files that have been
read so far; those it asked for besides are read, and it is run once more, until it
asks for nothing new. Only what the last run prints is printed.
-/

namespace ContentLang

namespace CommandLine

/-- Files that have been read, with what reading them gave. -/
abbrev Fetched := List (String × Except FileFault ByteArray)

/-- What reading a file gave; a file that has not been read counts as missing. -/
def Fetched.read (files : Fetched) (path : String) : Except FileFault ByteArray :=
  ((files.find? (·.1 = path)).map (·.2)).getD (.error .missing)

/-- The fault behind an error of the system. -/
def faultOf : IO.Error → FileFault
  | .permissionDenied .. => .denied
  | .inappropriateType _ code _ => if code = 20 then .notADirectory else .isDirectory
  | .resourceExhausted .. => .nameTooLong
  | .invalidArgument .. => .nameHoldsNull
  | _ => .missing

/-- Reads a file. -/
def fetch (path : String) : IO (Except FileFault ByteArray) := do
  try
    return .ok (← IO.FS.readBinFile path)
  catch e => return .error (faultOf e)

/-- Runs a command until it asks for no other file. -/
partial def runFetching (chance : UInt64) (args : List String) (files : Fetched) :
    IO Printed := do
  let printed := run files.read chance args
  let known := files.map (·.1)
  match printed.wanted.filter (!known.contains ·) with
  | [] => return printed
  | path :: _ => runFetching chance args ((path, ← fetch path) :: files)

end CommandLine

end ContentLang

open ContentLang CommandLine in
/-- The command line program. -/
def main (args : List String) : IO UInt32 := do
  let chance ← IO.rand 0 (UInt64.size - 1)
  let printed ← runFetching chance.toUInt64 args []
  (← IO.getStdout).putStr printed.output
  let errors ← IO.getStderr
  for remark in printed.log do errors.putStrLn remark.line
  errors.putStr printed.errors
  return printed.status.toUInt32
