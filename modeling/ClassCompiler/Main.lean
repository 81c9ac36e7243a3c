import ClassCompiler.Command.Run

/-!
# The command on the files of the system

The only part of the library that does input and output. What the command does is defined in
`Command.Run`; here it is given the files, the arguments and the streams of the system.
-/

namespace ClassCompiler.Command

def causeOf : IO.Error → String
  | .noFileOrDirectory _ code details
  | .alreadyExists _ code details
  | .invalidArgument _ code details
  | .permissionDenied _ code details
  | .resourceExhausted _ code details
  | .inappropriateType _ code details
  | .noSuchThing _ code details
  | .resourceBusy code details
  | .otherError code details => s!"{details} (os error {code})"
  | error => toString error

def systemFiles : Files IO where
  read path := do
    try
      match String.fromUTF8? (← (← IO.FS.Handle.mk path .read).readBinToEnd) with
      | some text => return .ok text
      | none => return .error "stream did not contain valid UTF-8"
    catch error => return .error (causeOf error)
  write path content := do
    try
      IO.FS.writeFile path content
      return .ok ()
    catch error => return .error (causeOf error)

end ClassCompiler.Command

open ClassCompiler.Command in
def main (arguments : List String) : IO UInt32 := do
  let outcome ← runArguments systemFiles arguments
  for line in outcome.errors do IO.eprintln line
  IO.print outcome.output
  return outcome.exitCode
