/-!
# Diagnostics

The stages of a compilation report what they find as diagnostics. A diagnostic is shown as one
line.
-/

namespace ClassCompiler

inductive Severity where
  | log
  | debug
  | warning
  | error
deriving DecidableEq

namespace Severity

def text : Severity → String
  | .log => "LOG"
  | .debug => "DEBUG"
  | .warning => "WARNING"
  | .error => "ERROR"

end Severity

inductive Stage where
  | syntactic
  | semantic
  | llir
  | optimization
  | generation
deriving DecidableEq

namespace Stage

def text : Stage → String
  | .syntactic => "SYNTACTIC"
  | .semantic => "SEMANTIC"
  | .llir => "LLIR"
  | .optimization => "OPTIMIZATION"
  | .generation => "GENERATION"

end Stage

/-- A message from a stage, perhaps about a line of the program. -/
structure Diagnostic where
  severity : Severity
  stage : Stage
  line : Option UInt32
  message : String
deriving DecidableEq

namespace Diagnostic

def isError (diagnostic : Diagnostic) : Bool := diagnostic.severity = .error

def text (diagnostic : Diagnostic) : String :=
  let place := match diagnostic.line with
    | some line => ", line " ++ toString line.toNat
    | none => ""
  diagnostic.severity.text ++ "@" ++ diagnostic.stage.text ++ place ++ ": " ++ diagnostic.message

def anyError (diagnostics : List Diagnostic) : Bool := diagnostics.any isError

end Diagnostic

end ClassCompiler
