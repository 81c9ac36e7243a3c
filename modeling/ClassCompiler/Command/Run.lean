import ClassCompiler.Command.Options
import ClassCompiler.Document.Analysis
import ClassCompiler.Document.Settings
import ClassCompiler.Json.Printer

/-!
# The command

The command reads settings and a program, compiles it, and shows the result. How files are read and
written is left open.
-/

namespace ClassCompiler.Command

/-- Access to files by name. What goes wrong is told in the words of the system. -/
structure Files (m : Type → Type) where
  read : String → m (Except String String)
  write : String → String → m (Except String Unit)

inductive Problem where
  | reading (file cause : String)
  | parsing (file : String)
  | readingConfig (file cause : String)
  | parsingConfig (file : String)
  | writing (file cause : String)
deriving DecidableEq

namespace Problem

def message : Problem → String
  | .reading file cause => s!"reading '{file}': {cause}"
  | .parsing file => s!"parsing semantics result '{file}'"
  | .readingConfig file cause => s!"reading config '{file}': {cause}"
  | .parsingConfig file => s!"parsing config '{file}'"
  | .writing file cause => s!"writing '{file}': {cause}"

end Problem

structure Outcome where
  exitCode : UInt32
  output : String
  errors : List String
deriving DecidableEq

namespace Outcome

/-- A problem is told after all other messages. -/
def ofProblem (output : String) (errors : List String) (problem : Problem) : Outcome :=
  ⟨1, output, errors ++ ["Error: " ++ problem.message]⟩

def misuse : Outcome :=
  ⟨2, "", ["Usage: classc [--config FILE] [-o] [-r N] [--ir | --jasmin | --both] [--out FILE] [-v] FILE"]⟩

end Outcome

/-- Settings from a document, or the default ones without a document. Options win over both. -/
def settingsOf (options : Options) (settings : Settings) : Settings :=
  { optimize := settings.optimize || options.optimize
    maxRegisters := options.registers <|> settings.maxRegisters }

variable {m : Type → Type} [Monad m]

def readSettings (files : Files m) (options : Options) : m (Except Problem Settings) := do
  match options.config with
  | none => return .ok (settingsOf options .default)
  | some file =>
    match ← files.read file with
    | .error cause => return .error (.readingConfig file cause)
    | .ok text =>
      match (Json.read text).bind Settings.read with
      | none => return .error (.parsingConfig file)
      | some settings => return .ok (settingsOf options settings)

def readProgram (files : Files m) (options : Options) : m (Except Problem Source.Analysis) := do
  match ← files.read options.file with
  | .error cause => return .error (.reading options.file cause)
  | .ok text =>
    match (Json.read text).bind Source.Analysis.read with
    | none => return .error (.parsing options.file)
    | some analysis => return .ok analysis

/-- Shows a compiled program: its code, then its assembly, which may go to a file. -/
def showCompiled (files : Files m) (options : Options) (errors : List String)
    (compiled : Compiled) : m Outcome := do
  let code := if options.showCode then compiled.code.text ++ "\n" else ""
  if !options.showAssembly then return ⟨0, code, errors⟩
  else
    match options.out with
    | none => return ⟨0, code ++ compiled.assembly ++ "\n", errors⟩
    | some file =>
      match ← files.write file compiled.assembly with
      | .ok _ => return ⟨0, code, errors⟩
      | .error cause => return .ofProblem code errors (.writing file cause)

/-- Runs the command with its options. Settings are read before the program. -/
def run (files : Files m) (options : Options) : m Outcome := do
  match ← readSettings files options with
  | .error problem => return .ofProblem "" [] problem
  | .ok settings =>
    match ← readProgram files options with
    | .error problem => return .ofProblem "" [] problem
    | .ok analysis =>
      let progress := Progress.lines analysis settings options.follow
      match compileOrDiagnose analysis settings with
      | .error diagnostics => return ⟨1, "", progress ++ diagnostics.map Diagnostic.text⟩
      | .ok compiled =>
        showCompiled files options (progress ++ compiled.diagnostics.map Diagnostic.text) compiled

def runArguments (files : Files m) (arguments : List String) : m Outcome :=
  match Options.ofArguments arguments with
  | some options => run files options
  | none => return .misuse

end ClassCompiler.Command
