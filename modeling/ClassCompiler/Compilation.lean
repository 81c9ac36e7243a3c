import ClassCompiler.Failure
import ClassCompiler.Lowering.Class
import ClassCompiler.Settings
import ClassCompiler.Source.Analysis
import ClassCompiler.Stack.Assembly

/-!
# Compilation of a program

An analyzed program is lowered to code, its variables are given registers, and the code is turned
into assembly. Each step refuses what it cannot do, and the first refusal is the failure of the
whole.
-/

namespace ClassCompiler

open Source (Analysis)

/-- A compiled program: its code with registers, its assembly, and the diagnostics of analysis. -/
structure Compiled where
  code : Code.Class
  assembly : String
  diagnostics : List Diagnostic

/-- The code of a program, without registers. Nothing is done for a program with errors or under
settings that cannot be met. -/
def lower (analysis : Analysis) (settings : Settings) : Except Failure Code.Class :=
  if Diagnostic.anyError analysis.diagnostics then .error .earlierErrors
  else if !settings.isValid then .error .invalidBound
  else (Lowering.lowerProgram analysis.table analysis.program).mapError .lowering

/-- A class with registers, or why it has none. -/
def allocate (settings : Settings) (cls : Code.Class) : Except Failure Code.Class :=
  match Registers.allocate settings.maxRegisters cls with
  | (_, some fault) => .error (.registers fault)
  | (allocated, none) => .ok allocated

def compileToCode (analysis : Analysis) (settings : Settings) : Except Failure Code.Class := do
  allocate settings (← lower analysis settings)

def assemble (settings : Settings) (cls : Code.Class) : Except Failure String :=
  (Stack.assembly cls settings.optimize).mapError .generation

def compile (analysis : Analysis) (settings : Settings) : Except Failure Compiled := do
  let code ← compileToCode analysis settings
  let assembly ← assemble settings code
  return { code, assembly, diagnostics := analysis.diagnostics }

/-- Compiles a program; a failure is told as the last of its diagnostics. -/
def compileOrDiagnose (analysis : Analysis) (settings : Settings) :
    Except (List Diagnostic) Compiled :=
  (compile analysis settings).mapError fun failure =>
    analysis.diagnostics ++ [failure.toDiagnostic]

end ClassCompiler
