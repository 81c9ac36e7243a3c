import ClassCompiler.Diagnostic
import ClassCompiler.Lowering.Fault
import ClassCompiler.Registers.Assignment
import ClassCompiler.Stack.Fault

/-!
# Failures of a compilation

A compilation that has no result says why. A failure knows the stage it belongs to and its text;
the faults of the single stages are wrapped here and keep their own wording.
-/

namespace ClassCompiler

inductive Failure where
  | earlierErrors
  | invalidBound
  | lowering (fault : Lowering.Fault)
  | registers (fault : Registers.Fault)
  | generation (fault : Stack.Fault)

namespace Failure

def stage : Failure → Stage
  | .earlierErrors => .llir
  | .invalidBound => .optimization
  | .lowering _ => .llir
  | .registers _ => .optimization
  | .generation _ => .generation

def internal (stage : Stage) (message : String) : String :=
  s!"Internal error during {stage.text}: {message}"

def message : Failure → String
  | .earlierErrors => "Started ollir generation but there are errors from previous stage"
  | .invalidBound => "Invalid configuration: register bound must be a positive integer"
  | .lowering fault => internal .llir fault.message
  | .registers (.flow method fault) => internal .optimization (fault.message method)
  | .registers (.coloring method fault) =>
    s!"Register allocation failed in method '{method}': {fault.message}"
  | .registers (.unassigned method name) =>
    internal .optimization s!"no register for '{name}' in method '{method}'"
  | .generation fault => internal .generation fault.message

def toDiagnostic (failure : Failure) : Diagnostic :=
  { severity := .error, stage := failure.stage, line := none, message := failure.message }

end Failure

end ClassCompiler
