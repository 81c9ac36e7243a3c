import ClassCompiler.Diagnostic
import ClassCompiler.Source.SymbolTable
import ClassCompiler.Source.Tree

/-!
# Analyzed programs

What analysis hands over to the compiler.
-/

namespace ClassCompiler.Source

structure Analysis where
  program : Program
  table : SymbolTable
  diagnostics : List Diagnostic

end ClassCompiler.Source
