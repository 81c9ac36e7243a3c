import ClassCompiler.Document.Diagnostic
import ClassCompiler.Document.Tree
import ClassCompiler.Source.Analysis

/-!
# Analyzed programs in documents

A document of an analyzed program is a record of tree, symbol table and diagnostics.
-/

namespace ClassCompiler.Source.Analysis

open Json (Decoder)

def decode : Decoder Analysis
  | depth + 1, json =>
    match json.parts ["root", "symbol_table", "reports"] with
    | some [some program, some table, diagnostics] => do
      return {
        program := ← Program.decode depth program
        table := ← SymbolTable.decode depth table
        diagnostics := ← Json.orElse [] (Json.list Diagnostic.decode depth) diagnostics }
    | _ => none
  | 0, _ => none

def encode (analysis : Analysis) : Json :=
  .ofMembers [
    ("root", analysis.program.encode),
    ("symbol_table", analysis.table.encode),
    ("reports", Diagnostic.encodeList analysis.diagnostics)]

def read (json : Json) : Option Analysis := decode Json.maxNesting json

end ClassCompiler.Source.Analysis
