import ClassCompiler.Diagnostic
import ClassCompiler.Json.Tagged
import ClassCompiler.Json.Reader

/-!
# Diagnostics in documents

A diagnostic is a record of severity, stage, line and message.
-/

namespace ClassCompiler

open Json (Decoder)

namespace Severity

def ofTag? (tag : String) : Option Severity :=
  match tag with
  | "log" => some .log
  | "debug" => some .debug
  | "warning" => some .warning
  | "error" => some .error
  | _ => none

def tag : Severity → String
  | .log => "log"
  | .debug => "debug"
  | .warning => "warning"
  | .error => "error"

end Severity

namespace Stage

def ofTag? (tag : String) : Option Stage :=
  match tag with
  | "syntactic" => some .syntactic
  | "semantic" => some .semantic
  | "llir" => some .llir
  | "optimization" => some .optimization
  | "generation" => some .generation
  | _ => none

def tag : Stage → String
  | .syntactic => "syntactic"
  | .semantic => "semantic"
  | .llir => "llir"
  | .optimization => "optimization"
  | .generation => "generation"

end Stage

namespace Diagnostic

/-- The parts of a diagnostic, in the order of their places in an array. -/
def partNames : List String := ["type", "stage", "line", "message"]

def decode : Decoder Diagnostic
  | depth + 1, json =>
    match json.parts partNames with
    | some [some severity, some stage, line, some message] => do
      return {
        severity := ← (Json.tag? depth severity).bind Severity.ofTag?
        stage := ← (Json.tag? depth stage).bind Stage.ofTag?
        line := ← Json.orElse none (Json.nullable (fun _ => Json.uint32?) depth) line
        message := ← message.text? }
    | _ => none
  | 0, _ => none

def encode (diagnostic : Diagnostic) : Json :=
  .ofMembers [
    ("type", .string diagnostic.severity.tag),
    ("stage", .string diagnostic.stage.tag),
    ("line", .ofOption (fun line => .nat line.toNat) diagnostic.line),
    ("message", .string diagnostic.message)]

def readList (json : Json) : Option (List Diagnostic) := Json.list decode Json.maxNesting json

def encodeList (diagnostics : List Diagnostic) : Json := .array (diagnostics.map encode)

end Diagnostic

end ClassCompiler
