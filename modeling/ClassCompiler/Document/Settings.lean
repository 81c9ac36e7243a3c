import ClassCompiler.Settings
import ClassCompiler.Json.Decoder

/-!
# Settings in documents

Settings are a record whose parts may all be left out.
-/

namespace ClassCompiler.Settings

open Json (Decoder)

def decode : Decoder Settings
  | depth + 1, json =>
    match json.parts ["optimize", "maxRegisters"] with
    | some [optimize, maxRegisters] => do
      return {
        optimize := ← Json.orElse false Json.bool? optimize
        maxRegisters := ←
          Json.orElse none (Json.nullable (fun _ => Json.uint16?) depth) maxRegisters }
    | _ => none
  | 0, _ => none

def encode (settings : Settings) : Json :=
  .ofMembers [
    ("optimize", .bool settings.optimize),
    ("maxRegisters", .ofOption (fun bound => .nat bound.toNat) settings.maxRegisters)]

def read (json : Json) : Option Settings := decode Json.maxNesting json

end ClassCompiler.Settings
