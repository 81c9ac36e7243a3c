import ClassCompiler.Json.Basic

/-!
# Values of other types in JSON

A decoder is given the number of arrays and objects that may still be entered. A document that
nests deeper is refused, while the values of members that nobody asks for may nest as they like.
-/

namespace ClassCompiler.Json

def maxNesting : Nat := 127

/-- Takes a value of type `α` from a JSON value that may enter the given number of containers. -/
def Decoder (α : Type) : Type := Nat → Json → Option α

def text? : Json → Option String
  | .text content => content
  | _ => none

def bool? : Json → Option Bool
  | .bool value => some value
  | _ => none

def int? (low high : Int) : Json → Option Int
  | .int value => if low ≤ value && value ≤ high then some value else none
  | _ => none

def int32? (json : Json) : Option Int32 := (json.int? (-2147483648) 2147483647).map Int32.ofInt

def uint32? (json : Json) : Option UInt32 :=
  (json.int? 0 4294967295).map fun value => UInt32.ofNat value.toNat

def uint16? (json : Json) : Option UInt16 :=
  (json.int? 0 65535).map fun value => UInt16.ofNat value.toNat

/-- All items of an array, each decoded one level further in. -/
def list {α : Type} (item : Decoder α) : Decoder (List α)
  | depth + 1, .array items => items.mapM (item depth)
  | _, _ => none

/-- Null for a missing value. -/
def nullable {α : Type} (value : Decoder α) : Decoder (Option α)
  | _, .null => some none
  | depth, json => (value depth json).map some

/-- A member that may be left out, and what it is then. -/
def orElse {α : Type} (missing : α) (decode : Json → Option α) : Option Json → Option α
  | none => some missing
  | some json => decode json

/-- The value of the one member of that name: `none` if there are several, `some none` if there is
no such member. -/
def member? (members : List (Option String × Json)) (name : String) : Option (Option Json) :=
  match members.filter (·.1 = some name) with
  | [] => some none
  | [(_, value)] => some (some value)
  | _ => none

/-- The values given for the named parts of a record, in the order of the names. A record is written
as an object, which names the parts it gives, at most once each, and may have other members; or as
an array, which gives the first parts in order. -/
def parts (names : List String) : Json → Option (List (Option Json))
  | .object members =>
    if members.any (·.1.isNone) then none else names.mapM (member? members)
  | .array items =>
    if items.length ≤ names.length then
      some (items.map some ++ List.replicate (names.length - items.length) none)
    else none
  | _ => none

def members {α : Type} (value : Decoder α) : Decoder (List (String × α))
  | depth + 1, .object members =>
    members.mapM fun member => do return (← member.1, ← value depth member.2)
  | _, _ => none

end ClassCompiler.Json
