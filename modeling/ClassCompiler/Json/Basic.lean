/-!
# JSON values

Objects keep their members in the order of the document, repeated names included, since what a
repeated name means depends on what the object describes.
-/

namespace ClassCompiler

/-- A JSON value. A number that is written with a fraction, an exponent or as minus zero is `real`:
no field of any document takes one, so its value is not kept. A text is `none` when it escapes a
surrogate without its partner and so names no sequence of characters. -/
inductive Json where
  | null
  | bool (value : Bool)
  | int (value : Int)
  | real
  | text (content : Option String)
  | array (items : List Json)
  | object (members : List (Option String × Json))
deriving Inhabited

namespace Json

def string (content : String) : Json := .text (some content)

def nat (value : Nat) : Json := .int value

def ofMembers (members : List (String × Json)) : Json :=
  .object (members.map fun member => (some member.1, member.2))

def strings (contents : List String) : Json := .array (contents.map string)

def ofOption {α : Type} (encode : α → Json) : Option α → Json
  | none => .null
  | some value => encode value

end Json

end ClassCompiler
