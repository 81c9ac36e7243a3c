import ClassCompiler.Json.Token

/-!
# Reading JSON

The reader takes tokens one at a time and keeps a stack of the arrays and objects that are open, so
a document may nest to any depth.
-/

namespace ClassCompiler.Json

/-- An open array or object with what is complete of it, last first. An open object also has the
name of the member whose value is being read. -/
inductive Frame where
  | array (items : List Json)
  | object (members : List (Option String × Json)) (name : Option String)

/-- What the reader waits for. A container that has just been opened (`fresh`) may close at once. -/
inductive Reader where
  | value (fresh : Bool) (stack : List Frame)
  | name (fresh : Bool) (members : List (Option String × Json)) (stack : List Frame)
  | colon (members : List (Option String × Json)) (name : Option String) (stack : List Frame)
  | done (value : Json) (stack : List Frame)

namespace Reader

def initial : Reader := .value false []

/-- Takes one token; a token that cannot stand there stops the reader. -/
def step : Reader → Token → Option Reader
  | .value _ stack, .scalar json => some (.done json stack)
  | .value _ stack, .text content => some (.done (.text content) stack)
  | .value _ stack, .openArray => some (.value true (.array [] :: stack))
  | .value _ stack, .openObject => some (.name true [] stack)
  | .value true (.array [] :: stack), .closeArray => some (.done (.array []) stack)
  | .name _ members stack, .text content => some (.colon members content stack)
  | .name true [] stack, .closeObject => some (.done (.object []) stack)
  | .colon members key stack, .colon => some (.value false (.object members key :: stack))
  | .done json (.array items :: stack), .comma => some (.value false (.array (json :: items) :: stack))
  | .done json (.array items :: stack), .closeArray =>
    some (.done (.array (json :: items).reverse) stack)
  | .done json (.object members key :: stack), .comma =>
    some (.name false ((key, json) :: members) stack)
  | .done json (.object members key :: stack), .closeObject =>
    some (.done (.object ((key, json) :: members).reverse) stack)
  | _, _ => none

def finish : Reader → Option Json
  | .done json [] => some json
  | _ => none

end Reader

def ofTokens (tokens : List Token) : Option Json := do
  (← tokens.foldlM Reader.step Reader.initial).finish

/-- The value of a JSON text, or none if the text is not JSON. -/
def read (text : String) : Option Json := do
  ofTokens (← scan text.toList)

end ClassCompiler.Json
