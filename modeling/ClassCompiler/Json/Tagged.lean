import ClassCompiler.Json.Decoder

/-!
# Choices in JSON

A choice without content is written as its tag; a choice with content as an object whose only
member is named by the tag.
-/

namespace ClassCompiler.Json

/-- A choice without content. It may also be written as an object, with null for its content. -/
def tag? : Decoder String
  | _, .text content => content
  | _ + 1, .object [(name, .null)] => name
  | _, _ => none

def tagged (tag : String) (content : Json) : Json := ofMembers [(tag, content)]

end ClassCompiler.Json
