import ClassCompiler.Json.Token

/-!
# Writing JSON

A value is written as a sequence of tokens and a token as a sequence of characters. Nothing is
written between tokens.
-/

namespace ClassCompiler.Json

mutual

def tokens : Json → List Token
  | .text content => [.text content]
  | .array items => .openArray :: itemTokens items ++ [.closeArray]
  | .object members => .openObject :: memberTokens members ++ [.closeObject]
  | value => [.scalar value]

def itemTokens : List Json → List Token
  | [] => []
  | first :: rest => tokens first ++ moreItemTokens rest

def moreItemTokens : List Json → List Token
  | [] => []
  | item :: rest => .comma :: tokens item ++ moreItemTokens rest

def memberTokens : List (Option String × Json) → List Token
  | [] => []
  | (name, value) :: rest => .text name :: .colon :: tokens value ++ moreMemberTokens rest

def moreMemberTokens : List (Option String × Json) → List Token
  | [] => []
  | (name, value) :: rest =>
    .comma :: .text name :: .colon :: tokens value ++ moreMemberTokens rest

end

def hexChar (digit : Nat) : Char :=
  if digit < 10 then Char.ofNat ('0'.toNat + digit) else Char.ofNat ('a'.toNat + (digit - 10))

def escape (c : Char) : List Char :=
  if c = '"' then ['\\', '"']
  else if c = '\\' then ['\\', '\\']
  else if c = '\x08' then ['\\', 'b']
  else if c = '\x0c' then ['\\', 'f']
  else if c = '\n' then ['\\', 'n']
  else if c = '\r' then ['\\', 'r']
  else if c = '\t' then ['\\', 't']
  else if c < ' ' then ['\\', 'u', '0', '0', hexChar (c.toNat / 16), hexChar (c.toNat % 16)]
  else [c]

/-- The text of a value that is neither a text nor a container. A number whose value is not kept is
written as one half, and a text without characters as an unpaired surrogate, so that each of them
reads back as it was. -/
def Token.chars : Token → List Char
  | .openArray => ['[']
  | .closeArray => [']']
  | .openObject => ['\x7b']
  | .closeObject => ['\x7d']
  | .comma => [',']
  | .colon => [':']
  | .text none => ['"', '\\', 'u', 'd', '8', '0', '0', '"']
  | .text (some content) => '"' :: content.toList.flatMap escape ++ ['"']
  | .scalar .null => ['n', 'u', 'l', 'l']
  | .scalar (.bool true) => ['t', 'r', 'u', 'e']
  | .scalar (.bool false) => ['f', 'a', 'l', 's', 'e']
  | .scalar (.int value) => (toString value).toList
  | .scalar _ => ['0', '.', '5']

def print (value : Json) : String := String.ofList (value.tokens.flatMap Token.chars)

end ClassCompiler.Json
