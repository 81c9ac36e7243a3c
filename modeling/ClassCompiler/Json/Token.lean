import ClassCompiler.Json.Basic

/-!
# Tokens of JSON text

The scanner takes a text one character at a time and finds its tokens. It needs no look-ahead: a
number or a word ends with the first character that does not continue it.
-/

namespace ClassCompiler.Json

/-- A token. Texts stand apart from the other scalars because a text also names a member. -/
inductive Token where
  | openArray
  | closeArray
  | openObject
  | closeObject
  | comma
  | colon
  | text (content : Option String)
  | scalar (value : Json)

/-- The characters of a sequence of UTF-16 units after those already found (last first), where a
unit above the surrogates stands for the character of that code. A surrogate without its partner
names no character. -/
def joinUnits (found : List Char) : List Nat → Option (List Char)
  | [] => some found.reverse
  | high :: low :: rest =>
    if 0xD800 ≤ high && high ≤ 0xDBFF && 0xDC00 ≤ low && low ≤ 0xDFFF then
      joinUnits (Char.ofNat (0x10000 + (high - 0xD800) * 0x400 + (low - 0xDC00)) :: found) rest
    else if 0xD800 ≤ high && high ≤ 0xDFFF then none
    else joinUnits (Char.ofNat high :: found) (low :: rest)
  | [unit] =>
    if 0xD800 ≤ unit && unit ≤ 0xDFFF then none else some (Char.ofNat unit :: found).reverse

def isDigits (chars : List Char) : Bool := !chars.isEmpty && chars.all Char.isDigit

def isExponent : List Char → Bool
  | mark :: '+' :: digits => (mark = 'e' || mark = 'E') && isDigits digits
  | mark :: '-' :: digits => (mark = 'e' || mark = 'E') && isDigits digits
  | mark :: digits => (mark = 'e' || mark = 'E') && isDigits digits
  | [] => false

/-- What may follow the whole part of a number that is not an integer. -/
def isFractional : List Char → Bool
  | '.' :: rest =>
    let exponent := rest.dropWhile Char.isDigit
    isDigits (rest.takeWhile Char.isDigit) && (exponent.isEmpty || isExponent exponent)
  | rest => isExponent rest

def digitsValue (digits : List Char) : Nat :=
  digits.foldl (fun value digit => value * 10 + (digit.toNat - '0'.toNat)) 0

/-- A number without its sign: the whole part has no leading zero. -/
def magnitude (negative : Bool) (chars : List Char) : Option Json :=
  let whole := chars.takeWhile Char.isDigit
  let rest := chars.dropWhile Char.isDigit
  if whole.isEmpty || (whole.head? = some '0' && whole.length ≠ 1) then none
  else if rest.isEmpty then
    if negative then
      some (if digitsValue whole = 0 then .real else .int (-(digitsValue whole)))
    else some (.int (digitsValue whole))
  else if isFractional rest then some .real
  else none

def numeral : List Char → Option Json
  | '-' :: rest => magnitude true rest
  | chars => magnitude false chars

def word (letters : List Char) : Option Json :=
  if letters = ['n', 'u', 'l', 'l'] then some .null
  else if letters = ['t', 'r', 'u', 'e'] then some (.bool true)
  else if letters = ['f', 'a', 'l', 's', 'e'] then some (.bool false)
  else none

/-- The character that a one-letter escape stands for. -/
def escapeUnit (c : Char) : Option Nat :=
  if c = '"' || c = '\\' || c = '/' then some c.toNat
  else if c = 'b' then some 0x08
  else if c = 'f' then some 0x0C
  else if c = 'n' then some 0x0A
  else if c = 'r' then some 0x0D
  else if c = 't' then some 0x09
  else none

def hexDigit (c : Char) : Option Nat :=
  if c.isDigit then some (c.toNat - '0'.toNat)
  else if 'a' ≤ c && c ≤ 'f' then some (c.toNat - 'a'.toNat + 10)
  else if 'A' ≤ c && c ≤ 'F' then some (c.toNat - 'A'.toNat + 10)
  else none

/-- What the scanner is in the middle of. The characters seen of it come last first. -/
inductive Mode where
  | between
  | word (letters : List Char)
  | numeral (chars : List Char)
  | text (units : List Nat)
  | escape (units : List Nat)
  | code (units digits : List Nat)

/-- The tokens found so far, last first, and the unfinished one. -/
structure Scanner where
  tokens : List Token
  mode : Mode

namespace Scanner

def initial : Scanner := ⟨[], .between⟩

/-- Takes a character that does not continue a token. -/
def begin (tokens : List Token) (c : Char) : Option Scanner :=
  if c = ' ' || c = '\n' || c = '\t' || c = '\r' then some ⟨tokens, .between⟩
  else if c = '[' then some ⟨.openArray :: tokens, .between⟩
  else if c = ']' then some ⟨.closeArray :: tokens, .between⟩
  else if c = '\x7b' then some ⟨.openObject :: tokens, .between⟩
  else if c = '\x7d' then some ⟨.closeObject :: tokens, .between⟩
  else if c = ',' then some ⟨.comma :: tokens, .between⟩
  else if c = ':' then some ⟨.colon :: tokens, .between⟩
  else if c = '"' then some ⟨tokens, .text []⟩
  else if c = '-' || c.isDigit then some ⟨tokens, .numeral [c]⟩
  else if c.isLower then some ⟨tokens, .word [c]⟩
  else none

def continuesNumeral (c : Char) : Bool :=
  c.isDigit || c = '.' || c = 'e' || c = 'E' || c = '+' || c = '-'

/-- Takes one character; a character that no JSON text has there stops the scan. -/
def step : Scanner → Char → Option Scanner
  | ⟨tokens, .between⟩, c => begin tokens c
  | ⟨tokens, .word letters⟩, c =>
    if c.isLower then some ⟨tokens, .word (c :: letters)⟩
    else do begin (.scalar (← word letters.reverse) :: tokens) c
  | ⟨tokens, .numeral chars⟩, c =>
    if continuesNumeral c then some ⟨tokens, .numeral (c :: chars)⟩
    else do begin (.scalar (← numeral chars.reverse) :: tokens) c
  | ⟨tokens, .text units⟩, c =>
    if c = '"' then
      some ⟨.text ((joinUnits [] units.reverse).map String.ofList) :: tokens, .between⟩
    else if c = '\\' then some ⟨tokens, .escape units⟩
    else if c < ' ' then none
    else some ⟨tokens, .text (c.toNat :: units)⟩
  | ⟨tokens, .escape units⟩, c =>
    if c = 'u' then some ⟨tokens, .code units []⟩
    else do return ⟨tokens, .text ((← escapeUnit c) :: units)⟩
  | ⟨tokens, .code units digits⟩, c => do
    let digit ← hexDigit c
    match digits with
    | [third, second, first] =>
      return ⟨tokens, .text ((((first * 16 + second) * 16 + third) * 16 + digit) :: units)⟩
    | _ => return ⟨tokens, .code units (digit :: digits)⟩

def finish : Scanner → Option (List Token)
  | ⟨tokens, .between⟩ => some tokens.reverse
  | ⟨tokens, .word letters⟩ => do return (.scalar (← word letters.reverse) :: tokens).reverse
  | ⟨tokens, .numeral chars⟩ => do return (.scalar (← numeral chars.reverse) :: tokens).reverse
  | _ => none

end Scanner

def scan (chars : List Char) : Option (List Token) := do
  (← chars.foldlM Scanner.step Scanner.initial).finish

end ClassCompiler.Json
