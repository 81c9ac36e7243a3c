import ClassCompiler.Json.Printer
import Mathlib.Data.List.TakeWhile

/-!
# Scanning what is written

The scanner finds the tokens that were written. A text or a sign ends with its own last character,
but a word or a number ends only with the character after it, so a scalar must not stand right after
another one. `Resumes` is for tokens that may follow a scalar, `Scans` for those that may not.
-/

namespace ClassCompiler.Json

theorem digitsValue_toDigits (n : Nat) : digitsValue (Nat.toDigits 10 n) = n := by
  have hvalue := Nat.ofDigitChars_ten_toDigits (n := n)
  rw [Nat.ofDigitChars] at hvalue
  simpa only [digitsValue, Nat.mul_comm] using hvalue

theorem isDigit_of_mem_digits {n : Nat} {c : Char} (h : c ∈ Nat.toDigits 10 n) : c.isDigit = true :=
  Nat.isDigit_of_mem_toDigits (by decide) (by decide) h

/-- Only zero is written with a zero in front. -/
theorem eq_zero_of_head?_toDigits (n : Nat) (h : (Nat.toDigits 10 n).head? = some '0') : n = 0 := by
  induction n using Nat.strongRecOn with
  | ind n ih =>
    by_cases hlt : n < 10
    · rw [Nat.toDigits_of_lt_base hlt] at h
      exact Nat.digitChar_eq_zero.mp (Option.some.inj h)
    · rw [Nat.toDigits_of_base_le (by decide) (by omega), List.head?_append,
        Option.or_of_isSome (by simp)] at h
      have hzero : n / 10 = 0 := ih (n / 10) (by omega) h
      omega

/-- The digits of a number denote it. Minus zero is not kept as an integer. -/
theorem magnitude_toDigits (negative : Bool) (n : Nat) :
    magnitude negative (Nat.toDigits 10 n) =
      if negative then some (if n = 0 then .real else .int (-n)) else some (.int n) := by
  have hwhole : (Nat.toDigits 10 n).takeWhile Char.isDigit = Nat.toDigits 10 n :=
    List.takeWhile_eq_self_iff.mpr fun _ => isDigit_of_mem_digits
  have hrest : (Nat.toDigits 10 n).dropWhile Char.isDigit = [] :=
    List.dropWhile_eq_nil_iff.mpr fun _ => isDigit_of_mem_digits
  have hlead : ¬ ((Nat.toDigits 10 n).isEmpty ||
      ((Nat.toDigits 10 n).head? = some '0' && (Nat.toDigits 10 n).length ≠ 1)) := by
    simp only [Bool.or_eq_true, Bool.and_eq_true, decide_eq_true_eq, List.isEmpty_iff,
      Nat.toDigits_ne_nil, false_or, not_and]
    intro hzero hlength
    obtain rfl := eq_zero_of_head?_toDigits n hzero
    exact hlength (by decide)
  simp only [magnitude, hwhole, hrest, if_neg hlead, digitsValue_toDigits, List.isEmpty_nil,
    if_true]

/-- A whole number is written with its digits, after a sign if it is negative. -/
theorem toList_toString_int (value : Int) :
    (toString value).toList =
      if 0 ≤ value then Nat.toDigits 10 value.toNat else '-' :: Nat.toDigits 10 (-value).toNat := by
  change value.repr.toList = _
  rw [Int.repr_eq_if]
  split
  · rw [Nat.repr_eq_ofList_toDigits, String.toList_ofList]
  · rw [Nat.repr_eq_ofList_toDigits, String.toList_append]
    simp

theorem numeral_toDigits (n : Nat) : numeral (Nat.toDigits 10 n) = some (.int n) := by
  have hsign : ∀ rest, Nat.toDigits 10 n ≠ '-' :: rest := by
    intro rest h
    have hdigit := isDigit_of_mem_digits (n := n) (h ▸ List.mem_cons_self)
    exact absurd hdigit (by decide)
  rw [numeral]
  · exact magnitude_toDigits false n
  · exact hsign

theorem numeral_toString (value : Int) : numeral (toString value).toList = some (.int value) := by
  rw [toList_toString_int]
  split
  · next hnonneg => rw [numeral_toDigits, Int.toNat_of_nonneg hnonneg]
  · next hneg =>
    rw [numeral, magnitude_toDigits, if_pos rfl, if_neg (by omega)]
    congr 2
    omega

/-- The code of a character is no surrogate. -/
theorem not_isSurrogate (c : Char) : ¬ (0xD800 ≤ c.toNat ∧ c.toNat ≤ 0xDFFF) := by
  have hvalid : c.toNat < 0xD800 ∨ 0xDFFF < c.toNat ∧ c.toNat < 0x110000 := c.valid
  omega

/-- Characters that are written as themselves need no surrogates. -/
theorem joinUnits_codes (found chars : List Char) :
    joinUnits found (chars.map Char.toNat) = some (found.reverse ++ chars) := by
  induction chars generalizing found with
  | nil => simp [joinUnits]
  | cons c rest ih =>
    have hplain := not_isSurrogate c
    have hlone : (0xD800 ≤ c.toNat && c.toNat ≤ 0xDFFF) = false := by
      simpa only [Bool.and_eq_false_iff, decide_eq_false_iff_not, ← not_and_or] using hplain
    cases rest with
    | nil => simp [joinUnits, hlone, Char.ofNat_toNat]
    | cons next rest =>
      have hpair : (0xD800 ≤ c.toNat && c.toNat ≤ 0xDBFF && 0xDC00 ≤ next.toNat &&
          next.toNat ≤ 0xDFFF) = false := by
        simp only [Bool.and_eq_false_iff, decide_eq_false_iff_not]
        omega
      have hrest := ih (c :: found)
      rw [List.map_cons] at hrest
      simp [joinUnits, hpair, hlone, Char.ofNat_toNat, hrest]

theorem hexDigit_hexChar : ∀ digit < 16, hexDigit (hexChar digit) = some digit := by decide

namespace Scanner

/-- An escaped character is one unit of the text that the scanner is in. -/
theorem foldlM_escape (found : List Token) (units : List Nat) (c : Char) :
    (escape c).foldlM step ⟨found, .text units⟩ = some ⟨found, .text (c.toNat :: units)⟩ := by
  by_cases hnamed : c = '"' ∨ c = '\\' ∨ c = '\x08' ∨ c = '\x0c' ∨ c = '\n' ∨ c = '\r' ∨ c = '\t'
  · rcases hnamed with rfl | rfl | rfl | rfl | rfl | rfl | rfl <;> rfl
  · obtain ⟨hquote, hslash, hb, hf, hn, hr, ht⟩ : c ≠ '"' ∧ c ≠ '\\' ∧ c ≠ '\x08' ∧ c ≠ '\x0c' ∧
        c ≠ '\n' ∧ c ≠ '\r' ∧ c ≠ '\t' := by simpa only [not_or] using hnamed
    rw [escape, if_neg hquote, if_neg hslash, if_neg hb, if_neg hf, if_neg hn, if_neg hr, if_neg ht]
    by_cases hcontrol : c < ' '
    · have hcode : c.toNat < 32 := hcontrol
      have hhigh := hexDigit_hexChar (c.toNat / 16) (by omega)
      have hlow := hexDigit_hexChar (c.toNat % 16) (by omega)
      have hzero : hexDigit '0' = some 0 := by decide
      have hunit : c.toNat / 16 * 16 + c.toNat % 16 = c.toNat := Nat.div_add_mod' _ 16
      simp [hcontrol, step, hzero, hhigh, hlow, hunit]
    · simp [hcontrol, step, hquote, hslash]

theorem foldlM_escapes (found : List Token) (units : List Nat) (content : List Char) :
    (content.flatMap escape).foldlM step ⟨found, .text units⟩ =
      some ⟨found, .text ((content.map Char.toNat).reverse ++ units)⟩ := by
  induction content generalizing units with
  | nil => rfl
  | cons c rest ih =>
    rw [List.flatMap_cons, List.foldlM_append, foldlM_escape, Option.bind_eq_bind, Option.bind_some,
      ih, List.map_cons, List.reverse_cons, List.append_assoc, List.singleton_append]

/-- A character that continues neither a word nor a number. -/
def delimits (c : Char) : Bool := !c.isLower && !continuesNumeral c

/-- The scanner has found these tokens, last first, also if it is still in the last of them. -/
structure Ends (scanner : Scanner) (found : List Token) : Prop where
  finish : scanner.finish = some found.reverse
  step : ∀ c, delimits c → scanner.step c = begin found c

theorem ends_between (found : List Token) : Ends ⟨found, .between⟩ found := ⟨rfl, fun _ _ => rfl⟩

theorem ends_word {letters : List Char} {value : Json} (found : List Token)
    (h : word letters.reverse = some value) :
    Ends ⟨found, .word letters⟩ (.scalar value :: found) := by
  constructor
  · simp [Scanner.finish, h]
  · intro c hc
    have hlower : c.isLower = false := by simp_all [delimits]
    simp [Scanner.step, hlower, h]

theorem ends_numeral {chars : List Char} {value : Json} (found : List Token)
    (h : numeral chars.reverse = some value) :
    Ends ⟨found, .numeral chars⟩ (.scalar value :: found) := by
  constructor
  · simp [Scanner.finish, h]
  · intro c hc
    have hcontinues : continuesNumeral c = false := by simp_all [delimits]
    simp [Scanner.step, hcontinues, h]

theorem begin_of_isNumeral (found : List Token) {c : Char} (h : c = '-' ∨ c.isDigit = true) :
    begin found c = some ⟨found, .numeral [c]⟩ := by
  have hne : ∀ other : Char, other ≠ '-' → other.isDigit = false → c ≠ other := by
    rintro other hsign hdigit rfl
    simp_all
  rw [begin, if_neg, if_neg (hne '[' (by decide) (by decide)),
    if_neg (hne ']' (by decide) (by decide)), if_neg (hne '\x7b' (by decide) (by decide)),
    if_neg (hne '\x7d' (by decide) (by decide)), if_neg (hne ',' (by decide) (by decide)),
    if_neg (hne ':' (by decide) (by decide)), if_neg (hne '"' (by decide) (by decide)),
    if_pos (by simpa using h)]
  simp [hne ' ' (by decide) (by decide), hne '\n' (by decide) (by decide),
    hne '\t' (by decide) (by decide), hne '\r' (by decide) (by decide)]

theorem foldlM_numeral (found : List Token) {chars : List Char} (seen : List Char)
    (h : ∀ c ∈ chars, continuesNumeral c = true) :
    chars.foldlM step ⟨found, .numeral seen⟩ = some ⟨found, .numeral (chars.reverse ++ seen)⟩ := by
  induction chars generalizing seen with
  | nil => rfl
  | cons c rest ih =>
    obtain ⟨hc, hrest⟩ := List.forall_mem_cons.mp h
    rw [List.foldlM_cons, step, if_pos hc, Option.bind_eq_bind, Option.bind_some, ih _ hrest,
      List.reverse_cons, List.append_assoc, List.singleton_append]

/-- A number is scanned to its end, and there is known. -/
theorem exists_ends_numeral (found : List Token) {first : Char} {rest : List Char} {value : Json}
    (hfirst : first = '-' ∨ first.isDigit = true) (hrest : ∀ c ∈ rest, continuesNumeral c = true)
    (h : numeral (first :: rest) = some value) :
    ∃ scanner, (first :: rest).foldlM step ⟨found, .between⟩ = some scanner ∧
      scanner.Ends (.scalar value :: found) := by
  refine ⟨⟨found, .numeral (rest.reverse ++ [first])⟩, ?_, ends_numeral found ?_⟩
  · rw [List.foldlM_cons, step, begin_of_isNumeral found hfirst, Option.bind_eq_bind,
      Option.bind_some, foldlM_numeral found [first] hrest]
  · simpa using h

end Scanner

/-- Tokens that the scanner finds if it is in no other. -/
def Scans (tokens : List Token) : Prop :=
  ∀ found, ∃ scanner,
    (tokens.flatMap Token.chars).foldlM Scanner.step ⟨found, .between⟩ = some scanner ∧
    scanner.Ends (tokens.reverse ++ found)

/-- Tokens that the scanner also finds right after any other. -/
def Resumes (tokens : List Token) : Prop :=
  ∀ scanner found, scanner.Ends found →
    ∃ scanner', (tokens.flatMap Token.chars).foldlM Scanner.step scanner = some scanner' ∧
      scanner'.Ends (tokens.reverse ++ found)

theorem Resumes.scans {tokens : List Token} (h : Resumes tokens) : Scans tokens :=
  fun found => h _ found (Scanner.ends_between found)

theorem resumes_nil : Resumes [] := fun scanner _ hends => ⟨scanner, rfl, hends⟩

theorem Scans.append {first rest : List Token} (hfirst : Scans first) (hrest : Resumes rest) :
    Scans (first ++ rest) := by
  intro found
  obtain ⟨scanner, hscanner, hends⟩ := hfirst found
  obtain ⟨scanner', hscanner', hends'⟩ := hrest scanner _ hends
  refine ⟨scanner', ?_, ?_⟩
  · rw [List.flatMap_append, List.foldlM_append, hscanner, Option.bind_eq_bind, Option.bind_some,
      hscanner']
  · rwa [List.reverse_append, List.append_assoc]

/-- A token whose first character ends the token before it and whose last character ends itself. -/
def Bounded (token : Token) : Prop :=
  ∀ scanner found, scanner.Ends found →
    token.chars.foldlM Scanner.step scanner = some ⟨token :: found, .between⟩

theorem Bounded.resumes {token : Token} (h : Bounded token) {rest : List Token}
    (hrest : Scans rest) : Resumes (token :: rest) := by
  intro scanner found hends
  obtain ⟨scanner', hscanner', hends'⟩ := hrest (token :: found)
  refine ⟨scanner', ?_, ?_⟩
  · rw [List.flatMap_cons, List.foldlM_append, h scanner found hends, Option.bind_eq_bind,
      Option.bind_some, hscanner']
  · rwa [List.reverse_cons, List.append_assoc, List.singleton_append]

/-- A token of one sign. -/
theorem bounded_sign {token : Token} {c : Char} (hchars : token.chars = [c])
    (hdelimits : Scanner.delimits c)
    (hbegin : ∀ found, Scanner.begin found c = some ⟨token :: found, .between⟩) :
    Bounded token := by
  intro scanner found hends
  rw [hchars, List.foldlM_cons, hends.step c hdelimits, hbegin found]
  rfl

theorem bounded_openArray : Bounded .openArray := bounded_sign rfl (by decide) fun _ => rfl

theorem bounded_closeArray : Bounded .closeArray := bounded_sign rfl (by decide) fun _ => rfl

theorem bounded_openObject : Bounded .openObject := bounded_sign rfl (by decide) fun _ => rfl

theorem bounded_closeObject : Bounded .closeObject := bounded_sign rfl (by decide) fun _ => rfl

theorem bounded_comma : Bounded .comma := bounded_sign rfl (by decide) fun _ => rfl

theorem bounded_colon : Bounded .colon := bounded_sign rfl (by decide) fun _ => rfl

theorem bounded_text (content : Option String) : Bounded (.text content) := by
  intro scanner found hends
  have hquote := hends.step '"' (by decide)
  cases content with
  | none =>
    rw [Token.chars, List.foldlM_cons, hquote]
    rfl
  | some content =>
    have hunits := joinUnits_codes [] content.toList
    have hbegin : Scanner.begin found '"' = some ⟨found, .text []⟩ := rfl
    rw [Token.chars, List.cons_append, List.foldlM_cons, hquote, hbegin, Option.bind_eq_bind,
      Option.bind_some, List.foldlM_append, Scanner.foldlM_escapes]
    simp [Scanner.step, hunits, String.ofList_toList]

/-- The values that are one token and no text. -/
def IsScalar : Json → Prop
  | .null | .bool _ | .int _ | .real => True
  | .text _ | .array _ | .object _ => False

/-- An integer is one token, with or without a sign. -/
theorem scans_int (value : Int) : Scans [.scalar (.int value)] := by
  intro found
  have hdigits : ∀ {n : Nat}, ∀ c ∈ Nat.toDigits 10 n, Scanner.continuesNumeral c = true := by
    intro n c hc
    simp [Scanner.continuesNumeral, isDigit_of_mem_digits hc]
  have hnumeral := numeral_toString value
  rw [List.flatMap_singleton, Token.chars]
  rw [toList_toString_int] at hnumeral ⊢
  by_cases hsign : 0 ≤ value
  · rw [if_pos hsign] at hnumeral ⊢
    cases hchars : Nat.toDigits 10 value.toNat with
    | nil => exact absurd hchars Nat.toDigits_ne_nil
    | cons first rest =>
      rw [hchars] at hnumeral
      have hfirst : first ∈ Nat.toDigits 10 value.toNat := hchars ▸ List.mem_cons_self
      refine Scanner.exists_ends_numeral found (.inr (isDigit_of_mem_digits hfirst)) ?_ hnumeral
      intro c hc
      exact hdigits c (hchars ▸ List.mem_cons_of_mem first hc)
  · rw [if_neg hsign] at hnumeral ⊢
    exact Scanner.exists_ends_numeral found (.inl rfl) hdigits hnumeral

/-- Every value without parts is one token. -/
theorem scans_scalar {value : Json} (h : IsScalar value) : Scans [.scalar value] := by
  cases value with
  | null => exact fun found => ⟨_, rfl, Scanner.ends_word found rfl⟩
  | bool value =>
    cases value with
    | true => exact fun found => ⟨_, rfl, Scanner.ends_word found rfl⟩
    | false => exact fun found => ⟨_, rfl, Scanner.ends_word found rfl⟩
  | real =>
    have hrest : ['.', '5'].all Scanner.continuesNumeral = true := rfl
    exact fun found => Scanner.exists_ends_numeral found (.inr rfl) (List.all_eq_true.mp hrest) rfl
  | int value => exact scans_int value
  | text content => exact h.elim
  | array items => exact h.elim
  | object members => exact h.elim

theorem Scans.scan {tokens : List Token} (h : Scans tokens) :
    scan (tokens.flatMap Token.chars) = some tokens := by
  obtain ⟨scanner, hscanner, hends⟩ := h []
  rw [Json.scan, Scanner.initial, hscanner, Option.bind_eq_bind, Option.bind_some, hends.finish,
    List.append_nil, List.reverse_reverse]

end ClassCompiler.Json
