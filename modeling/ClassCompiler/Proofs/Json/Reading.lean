import ClassCompiler.Json.Reader
import ClassCompiler.Proofs.Json.Scanning

/-!
# Reading what is written

The text of a value reads back as that value, for every value: the scanner finds the tokens that
were written, and the reader builds the value from them.
-/

namespace ClassCompiler.Json

/-- What holds of every value that is no container, and of a container if it holds of its parts,
holds of every value. -/
theorem induction_on_contents {P : Json → Prop} (scalar : ∀ value, IsScalar value → P value)
    (text : ∀ content, P (.text content))
    (array : ∀ items, (∀ item ∈ items, P item) → P (.array items))
    (object : ∀ members, (∀ member ∈ members, P member.2) → P (.object members)) (value : Json) :
    P value := by
  match value with
  | .null => exact scalar _ trivial
  | .bool _ => exact scalar _ trivial
  | .int _ => exact scalar _ trivial
  | .real => exact scalar _ trivial
  | .text content => exact text content
  | .array items =>
    exact array items fun item _ => induction_on_contents scalar text array object item
  | .object members =>
    exact object members fun member _ => induction_on_contents scalar text array object member.2
termination_by sizeOf value
decreasing_by
  · rename_i hitem
    have hlt := List.sizeOf_lt_of_mem hitem
    simp only [Json.array.sizeOf_spec]
    omega
  · rename_i hmember
    have hlt := List.sizeOf_lt_of_mem hmember
    have hpart : sizeOf member.2 < sizeOf member := by
      cases member
      simp only [Prod.mk.sizeOf_spec]
      omega
    simp only [Json.object.sizeOf_spec]
    omega

theorem tokens_scalar {value : Json} (h : IsScalar value) : value.tokens = [.scalar value] := by
  cases value with
  | null => rfl
  | bool value => rfl
  | int value => rfl
  | real => rfl
  | text content => exact h.elim
  | array items => exact h.elim
  | object members => exact h.elim

theorem resumes_moreItemTokens {items : List Json} (h : ∀ item ∈ items, Scans item.tokens) :
    Resumes (moreItemTokens items) := by
  induction items with
  | nil => exact resumes_nil
  | cons item rest ih =>
    obtain ⟨hitem, hrest⟩ := List.forall_mem_cons.mp h
    exact bounded_comma.resumes (hitem.append (ih hrest))

theorem resumes_moreMemberTokens {members : List (Option String × Json)}
    (h : ∀ member ∈ members, Scans member.2.tokens) : Resumes (moreMemberTokens members) := by
  induction members with
  | nil => exact resumes_nil
  | cons member rest ih =>
    obtain ⟨hmember, hrest⟩ := List.forall_mem_cons.mp h
    have hvalue := bounded_colon.resumes (hmember.append (ih hrest))
    exact bounded_comma.resumes ((bounded_text member.1).resumes hvalue.scans).scans

/-- No two scalars of a value stand side by side. -/
theorem scans_tokens (value : Json) : Scans value.tokens := by
  induction value using induction_on_contents with
  | scalar value hscalar =>
    rw [tokens_scalar hscalar]
    exact scans_scalar hscalar
  | text content => exact ((bounded_text content).resumes resumes_nil.scans).scans
  | array items ih =>
    have hclose := bounded_closeArray.resumes resumes_nil.scans
    refine (bounded_openArray.resumes ?_).scans
    cases items with
    | nil => exact hclose.scans
    | cons first rest =>
      obtain ⟨hfirst, hrest⟩ := List.forall_mem_cons.mp ih
      exact (hfirst.append (resumes_moreItemTokens hrest)).append hclose
  | object members ih =>
    have hclose := bounded_closeObject.resumes resumes_nil.scans
    refine (bounded_openObject.resumes ?_).scans
    cases members with
    | nil => exact hclose.scans
    | cons first rest =>
      obtain ⟨hfirst, hrest⟩ := List.forall_mem_cons.mp ih
      have hvalue := bounded_colon.resumes (hfirst.append (resumes_moreMemberTokens hrest))
      exact ((bounded_text first.1).resumes hvalue.scans).scans.append hclose

theorem scan_print (value : Json) : scan value.print.toList = some value.tokens := by
  rw [print, String.toList_ofList, (scans_tokens value).scan]

/-- Tokens that give the reader a value wherever it waits for one. -/
def Gives (tokens : List Token) (value : Json) : Prop :=
  ∀ fresh stack, tokens.foldlM Reader.step (.value fresh stack) = some (.done value stack)

theorem foldlM_cons_of_step {reader reader' : Reader} {token : Token}
    (h : reader.step token = some reader') (rest : List Token) :
    (token :: rest).foldlM Reader.step reader = rest.foldlM Reader.step reader' := by
  rw [List.foldlM_cons, h]
  rfl

theorem Gives.foldlM_append {tokens : List Token} {value : Json} (h : Gives tokens value)
    (fresh : Bool) (stack : List Frame) (rest : List Token) :
    (tokens ++ rest).foldlM Reader.step (.value fresh stack) =
      rest.foldlM Reader.step (.done value stack) := by
  rw [List.foldlM_append, h fresh stack]
  rfl

/-- The items after those that are complete join them. -/
theorem foldlM_moreItemTokens {items : List Json} (h : ∀ item ∈ items, Gives item.tokens item)
    (last : Json) (before : List Json) (stack : List Frame) :
    (moreItemTokens items ++ [Token.closeArray]).foldlM Reader.step
        (.done last (.array before :: stack)) =
      some (.done (.array ((last :: before).reverse ++ items)) stack) := by
  induction items generalizing last before with
  | nil => simp [moreItemTokens, Reader.step]
  | cons item rest ih =>
    obtain ⟨hitem, hrest⟩ := List.forall_mem_cons.mp h
    simp only [moreItemTokens, List.cons_append, List.append_assoc]
    rw [foldlM_cons_of_step rfl, hitem.foldlM_append, ih hrest]
    simp

/-- The members after those that are complete join them. -/
theorem foldlM_moreMemberTokens {members : List (Option String × Json)}
    (h : ∀ member ∈ members, Gives member.2.tokens member.2) (last : Json) (name : Option String)
    (before : List (Option String × Json)) (stack : List Frame) :
    (moreMemberTokens members ++ [Token.closeObject]).foldlM Reader.step
        (.done last (.object before name :: stack)) =
      some (.done (.object (((name, last) :: before).reverse ++ members)) stack) := by
  induction members generalizing last name before with
  | nil => simp [moreMemberTokens, Reader.step]
  | cons member rest ih =>
    obtain ⟨hmember, hrest⟩ := List.forall_mem_cons.mp h
    simp only [moreMemberTokens, List.cons_append, List.append_assoc]
    rw [foldlM_cons_of_step rfl, foldlM_cons_of_step rfl, foldlM_cons_of_step rfl,
      hmember.foldlM_append, ih hrest]
    simp

/-- The reader takes the tokens of a value for that value, whatever is open around it. -/
theorem gives_tokens (value : Json) : Gives value.tokens value := by
  induction value using induction_on_contents with
  | scalar value hscalar =>
    intro fresh stack
    rw [tokens_scalar hscalar]
    simp [Reader.step]
  | text content =>
    intro fresh stack
    simp [tokens, Reader.step]
  | array items ih =>
    intro fresh stack
    have hopen : (Reader.value fresh stack).step .openArray =
        some (.value true (.array [] :: stack)) := by simp [Reader.step]
    rw [tokens, List.cons_append, foldlM_cons_of_step hopen]
    cases items with
    | nil => rfl
    | cons first rest =>
      obtain ⟨hfirst, hrest⟩ := List.forall_mem_cons.mp ih
      rw [itemTokens, List.append_assoc, hfirst.foldlM_append, foldlM_moreItemTokens hrest]
      rfl
  | object members ih =>
    intro fresh stack
    have hopen : (Reader.value fresh stack).step .openObject = some (.name true [] stack) := by
      simp [Reader.step]
    rw [tokens, List.cons_append, foldlM_cons_of_step hopen]
    cases members with
    | nil => rfl
    | cons first rest =>
      obtain ⟨hfirst, hrest⟩ := List.forall_mem_cons.mp ih
      simp only [memberTokens, List.cons_append, List.append_assoc]
      rw [foldlM_cons_of_step rfl, foldlM_cons_of_step rfl, hfirst.foldlM_append,
        foldlM_moreMemberTokens hrest]
      rfl

/-- A value reads back from its text. -/
theorem read_print (value : Json) : read value.print = some value := by
  rw [read, scan_print, Option.bind_eq_bind, Option.bind_some, ofTokens, Reader.initial,
    gives_tokens value false []]
  rfl

end ClassCompiler.Json
