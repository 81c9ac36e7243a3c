import Mathlib.Data.List.Basic
import ClassCompiler.Proofs.Text.Identifiers
import ClassCompiler.Source.Typing

/-!
# Overloaded methods

Methods are kept under their signatures, which are texts. As long as names are identifiers a
signature tells the name and the types it was made of, so methods that share a name and differ in
their parameters do not get in each other's way. A call whose arguments have the types of a declared
method means that method: the last one that was declared with these types, whatever else there is.
-/

namespace ClassCompiler.Source

open Text (IsIdentifier)

namespace Ty

/-- The types that programs write with words of their own. -/
def words : List String := ["int", "boolean", "String", "void"]

/-- The classes in the type are named by identifiers, and not by the word for another type. -/
def WellNamed : Ty → Prop
  | .named name => IsIdentifier name ∧ name ∉ words
  | .array element => element.WellNamed
  | .int | .boolean | .string | .void => True

instance decidableWellNamed : (ty : Ty) → Decidable ty.WellNamed
  | .named name => inferInstanceAs (Decidable (IsIdentifier name ∧ name ∉ words))
  | .array element => decidableWellNamed element
  | .int | .boolean | .string | .void => .isTrue trivial

variable {ty ty' : Ty}

theorem text_ne_empty (h : ty.WellNamed) : ty.text ≠ "" := by
  cases ty with
  | named name => exact h.1.1
  | array element => simp [text]
  | int | boolean | string | void => simp [text]

theorem comma_not_mem_text (h : ty.WellNamed) : ',' ∉ ty.text.toList := by
  induction ty with
  | named name => exact h.1.not_mem (by decide)
  | array element ih => simpa [text] using ih h
  | int | boolean | string | void => decide

/-- The types of arrays are those whose text ends in a bracket. -/
theorem getLast?_text (h : ty.WellNamed) :
    ty.text.toList.getLast? = some ']' ↔ ∃ element, ty = .array element := by
  cases ty with
  | named name =>
    have hbracket : ']' ∉ name.toList := h.1.not_mem (by decide)
    simp only [text, reduceCtorEq, exists_false, iff_false]
    exact fun hlast => hbracket (List.mem_of_getLast? hlast)
  | array element => simp [text]
  | int | boolean | string | void => simp [text]

/-- The type that a text without brackets stands for. -/
def ofWord (word : String) : Ty :=
  if word = "int" then .int
  else if word = "boolean" then .boolean
  else if word = "String" then .string
  else if word = "void" then .void
  else .named word

theorem ofWord_text (h : ty.WellNamed) (plain : ¬ ∃ element, ty = .array element) :
    ofWord ty.text = ty := by
  cases ty with
  | named name =>
    have hname := h.2
    simp only [words, List.mem_cons, List.not_mem_nil, or_false, not_or] at hname
    obtain ⟨hint, hboolean, hstring, hvoid⟩ := hname
    rw [text, ofWord, if_neg hint, if_neg hboolean, if_neg hstring, if_neg hvoid]
  | array element => exact absurd ⟨element, rfl⟩ plain
  | int | boolean | string | void => rfl

theorem array_iff_of_text_eq (h : ty.WellNamed) (h' : ty'.WellNamed) (htext : ty.text = ty'.text) :
    (∃ element, ty = .array element) ↔ ∃ element, ty' = .array element := by
  rw [← getLast?_text h, ← getLast?_text h', htext]

theorem text_inj (h : ty.WellNamed) (h' : ty'.WellNamed) (htext : ty.text = ty'.text) :
    ty = ty' := by
  have harray := array_iff_of_text_eq h h' htext
  induction ty generalizing ty' with
  | array element ih =>
    obtain ⟨element', rfl⟩ := harray.mp ⟨element, rfl⟩
    have helement := (String.append_left_inj _).mp htext
    have hwell : element'.WellNamed := h'
    rw [ih h hwell helement (array_iff_of_text_eq h hwell helement)]
  | named | int | boolean | string | void =>
    rw [← ofWord_text h (by simp), htext, ofWord_text h' (harray.not.mp (by simp))]

theorem map_text_inj {tys tys' : List Ty} (h : ∀ ty ∈ tys, ty.WellNamed)
    (h' : ∀ ty ∈ tys', ty.WellNamed) (htexts : tys.map text = tys'.map text) : tys = tys' := by
  induction tys generalizing tys' with
  | nil => exact (List.map_eq_nil_iff.mp htexts.symm).symm
  | cons first rest ih =>
    obtain ⟨hfirst, hrest⟩ := List.forall_mem_cons.mp h
    obtain ⟨first', rest', rfl, hfirst', hrest'⟩ := List.map_eq_cons_iff.mp htexts.symm
    obtain ⟨hwell, hwells⟩ := List.forall_mem_cons.mp h'
    rw [text_inj hfirst hwell hfirst'.symm, ih hrest hwells hrest'.symm]

end Ty

/-- A signature tells the name and the types of the parameters. -/
theorem signature_inj {name name' : String} {tys tys' : List Ty} (hname : IsIdentifier name)
    (hname' : IsIdentifier name') (htys : ∀ ty ∈ tys, ty.WellNamed)
    (htys' : ∀ ty ∈ tys', ty.WellNamed) (h : signature name tys = signature name' tys') :
    name = name' ∧ tys = tys' := by
  have hparts {tys : List Ty} (htys : ∀ ty ∈ tys, ty.WellNamed) :
      ∀ part ∈ (tys.map Ty.text).map String.toList, part ≠ [] ∧ ',' ∉ part := by
    simp only [List.forall_mem_map]
    intro ty hty
    have hempty := Ty.text_ne_empty (htys ty hty)
    exact ⟨by simpa using hempty, Ty.comma_not_mem_text (htys ty hty)⟩
  have hchars := congrArg String.toList h
  simp only [signature, String.toList_append, String.toList_intercalate,
    List.append_assoc] at hchars
  obtain ⟨hnames, hrest⟩ := Text.append_cons_inj (hname.not_mem (by decide))
    (hname'.not_mem (by decide)) hchars
  have htexts := Text.intercalate_inj (hparts htys) (hparts htys') (List.append_cancel_right hrest)
  refine ⟨String.toList_inj.mp hnames, Ty.map_text_inj htys htys' ?_⟩
  exact List.map_injective_iff.mpr (fun _ _ => String.toList_inj.mp) htexts

namespace Scope

def WellNamed (scope : Scope) : Prop :=
  IsIdentifier scope.name ∧ ∀ parameter ∈ scope.parameters, parameter.ty.WellNamed

instance (scope : Scope) : Decidable scope.WellNamed :=
  inferInstanceAs (Decidable (IsIdentifier scope.name ∧
    ∀ parameter ∈ scope.parameters, parameter.ty.WellNamed))

def accepts (scope : Scope) (name : String) (tys : List Ty) : Bool :=
  scope.name = name && scope.parameters.map (·.ty) = tys

theorem accepts_iff {scope : Scope} {name : String} {tys : List Ty} :
    scope.accepts name tys = true ↔ scope.name = name ∧ scope.parameters.map (·.ty) = tys := by
  rw [accepts, Bool.and_eq_true, decide_eq_true_eq, decide_eq_true_eq]

theorem signature_eq_iff {scope other : Scope} (h : scope.WellNamed) (hother : other.WellNamed) :
    scope.signature = other.signature ↔
      scope.accepts other.name (other.parameters.map (·.ty)) = true := by
  rw [accepts_iff]
  constructor
  · exact signature_inj h.1 hother.1 (List.forall_mem_map.mpr h.2)
      (List.forall_mem_map.mpr hother.2)
  · rintro ⟨hname, htys⟩
    rw [signature, signature, hname, htys]

end Scope

namespace SymbolTable

theorem method?_addMethod (table : SymbolTable) (scope : Scope) (key : String) :
    (table.addMethod scope).method? key =
      if scope.signature = key then some scope else table.method? key := by
  split
  · next heq => rw [← heq, method?, addMethod, NameMap.get?_insert_self]
  · next hne => rw [method?, addMethod, NameMap.get?_insert_of_ne _ (Ne.symm hne), method?]

def addMethods (table : SymbolTable) (added : List Scope) : SymbolTable :=
  added.foldl addMethod table

/-- Under a key there is the last method that was added with it. -/
theorem method?_addMethods (table : SymbolTable) (added : List Scope) (key : String) :
    (table.addMethods added).method? key =
      (added.filter (·.signature = key)).getLast?.or (table.method? key) := by
  induction added generalizing table with
  | nil => rfl
  | cons first rest ih =>
    refine (ih (table.addMethod first)).trans ?_
    rw [method?_addMethod]
    by_cases heq : first.signature = key
    · rw [if_pos heq, List.filter_cons_of_pos (by simpa using heq), List.getLast?_cons]
      cases (rest.filter (·.signature = key)).getLast? <;> rfl
    · rw [if_neg heq, List.filter_cons_of_neg (by simpa using heq)]

/-- A call on an object of the class itself, such as `this`, with arguments of these types. -/
structure OwnCall (table : SymbolTable) (scope : Scope) (receiver : Expr) (args : List Expr)
    (tys : List Ty) : Prop where
  receiver : table.typeOf? scope receiver none = some (.named table.className)
  args : table.typesOf? scope args = some tys

variable {table : SymbolTable} {added : List Scope} {scope declared : Scope} {receiver : Expr}
  {method : String} {args : List Expr} {tys : List Ty}

/-- The last method that has exactly these types is the one under their signature. -/
theorem method?_signature (named : ∀ scope ∈ added, scope.WellNamed)
    (hlast : (added.filter (·.accepts method tys)).getLast? = some declared) :
    (table.addMethods added).method? (signature method tys) = some declared := by
  have hdeclared := List.mem_filter.mp (List.mem_of_getLast? hlast)
  obtain ⟨hmem, haccepts⟩ := hdeclared
  obtain ⟨rfl, rfl⟩ := Scope.accepts_iff.mp haccepts
  have hfilter : added.filter (·.signature = declared.signature) =
      added.filter (·.accepts declared.name (declared.parameters.map (·.ty))) := by
    refine List.filter_congr fun other hother => ?_
    rw [Bool.eq_iff_iff, decide_eq_true_eq]
    exact Scope.signature_eq_iff (named other hother) (named declared hmem)
  have hfound := table.method?_addMethods added declared.signature
  rwa [hfilter, hlast] at hfound

/-- A call that some declared method accepts exactly has the type of that method, whatever type the
context wants. -/
theorem OwnCall.typeOf?_eq (call : OwnCall table scope receiver args tys)
    (hfound : table.method? (signature method tys) = some declared) (expected : Option Ty) :
    table.typeOf? scope (.call receiver method args none) expected = some declared.returnTy := by
  rw [typeOf?, if_pos call.receiver, ownMethod?, call.args, Option.bind_some, hfound]
  rfl

/-- A call on the class itself means the method that has exactly the types of its arguments. Let
methods be added to a table, all of them named by identifiers, and let one of them have the name of
the call and those types. Then the type of the call is what the last such method returns, and the
type that the context wants is of no account. Nor are the other methods and their order: after any
other additions, among which the methods with that name and those types come in the same order, the
call has the same type. -/
theorem call_means_exact_overload (table : SymbolTable) (added : List Scope) (scope : Scope)
    (receiver : Expr) (method : String) (args : List Expr) (tys : List Ty)
    (named : ∀ scope ∈ added, scope.WellNamed)
    (call : OwnCall (table.addMethods added) scope receiver args tys)
    (hadded : ∃ declared ∈ added, declared.name = method ∧ declared.parameters.map (·.ty) = tys) :
    ∃ declared, (added.filter (·.accepts method tys)).getLast? = some declared ∧
      (∀ expected, (table.addMethods added).typeOf? scope (.call receiver method args none)
        expected = some declared.returnTy) ∧
      ∀ others : List Scope, (∀ scope ∈ others, scope.WellNamed) →
        others.filter (·.accepts method tys) = added.filter (·.accepts method tys) →
        OwnCall (table.addMethods others) scope receiver args tys →
        ∀ expected, (table.addMethods others).typeOf? scope (.call receiver method args none)
          expected = some declared.returnTy := by
  obtain ⟨first, hfirst, hname, htys⟩ := hadded
  have hsome : added.filter (·.accepts method tys) ≠ [] :=
    List.ne_nil_of_mem (List.mem_filter.mpr ⟨hfirst, by simp [Scope.accepts, hname, htys]⟩)
  obtain ⟨declared, hlast⟩ : ∃ declared,
      (added.filter (·.accepts method tys)).getLast? = some declared :=
    ⟨_, List.getLast?_eq_some_getLast hsome⟩
  refine ⟨declared, hlast, ?_, ?_⟩
  · exact fun expected => call.typeOf?_eq (method?_signature named hlast) expected
  · intro others hothers hsame call' expected
    rw [← hsame] at hlast
    exact call'.typeOf?_eq (method?_signature hothers hlast) expected

/-- Methods that share a name. The last one has the types of the second. -/
def picking : List Scope :=
  [⟨"pick", .boolean, [⟨"number", .int⟩], []⟩,
    ⟨"pick", .int, [⟨"flag", .boolean⟩], []⟩,
    ⟨"pick", .named "Shape", [⟨"shape", .named "Shape"⟩], []⟩,
    ⟨"pick", .int, [⟨"numbers", .array .int⟩], []⟩,
    ⟨"pick", .array .int, [⟨"again", .boolean⟩], []⟩]

def pickingTable : SymbolTable := ⟨"Shape", none, [], [], ∅⟩

/-- The argument of the outer call is a call of a method that shares the name, and its type decides
which method the outer call means, also where the context wants something else. -/
theorem call_means_picking :
    (∀ scope ∈ picking, scope.WellNamed) ∧
      ∀ expected, (pickingTable.addMethods picking).typeOf? ⟨"run", .int, [], []⟩
        (.call .this "pick" [.call .this "pick" [.int 1] none] none) expected =
          some (.array .int) := by
  have named : ∀ scope ∈ picking, scope.WellNamed := by decide +kernel
  have call : OwnCall (pickingTable.addMethods picking) ⟨"run", .int, [], []⟩ .this
      [.call .this "pick" [.int 1] none] [.boolean] := ⟨rfl, by decide +kernel⟩
  obtain ⟨declared, hlast, htype, _⟩ := call_means_exact_overload pickingTable picking _ .this
    "pick" _ _ named call ⟨⟨"pick", .int, [⟨"flag", .boolean⟩], []⟩, by decide +kernel, rfl, rfl⟩
  have hdeclared : (picking.filter (·.accepts "pick" [.boolean])).getLast? =
      some ⟨"pick", .array .int, [⟨"again", .boolean⟩], []⟩ := by decide +kernel
  obtain rfl := Option.some.inj (hdeclared.symm.trans hlast)
  exact ⟨named, htype⟩

end SymbolTable

end ClassCompiler.Source
