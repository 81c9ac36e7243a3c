import ClassCompiler.Proofs.Text.Identifiers
import ClassCompiler.Stack.Assembly

/-!
# Descriptors tell their types

The descriptor of a type is never the beginning of another one, so the descriptors of the parameters
of a method can be written one after the other without anything between them. Classes are named in
full there: the simple name of a class stands after the last slash, so two classes keep different
names. Methods of one name have different headers if their parameters have different types, unless
they are constructors: the header of a constructor is always the same.
-/

namespace ClassCompiler.Code

open Text (IsIdentifier IsPath)

/-- The classes in the type are named by identifiers, and none of them by the word for strings. -/
def Ty.WellNamed : Ty → Prop
  | .object name => IsIdentifier name ∧ name ≠ "String"
  | .array element => element.WellNamed
  | .int | .bool | .string | .void => True

instance Ty.decidableWellNamed : (ty : Ty) → Decidable ty.WellNamed
  | .object name => inferInstanceAs (Decidable (IsIdentifier name ∧ name ≠ "String"))
  | .array element => decidableWellNamed element
  | .int | .bool | .string | .void => .isTrue trivial

namespace Class

variable {cls : Class} {name name' : String} {ty ty' : Ty} {rest rest' : List Char}

theorem qualify_cases (cls : Class) (name : String) :
    cls.qualify name = name ∨ ∃ path ∈ cls.imports, Text.simpleName path = name ∧
      cls.qualify name = Text.slashed path := by
  by_cases hown : name = cls.name
  · exact .inl (by rw [qualify, if_pos hown])
  · cases hfind : cls.imports.find? (Text.simpleName · = name) with
    | none => exact .inl (by rw [qualify, if_neg hown, hfind])
    | some path =>
      have hsimple := List.find?_some hfind
      exact .inr ⟨path, List.mem_of_find?_eq_some hfind, by simpa using hsimple,
        by rw [qualify, if_neg hown, hfind]⟩

section

variable (paths : ∀ path ∈ cls.imports, IsPath path)

include paths

/-- The full name of a class tells its simple name. -/
theorem afterSlash_qualify (hname : IsIdentifier name) :
    Text.afterSlash (cls.qualify name) = name := by
  rcases cls.qualify_cases name with heq | ⟨path, hpath, hsimple, heq⟩
  · rw [heq, Text.afterSlash_of_not_mem (hname.not_mem (by decide))]
  · rw [heq, Text.afterSlash_slashed ((paths path hpath).not_mem (by decide) (by decide)), hsimple]

theorem qualify_inj (hname : IsIdentifier name) (hname' : IsIdentifier name')
    (h : cls.qualify name = cls.qualify name') : name = name' := by
  rw [← afterSlash_qualify paths hname, h, afterSlash_qualify paths hname']

theorem semicolon_not_mem_qualify (hname : IsIdentifier name) :
    ';' ∉ (cls.qualify name).toList := by
  rcases cls.qualify_cases name with heq | ⟨path, hpath, _, heq⟩
  · rw [heq]
    exact hname.not_mem (by decide)
  · rw [heq, Text.slashed, String.toList_ofList]
    have hpath := (paths path hpath).not_mem (by decide : ';' ∈ Text.marks) (by decide)
    intro hmem
    obtain ⟨char, hchar, heq⟩ := List.mem_map.mp hmem
    split at heq
    · cases heq
    · exact hpath (heq ▸ hchar)

omit paths in
theorem descriptor_of_owner {owner : String} (h : cls.ownerOf? ty = some owner) :
    (cls.descriptor ty).toList = 'L' :: (owner.toList ++ [';']) := by
  cases ty with
  | object | string =>
    cases h
    simp [descriptor]
  | int | bool | void | array => cases h

/-- The class that a descriptor names tells the type. -/
theorem ownerOf?_inj {owner : String} (hty : ty.WellNamed) (hty' : ty'.WellNamed)
    (h : cls.ownerOf? ty = some owner) (h' : cls.ownerOf? ty' = some owner) : ty = ty' := by
  have hstring {name : String} (hname : IsIdentifier name)
      (heq : cls.qualify name = "java/lang/String") : name = "String" := by
    rw [← afterSlash_qualify paths hname, heq]
    decide +kernel
  cases ty with
  | object name =>
    cases h
    cases ty' with
    | object name' =>
      have hsame := qualify_inj paths hty'.1 hty.1 (Option.some.inj h')
      rw [hsame]
    | string => exact absurd (hstring hty.1 (Option.some.inj h').symm) hty.2
    | int | bool | void | array => cases h'
  | string =>
    cases h
    cases ty' with
    | object name' => exact absurd (hstring hty'.1 (Option.some.inj h')) hty'.2
    | string => rfl
    | int | bool | void | array => cases h'
  | int | bool | void | array => cases h

theorem semicolon_not_mem_owner {owner : String} (hty : ty.WellNamed)
    (h : cls.ownerOf? ty = some owner) : ';' ∉ owner.toList := by
  cases ty with
  | object name =>
    cases h
    exact semicolon_not_mem_qualify paths hty.1
  | string =>
    cases h
    decide
  | int | bool | void | array => cases h

/-- The name of a class ends at its semicolon, so what follows it can be told apart. -/
theorem owned_append_inj {owner : String} (hty : ty.WellNamed) (hty' : ty'.WellNamed)
    (howner : cls.ownerOf? ty = some owner)
    (h : (cls.descriptor ty).toList ++ rest = (cls.descriptor ty').toList ++ rest') :
    ty = ty' ∧ rest = rest' := by
  rw [descriptor_of_owner howner] at h
  obtain ⟨owner', howner'⟩ : ∃ owner', cls.ownerOf? ty' = some owner' := by
    cases ty' with
    | object | string => exact ⟨_, rfl⟩
    | int | bool | void | array => simp [descriptor] at h
  rw [descriptor_of_owner howner'] at h
  simp only [List.cons_append, List.append_assoc, List.nil_append] at h
  obtain ⟨hsame, hrest⟩ := Text.append_cons_inj (semicolon_not_mem_owner paths hty howner)
    (semicolon_not_mem_owner paths hty' howner') (List.cons.inj h).2
  rw [← String.toList_inj.mp hsame] at howner'
  exact ⟨ownerOf?_inj paths hty hty' howner howner', hrest⟩

/-- A descriptor tells its type and where it ends, whatever follows. -/
theorem descriptor_append_inj (hty : ty.WellNamed) (hty' : ty'.WellNamed)
    (h : (cls.descriptor ty).toList ++ rest = (cls.descriptor ty').toList ++ rest') :
    ty = ty' ∧ rest = rest' := by
  induction ty generalizing ty' with
  | int | bool | void => cases ty' <;> simp_all [descriptor]
  | array element ih =>
    cases ty' with
    | array element' =>
      have helement' : element'.WellNamed := hty'
      simp only [descriptor, String.toList_append, List.append_assoc] at h
      obtain ⟨rfl, hrest⟩ := ih hty helement' (List.append_cancel_left h)
      exact ⟨rfl, hrest⟩
    | int | bool | void | string | object => simp [descriptor] at h
  | object | string => exact owned_append_inj paths hty hty' rfl h

omit paths in
theorem descriptor_head (cls : Class) (ty : Ty) :
    ∃ first others, (cls.descriptor ty).toList = first :: others ∧ first ≠ ')' := by
  cases ty <;> simp [descriptor]

/-- The types of parameters can be read off until the bracket that closes them. -/
theorem descriptors_append_inj {args args' : List Ty} (hargs : ∀ ty ∈ args, ty.WellNamed)
    (hargs' : ∀ ty ∈ args', ty.WellNamed)
    (h : args.flatMap (fun ty => (cls.descriptor ty).toList) ++ ')' :: rest =
      args'.flatMap (fun ty => (cls.descriptor ty).toList) ++ ')' :: rest') :
    args = args' ∧ rest = rest' := by
  induction args generalizing args' with
  | nil =>
    cases args' with
    | nil => exact ⟨rfl, (List.cons.inj h).2⟩
    | cons first' others' =>
      obtain ⟨char, chars, hchars, hne⟩ := cls.descriptor_head first'
      rw [List.flatMap_cons, hchars] at h
      exact absurd (List.cons.inj h).1.symm hne
  | cons first others ih =>
    obtain ⟨hfirst, hothers⟩ := List.forall_mem_cons.mp hargs
    cases args' with
    | nil =>
      obtain ⟨char, chars, hchars, hne⟩ := cls.descriptor_head first
      rw [List.flatMap_cons, hchars] at h
      exact absurd (List.cons.inj h).1 hne
    | cons first' others' =>
      obtain ⟨hfirst', hothers'⟩ := List.forall_mem_cons.mp hargs'
      rw [List.flatMap_cons, List.flatMap_cons, List.append_assoc, List.append_assoc] at h
      obtain ⟨rfl, hlater⟩ := descriptor_append_inj paths hfirst hfirst' h
      obtain ⟨rfl, hrest⟩ := ih hothers hothers' hlater
      exact ⟨rfl, hrest⟩

omit paths in
theorem toList_methodDescriptor (cls : Class) (args : List Ty) (returnTy : Ty) :
    (cls.methodDescriptor args returnTy).toList =
      '(' :: (args.flatMap (fun ty => (cls.descriptor ty).toList) ++
        ')' :: (cls.descriptor returnTy).toList) := by
  simp [methodDescriptor, List.flatMap_map]

theorem methodDescriptor_inj {args args' : List Ty} {returnTy returnTy' : Ty}
    (hargs : ∀ ty ∈ args, ty.WellNamed) (hargs' : ∀ ty ∈ args', ty.WellNamed)
    (hreturn : returnTy.WellNamed) (hreturn' : returnTy'.WellNamed)
    (h : cls.methodDescriptor args returnTy = cls.methodDescriptor args' returnTy') :
    args = args' ∧ returnTy = returnTy' := by
  have hchars := congrArg String.toList h
  rw [toList_methodDescriptor, toList_methodDescriptor] at hchars
  obtain ⟨hsame, hlast⟩ := descriptors_append_inj paths hargs hargs' (List.cons.inj hchars).2
  rw [← List.append_nil (cls.descriptor returnTy).toList,
    ← List.append_nil (cls.descriptor returnTy').toList] at hlast
  exact ⟨hsame, (descriptor_append_inj paths hreturn hreturn' hlast).1⟩

end

end Class

end ClassCompiler.Code

namespace ClassCompiler.Stack

open Code (Method)
open Text (IsIdentifier IsPath)

variable {cls : Code.Class} {method method' : Method}

/-- The word by which the header of a static method is told from others. -/
def modifier (method : Method) : List Char := if method.isStatic then "static ".toList else []

theorem toList_methodHeader (h : method.isConstructor = false) :
    (methodHeader cls method).toList = ".method public ".toList ++ (modifier method ++
      (method.name.toList ++ (cls.methodDescriptor (method.parameters.map (·.ty))
        method.returnTy).toList)) := by
  rw [methodHeader, if_neg (by simp [h])]
  cases hstatic : method.isStatic <;> simp [modifier, hstatic, toString]

/-- Before the first bracket of a header there is nothing of the descriptor. -/
theorem takeWhile_modifier (method : Method) (name rest : List Char) :
    (modifier method ++ (name ++ '(' :: rest)).takeWhile (· ≠ '(') =
      modifier method ++ name.takeWhile (· ≠ '(') := by
  have hplain : (modifier method).all (· ≠ '(') = true := by
    rw [modifier]
    split <;> rfl
  rw [List.takeWhile_append_of_pos (List.all_eq_true.mp hplain), Text.takeWhile_append_cons]

/-- Two methods of one name that are not constructors have one header only if they take values of
the same types: what comes before the descriptor tells whether they are static, so that the
descriptors stand at the same place. -/
theorem types_of_methodHeader (paths : ∀ path ∈ cls.imports, IsPath path)
    (h : method.isConstructor = false) (h' : method'.isConstructor = false)
    (hname : method.name = method'.name)
    (htys : ∀ ty ∈ method.returnTy :: method.parameters.map (·.ty), ty.WellNamed)
    (htys' : ∀ ty ∈ method'.returnTy :: method'.parameters.map (·.ty), ty.WellNamed)
    (hheader : methodHeader cls method = methodHeader cls method') :
    method.parameters.map (·.ty) = method'.parameters.map (·.ty) := by
  have hchars := congrArg String.toList hheader
  rw [toList_methodHeader h, toList_methodHeader h', hname] at hchars
  have hsigned := List.append_cancel_left hchars
  have hbefore := congrArg (List.takeWhile (· ≠ '(')) hsigned
  rw [Code.Class.toList_methodDescriptor, Code.Class.toList_methodDescriptor, takeWhile_modifier,
    takeWhile_modifier] at hbefore
  rw [List.append_cancel_right hbefore] at hsigned
  have hdescriptor := List.append_cancel_left (List.append_cancel_left hsigned)
  obtain ⟨hreturn, hargs⟩ := List.forall_mem_cons.mp htys
  obtain ⟨hreturn', hargs'⟩ := List.forall_mem_cons.mp htys'
  exact (Code.Class.methodDescriptor_inj paths hargs hargs' hreturn hreturn'
    (String.toList_inj.mp hdescriptor)).1

/-- A method that is not a constructor has the header of one only if it has the name of one. -/
theorem name_of_methodHeader (h : method.isConstructor = false)
    (h' : method'.isConstructor = true)
    (hheader : methodHeader cls method = methodHeader cls method') : method.name = "<init>" := by
  have hchars := congrArg String.toList hheader
  have hconstructor : (methodHeader cls method').toList =
      ".method public ".toList ++ ("<init>".toList ++ '(' :: ")V".toList) := by
    rw [methodHeader, if_pos h']
    decide
  rw [toList_methodHeader h, hconstructor, Code.Class.toList_methodDescriptor] at hchars
  have hsigned := List.append_cancel_left hchars
  -- the header has one opening bracket, which is that of the descriptor
  have hcount := congrArg (List.count '(') hsigned
  have hone : ("<init>".toList ++ '(' :: ")V".toList).count '(' = 1 := by decide
  rw [hone, List.count_append, List.count_append, List.count_cons_self] at hcount
  have hbracket : '(' ∉ modifier method ++ method.name.toList := by
    rw [← List.count_eq_zero, List.count_append]
    omega
  rw [← List.append_assoc] at hsigned
  have hname := (Text.append_cons_inj hbracket (by decide) hsigned).1
  cases hstatic : method.isStatic with
  | true => simp [modifier, hstatic] at hname
  | false =>
    rw [modifier, hstatic] at hname
    exact String.toList_inj.mp hname

/-- Descriptors tell methods apart. Take a class that imports by dotted paths, and types whose
classes are named by identifiers, none of them by the word for strings. Different classes have
different full names, and the descriptor of a method tells the types of its parameters and of its
result. A constructor has a header of its own, whatever its parameters. So two methods of one name
whose parameters have different types have the same header only if both are constructors, or one is
and the other has the name of one. -/
theorem descriptors_tell_methods (cls : Code.Class) (paths : ∀ path ∈ cls.imports, IsPath path) :
    (∀ name name', IsIdentifier name → IsIdentifier name' →
      cls.qualify name = cls.qualify name' → name = name') ∧
    (∀ args args' returnTy returnTy', (∀ ty ∈ returnTy :: args, ty.WellNamed) →
      (∀ ty ∈ returnTy' :: args', ty.WellNamed) →
      cls.methodDescriptor args returnTy = cls.methodDescriptor args' returnTy' →
      args = args' ∧ returnTy = returnTy') ∧
    (∀ method : Method, method.isConstructor = true →
      methodHeader cls method = ".method public <init>()V") ∧
    ∀ method method' : Method,
      (∀ ty ∈ method.returnTy :: method.parameters.map (·.ty), ty.WellNamed) →
      (∀ ty ∈ method'.returnTy :: method'.parameters.map (·.ty), ty.WellNamed) →
      method.name = method'.name →
      method.parameters.map (·.ty) ≠ method'.parameters.map (·.ty) →
      methodHeader cls method = methodHeader cls method' →
      method.isConstructor = true ∧ method'.isConstructor = true ∨
        method.isConstructor ≠ method'.isConstructor ∧ method.name = "<init>" := by
  refine ⟨?_, ?_, ?_, ?_⟩
  · exact fun name name' hname hname' h => Code.Class.qualify_inj paths hname hname' h
  · intro args args' returnTy returnTy' htys htys' h
    obtain ⟨hreturn, hargs⟩ := List.forall_mem_cons.mp htys
    obtain ⟨hreturn', hargs'⟩ := List.forall_mem_cons.mp htys'
    exact Code.Class.methodDescriptor_inj paths hargs hargs' hreturn hreturn' h
  · intro method h
    rw [methodHeader, if_pos h]
  · intro method method' htys htys' hname hparameters hheader
    cases h : method.isConstructor with
    | true =>
      cases h' : method'.isConstructor with
      | true => exact .inl ⟨rfl, rfl⟩
      | false => exact .inr ⟨by simp, hname.trans (name_of_methodHeader h' h hheader.symm)⟩
    | false =>
      cases h' : method'.isConstructor with
      | true => exact .inr ⟨by simp, name_of_methodHeader h h' hheader⟩
      | false =>
        exact absurd (types_of_methodHeader paths h h' hname htys htys' hheader) hparameters

def filling : Method :=
  ⟨"put", false, false, [.parameter "list" (.object "List") 1,
    .parameter "books" (.array (.object "Book")) 2], .void, [], []⟩

def sorting : Method :=
  ⟨"put", false, false, [.parameter "lists" (.array (.object "List")) 1,
    .parameter "book" (.object "Book") 2], .void, [], []⟩

/-- A class with two methods of one name, which take values of imported classes. -/
def shelving : Code.Class :=
  ⟨"Shelf", none, ["java.util.List", "shop.Book"], [], [filling, sorting]⟩

/-- Names and descriptors of the class can be read back, and its two methods of one name have
different headers. -/
theorem descriptors_tell_shelving :
    (∀ path ∈ shelving.imports, IsPath path) ∧
    (∀ name, IsIdentifier name → shelving.qualify name = "shop/Book" → name = "Book") ∧
    (∀ args returnTy, (∀ ty ∈ returnTy :: args, ty.WellNamed) →
      shelving.methodDescriptor args returnTy = "(Ljava/util/List;[Lshop/Book;)V" →
      args = [.object "List", .array (.object "Book")] ∧ returnTy = .void) ∧
    methodHeader shelving ⟨"Shelf", false, true, [], .void, [], []⟩ = ".method public <init>()V" ∧
    methodHeader shelving filling ≠ methodHeader shelving sorting := by
  have hpaths : ∀ path ∈ shelving.imports, IsPath path := by
    intro path hpath
    simp only [shelving, List.mem_cons, List.not_mem_nil, or_false] at hpath
    rcases hpath with rfl | rfl
    · exact ⟨["java", "util", "List"], by simp, by decide +kernel, by decide +kernel⟩
    · exact ⟨["shop", "Book"], by simp, by decide +kernel, by decide +kernel⟩
  obtain ⟨hqualify, hdescriptor, hconstructor, hheader⟩ := descriptors_tell_methods shelving hpaths
  refine ⟨hpaths, ?_, ?_, hconstructor _ rfl, ?_⟩
  · intro name hname heq
    exact hqualify name "Book" hname (by decide +kernel) (heq.trans (by decide +kernel))
  · intro args returnTy htys heq
    exact hdescriptor args _ returnTy .void htys (by decide +kernel) (heq.trans (by decide +kernel))
  · intro heq
    have hsame := hheader filling sorting (by decide +kernel) (by decide +kernel) rfl
      (by decide +kernel) heq
    simp [filling, sorting] at hsame

def building : Method := ⟨"Main", false, true, [], .void, [], [⟨[], .ret .void none⟩]⟩

def buildingFrom : Method :=
  ⟨"Main", false, true, [.parameter "n" .int 1], .void, [], [⟨[], .ret .void none⟩]⟩

/-- A class with two constructors. -/
def rebuilding : Code.Class := ⟨"Main", none, [], [], [building, buildingFrom]⟩

/-- The constructors of a class have one header, although they take different parameters. -/
theorem header_of_constructors :
    building ∈ rebuilding.methods ∧ buildingFrom ∈ rebuilding.methods ∧
      (∀ path ∈ rebuilding.imports, IsPath path) ∧
      (∀ ty ∈ building.returnTy :: building.parameters.map (·.ty), ty.WellNamed) ∧
      (∀ ty ∈ buildingFrom.returnTy :: buildingFrom.parameters.map (·.ty), ty.WellNamed) ∧
      building.name = buildingFrom.name ∧
      building.parameters.map (·.ty) ≠ buildingFrom.parameters.map (·.ty) ∧
      methodHeader rebuilding building = methodHeader rebuilding buildingFrom :=
  ⟨List.mem_cons_self, List.mem_cons_of_mem _ List.mem_cons_self, List.forall_mem_nil _,
    by decide, by decide, rfl, by decide, rfl⟩

end ClassCompiler.Stack
