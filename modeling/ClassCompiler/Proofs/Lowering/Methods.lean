import ClassCompiler.Proofs.Lowering.Instructions

/-!
# The form of lowered methods

The steps by which a method was written say what its code is made of. Every local and temporary that
occurs in it is declared. Where the scope of the method has the parameters of its declaration and 16
bits can count them, these occur at their positions and a variable has one type wherever it occurs.
-/

namespace ClassCompiler.Lowering

open Code (Instr Key Variable)
open Source (Scope SymbolTable)

section

variable {context : Context} {receives : Prop} {draft : Draft} {var : Variable} {name : String}

theorem parameter_of_parameter? {scope : Scope} (fits : scope.parameters.length < UInt16.size)
    {position : UInt16} {symbol : Source.Symbol}
    (h : scope.parameter? name = some (position, symbol)) :
    1 ≤ position.toNat ∧ scope.parameters[position.toNat - 1]? = some symbol := by
  obtain ⟨index, _, hrest⟩ := Option.bind_eq_some_iff.mp h
  obtain ⟨found, hfound, hpair⟩ := Option.bind_eq_some_iff.mp hrest
  cases hpair
  rw [toNat_position (List.getElem?_eq_some_iff.mp hfound).1 fits]
  exact ⟨by omega, hfound⟩

def keyTy? (context : Context) (temporaries : List Variable) : Key → Option Code.Ty
  | .local name =>
    match context.scope.local? name with
    | some symbol => some (.ofSource symbol.ty)
    | none => (temporaries.find? (·.name = name)).map (·.ty)
  | .parameter position =>
    context.scope.parameters[position - 1]?.map fun symbol => .ofSource symbol.ty
  | .receiver => some context.receiver.ty

theorem local?_of_not_isDeclared (h : context.isDeclared name = false) :
    context.scope.local? name = none := by
  cases hlocal : context.scope.local? name with
  | none => rfl
  | some symbol => simp [Context.isDeclared, SymbolTable.lookup?, hlocal] at h

/-- The type of an occurrence follows from what the variable is. -/
theorem keyTy?_of_known (apart : Apart context draft)
    (fits : context.scope.parameters.length < UInt16.size)
    (h : Known context receives draft.temporaries.toList var) {key : Key}
    (hkey : var.key? = some key) :
    keyTy? context draft.temporaries.toList key = some var.ty := by
  cases h with
  | receiver =>
    cases hkey
    rfl
  | className => cases hkey
  | stored h =>
    cases h with
    | slot h =>
      rcases slot_of_place? h with ⟨symbol, hlocal, rfl⟩ | ⟨position, symbol, hparameter, rfl⟩
      · cases hkey
        simp [keyTy?, hlocal, Variable.declared]
      · cases hkey
        simp [keyTy?, (parameter_of_parameter? fits hparameter).2, Variable.parameter]
    | temporary h =>
      obtain ⟨number, _, ty, rfl, hdeclared⟩ := apart.numbered var h
      cases hkey
      have hfind : draft.temporaries.toList.find? (·.name = temporaryName number) =
          some (.temporary (temporaryName number) ty) := by
        obtain ⟨found, hfound⟩ : ∃ found,
            draft.temporaries.toList.find? (·.name = temporaryName number) = some found := by
          rw [← Option.isSome_iff_exists, List.find?_isSome]
          exact ⟨_, h, by simp [Variable.temporary]⟩
        -- the names of temporaries differ, so it is this one
        have hname : found.name = temporaryName number := by simpa using List.find?_some hfound
        have hsame := List.inj_on_of_nodup_map apart.distinct
          (List.mem_of_find?_eq_some hfound) h hname
        rw [hfound, hsame]
      simp only [keyTy?, Variable.temporary, local?_of_not_isDeclared hdeclared]
      exact congrArg (Option.map (·.ty)) hfind

/-- What is assigned is kept in a slot of its own. -/
theorem Stored.role_ne (apart : Apart context draft)
    (h : Stored context draft.temporaries.toList var) :
    var.role ≠ .field ∧ var.role ≠ .receiver ∧ var.role ≠ .className := by
  cases h with
  | slot h =>
    rcases slot_of_place? h with ⟨symbol, _, rfl⟩ | ⟨position, symbol, _, rfl⟩
    · exact ⟨nofun, nofun, nofun⟩
    · exact ⟨nofun, nofun, nofun⟩
  | temporary h =>
    obtain ⟨number, _, ty, rfl, _⟩ := apart.numbered var h
    exact ⟨nofun, nofun, nofun⟩

theorem Known.role_ne (apart : Apart context draft)
    (h : Known context receives draft.temporaries.toList var) : var.role ≠ .field := by
  cases h with
  | stored h => exact (h.role_ne apart).1
  | receiver | className => nofun

/-- Locals and temporaries are found among the locals of the method by their names. -/
theorem Known.declared (h : Known context receives draft.temporaries.toList var)
    (hallocatable : var.isAllocatable) :
    ∃ decl ∈ declaredLocals context.scope ++ draft.temporaries.toList, decl.name = var.name := by
  cases h with
  | receiver | className => cases hallocatable
  | stored h =>
    cases h with
    | temporary h => exact ⟨var, List.mem_append_right _ h, rfl⟩
    | @slot name ty _ h =>
      rcases slot_of_place? h with ⟨symbol, hlocal, rfl⟩ | ⟨position, symbol, _, rfl⟩
      · have hname : symbol.name = name := by simpa using List.find?_some hlocal
        have hmem := List.mem_of_find?_eq_some hlocal
        exact ⟨_, List.mem_append_left _ (List.mem_map_of_mem hmem), hname⟩
      · cases hallocatable

end

section

variable {table : SymbolTable} {method : Source.Method} {code : Code.Method}

/-- A lowered method has the name, the types and the kind of its declaration. -/
theorem lowerMethod_header (h : lowerMethod table method = .ok code) :
    code.name = method.name ∧ code.isStatic = method.isStatic ∧
      code.parameters = parameters method ∧ code.returnTy = .ofSource method.returnTy ∧
      code.isConstructor = false := by
  unfold lowerMethod at h
  split at h
  · cases h
  · obtain ⟨_, _, hcode⟩ := Outcome.bind_eq_ok.mp h
    obtain rfl := Outcome.pure_eq_ok.mp hcode
    exact ⟨rfl, rfl, rfl, rfl, rfl⟩

theorem getElem?_parameters (method : Source.Method) (index : Nat) :
    (parameters method)[index]? = method.parameters[index]?.map fun symbol =>
      .parameter symbol.name (.ofSource symbol.ty) (UInt16.ofNat index + 1) := by
  rw [parameters, List.getElem?_mapIdx]

/-- What a method that has been lowered was written by. -/
theorem writable_lowerMethod (receives : Prop) (h : lowerMethod table method = .ok code)
    (grants : ∀ scope, table.method? method.signature = some scope →
      Grants (.ofScope table scope) receives method.mentions) :
    ∃ scope draft, table.method? method.signature = some scope ∧
      Apart (.ofScope table scope) draft ∧
      code.locals = declaredLocals scope ++ draft.temporaries.toList ∧
      ∀ line ∈ code.body,
        Writable (.ofScope table scope) receives draft.temporaries.toList line.instr := by
  obtain ⟨scope, draft, hscope, hbody, _, hcode, hlocals⟩ := lowerMethod_eq_ok h
  have hsteps := steps_lowerBody (grants scope hscope) hbody
  have hinitial : Apart (.ofScope table scope) Draft.initial := ⟨nofun, List.nodup_nil⟩
  refine ⟨scope, draft, hscope, hsteps.apart hinitial, hlocals, ?_⟩
  rw [hcode]
  exact hsteps.writable nofun

/-- All that lowering promises of a method, read off the steps of writing it. -/
theorem formed_lowerMethod (h : lowerMethod table method = .ok code) : code.Formed := by
  obtain ⟨scope, draft, _, apart, hlocals, hwritable⟩ :=
    writable_lowerMethod True h fun _ _ _ _ _ => trivial
  have hknown : ∀ var ∈ code.occurrences,
      Known (.ofScope table scope) True draft.temporaries.toList var := by
    intro var hvar
    obtain ⟨line, hline, hmem⟩ := List.mem_flatMap.mp hvar
    exact (hwritable line hline).known var hmem
  constructor
  · intro index param hparam
    rw [(lowerMethod_header h).2.2.1, getElem?_parameters] at hparam
    obtain ⟨symbol, _, rfl⟩ := Option.map_eq_some_iff.mp hparam
    rfl
  · exact fun line hline => (hwritable line hline).flat
  · intro var hvar
    rw [hlocals] at hvar
    rcases List.mem_append.mp hvar with hvar | hvar
    · obtain ⟨symbol, _, rfl⟩ := List.mem_map.mp hvar
      rfl
    · obtain ⟨number, _, ty, rfl, _⟩ := apart.numbered var hvar
      rfl
  · intro var hvar hallocatable
    rw [hlocals]
    exact (hknown var hvar).declared hallocatable
  · exact fun var hvar => (hknown var hvar).role_ne apart
  · intro line hline target htarget
    exact (((hwritable line hline).stored target htarget).role_ne apart).2

/-- The promises that need the table: it has the parameters of the declaration, and a static method
does without the receiver. -/
theorem framed_lowerMethod (h : lowerMethod table method = .ok code)
    (hparameters : ∀ scope ∈ table.method? method.signature,
      scope.parameters = method.parameters)
    (hstatic : method.isStatic = true → ∀ scope ∈ table.method? method.signature,
      method.usesReceiver table scope = false)
    (fits : code.parameters.length < UInt16.size) : code.Framed := by
  obtain ⟨_, hkind, hparams, _⟩ := lowerMethod_header h
  have grants : ∀ scope, table.method? method.signature = some scope →
      Grants (.ofScope table scope) (method.isStatic = false) method.mentions := by
    intro scope hscope mention hmention hreceiver
    by_contra hnot
    have hfree := hstatic (by simpa using hnot) scope hscope
    exact absurd hreceiver (List.any_eq_false.mp hfree mention hmention)
  obtain ⟨scope, draft, hscope, apart, _, hwritable⟩ := writable_lowerMethod _ h grants
  have hknown : ∀ var ∈ code.occurrences, Known (.ofScope table scope) (method.isStatic = false)
      draft.temporaries.toList var := by
    intro var hvar
    obtain ⟨line, hline, hmem⟩ := List.mem_flatMap.mp hvar
    exact (hwritable line hline).known var hmem
  -- the positions are counted in the scope, and the scope has the same parameters
  have hscopeParameters := hparameters scope hscope
  replace fits : scope.parameters.length < UInt16.size := by
    rw [hparams, parameters, List.length_mapIdx] at fits
    rwa [hscopeParameters]
  constructor
  · intro var hvar hrole
    rw [hkind]
    cases hknown var hvar with
    | receiver hreceives => exact ⟨hreceives, rfl⟩
    | className => cases hrole
    | stored h => exact absurd hrole (h.role_ne apart).2.1
  · intro var hvar position hrole
    cases hknown var hvar with
    | receiver | className => cases hrole
    | stored h =>
      cases h with
      | temporary h =>
        obtain ⟨number, _, ty, rfl, _⟩ := apart.numbered var h
        cases hrole
      | slot h =>
        rcases slot_of_place? h with ⟨symbol, _, rfl⟩ | ⟨position', symbol, hparameter, rfl⟩
        · cases hrole
        · cases hrole
          obtain ⟨hone, hsymbol⟩ := parameter_of_parameter? fits hparameter
          have hparam := getElem?_parameters method (position.toNat - 1)
          rw [← hscopeParameters, hsymbol, ← hparams] at hparam
          exact ⟨hone, _, hparam, rfl⟩
  · intro var hvar other hother key hkey hkey'
    have hty := keyTy?_of_known apart fits (hknown var hvar) hkey
    have hty' := keyTy?_of_known apart fits (hknown other hother) hkey'
    exact Option.some.inj (hty.symm.trans hty')

end

section

variable {table : SymbolTable} {program : Source.Program} {cls : Code.Class} {method : Code.Method}

/-- The methods of a lowered program are its constructor and its lowered methods. -/
theorem mem_lowerProgram (h : lowerProgram table program = .ok cls)
    (hmethod : method ∈ cls.methods) :
    method = constructor program.decl.name ∨
      ∃ source ∈ program.decl.methods, lowerMethod table source = .ok method := by
  obtain ⟨methods, hmethods, h⟩ := Outcome.bind_eq_ok.mp h
  obtain rfl := Outcome.pure_eq_ok.mp h
  rcases List.mem_cons.mp hmethod with rfl | hmem
  · exact .inl rfl
  · exact .inr (Outcome.exists_of_mem_mapM hmethods hmem)

/-- The constructor is not lowered, so its form is seen from its code. -/
theorem formed_constructor (name : String) : (constructor name).Formed := by
  constructor
  · nofun
  · intro line hline
    simp only [constructor, List.mem_cons, List.not_mem_nil, or_false] at hline
    rcases hline with rfl | rfl
    · exact .construct _
    · exact .ret .void nofun
  · nofun
  · intro var hvar hallocatable
    obtain rfl := List.mem_singleton.mp hvar
    cases hallocatable
  · intro var hvar
    obtain rfl := List.mem_singleton.mp hvar
    nofun
  · intro line hline target htarget
    simp only [constructor, List.mem_cons, List.not_mem_nil, or_false] at hline
    rcases hline with rfl | rfl <;> cases htarget

theorem framed_constructor (name : String) : (constructor name).Framed := by
  constructor
  · intro var hvar _
    obtain rfl := List.mem_singleton.mp hvar
    exact ⟨rfl, rfl⟩
  · intro var hvar position hrole
    obtain rfl := List.mem_singleton.mp hvar
    cases hrole
  · intro var hvar other hother key _ _
    rw [List.mem_singleton.mp hvar, List.mem_singleton.mp hother]

theorem formed_lowerProgram (h : lowerProgram table program = .ok cls)
    (hmethod : method ∈ cls.methods) : method.Formed := by
  rcases mem_lowerProgram h hmethod with rfl | ⟨source, _, hsource⟩
  · exact formed_constructor program.decl.name
  · exact formed_lowerMethod hsource

theorem framed_lowerProgram (h : lowerProgram table program = .ok cls)
    (declares : Source.Declares table program) (hmethod : method ∈ cls.methods)
    (fits : method.parameters.length < UInt16.size) : method.Framed := by
  rcases mem_lowerProgram h hmethod with rfl | ⟨source, hmem, hsource⟩
  · exact framed_constructor program.decl.name
  · exact framed_lowerMethod hsource (declares.parameters source hmem)
      (declares.static source hmem) fits

end

end ClassCompiler.Lowering
