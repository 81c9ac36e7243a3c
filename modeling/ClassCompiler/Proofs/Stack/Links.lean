import ClassCompiler.Proofs.NameMap
import ClassCompiler.Proofs.Stack.Sites

/-!
# Calls of a class to its own methods

The header of a method has the types that it is declared with, and an invocation of it has the types
of the operands that it is invoked with. An operand has the type of its parameter, unless nothing
gives the argument a type: a parameter does not, and such an argument is taken for an integer.
-/

namespace ClassCompiler.Source

variable {table : SymbolTable} {program : Program} {scope : Scope}

/-- A table with exactly the methods that a program declares, each under its signature. -/
structure Lists (table : SymbolTable) (program : Program) : Prop where
  declared : ∀ method ∈ program.decl.methods, ∃ found,
    table.method? method.signature = some found ∧ found.name = method.name ∧
      found.returnTy = method.returnTy
  only : ∀ found ∈ table.methods.values, ∃ method ∈ program.decl.methods,
    table.method? method.signature = some found

/-- Whether an expression is a call that only its context can give a type: analysis has not found
one, and the class declares no method for it. -/
def SymbolTable.isOpen (table : SymbolTable) (scope : Scope) : Expr → Bool
  | .call receiver method args none =>
    table.typeOf? scope receiver none ≠ some (.named table.className) ||
      (table.ownMethod? method (table.typesOf? scope args)).isNone
  | _ => false

/-- A call of the only method of the class that has its name. Each argument has the type of its
parameter, or else only its context could give it one. The types of the arguments do not make up the
signature of a method of another name, for which some name would have to contain a bracket. -/
structure Call.Reaches (table : SymbolTable) (program : Program) (scope : Scope) (call : Call)
    (callee : Method) : Prop where
  unannotated : call.ty = none
  receiver : table.typeOf? scope call.receiver none = some (.named table.className)
  only : program.decl.methods.filter (·.name = call.method) = [callee]
  value : call.isOperand → callee.returnTy ≠ .void
  args : List.Forall₂ (fun arg parameter =>
    table.typeOf? scope arg none = some parameter.ty ∨ table.isOpen scope arg)
    call.args callee.parameters
  key : ∀ tys ∈ table.typesOf? scope call.args,
    ∀ found ∈ table.method? (signature call.method tys), found.name = call.method

theorem SymbolTable.mem_values_of_method? {key : String} {found : Scope}
    (h : table.method? key = some found) : found ∈ table.methods.values :=
  List.mem_map_of_mem (NameMap.get?_eq_some_iff.mp h)

/-- A call that nothing gives a type has the type that its context wants. -/
theorem typeOf?_of_isOpen {expr : Expr} (h : table.isOpen scope expr) (expected : Option Ty) :
    table.typeOf? scope expr expected = some (expected.getD .void) := by
  unfold SymbolTable.isOpen at h
  split at h
  · next receiver method args =>
    rw [SymbolTable.typeOf?]
    by_cases hreceiver : table.typeOf? scope receiver none = some (.named table.className)
    · have hnone : table.ownMethod? method (table.typesOf? scope args) = none := by
        simpa [hreceiver] using h
      simp only [hreceiver, if_true, hnone]
    · simp only [hreceiver, if_false]
  · cases h

/-- Under a name that only one method has, the table has what that method returns. -/
theorem Lists.returnTy_eq (lists : Lists table program) {name : String} {callee : Method}
    (honly : program.decl.methods.filter (·.name = name) = [callee]) {found : Scope}
    (hfound : found ∈ table.methods.values) (hname : found.name = name) :
    found.returnTy = callee.returnTy := by
  obtain ⟨method, hmethod, hkey⟩ := lists.only found hfound
  obtain ⟨found', hkey', hname', hreturn⟩ := lists.declared method hmethod
  obtain rfl : found = found' := Option.some.inj (hkey.symm.trans hkey')
  have hmem : method ∈ program.decl.methods.filter (·.name = name) := by
    simp [hmethod, ← hname', hname]
  rw [honly, List.mem_singleton] at hmem
  rw [hreturn, hmem]

theorem Lists.exists_methodNamed? (lists : Lists table program) {name : String} {callee : Method}
    (honly : program.decl.methods.filter (·.name = name) = [callee]) :
    ∃ found, table.methodNamed? name = some found := by
  have hcallee : callee ∈ program.decl.methods.filter (·.name = name) := by simp [honly]
  obtain ⟨hmethod, hname⟩ := List.mem_filter.mp hcallee
  obtain ⟨found, hkey, hfound, _⟩ := lists.declared callee hmethod
  refine Option.isSome_iff_exists.mp (List.find?_isSome.mpr ?_)
  exact ⟨found, SymbolTable.mem_values_of_method? hkey, by rw [hfound]; exact hname⟩

variable {call : Call} {callee : Method}

/-- A call of the only method of a name finds it, whatever the types of the arguments. -/
theorem Call.Reaches.exists_ownMethod? (h : call.Reaches table program scope callee)
    (lists : Lists table program) :
    ∃ found, table.ownMethod? call.method (table.typesOf? scope call.args) = some found ∧
      found.returnTy = callee.returnTy := by
  obtain ⟨named, hnamed⟩ := lists.exists_methodNamed? h.only
  unfold SymbolTable.ownMethod?
  cases hkey : (table.typesOf? scope call.args).bind fun tys =>
      table.method? (signature call.method tys) with
  | some found =>
    obtain ⟨tys, htys, hfound⟩ := Option.bind_eq_some_iff.mp hkey
    exact ⟨found, rfl, lists.returnTy_eq h.only (SymbolTable.mem_values_of_method? hfound)
      (h.key tys htys found hfound)⟩
  | none =>
    refine ⟨named, hnamed, lists.returnTy_eq h.only (List.mem_of_find?_eq_some hnamed) ?_⟩
    simpa using List.find?_some hnamed

/-- Such a call has the type that the method returns. -/
theorem Call.Reaches.typeOf?_eq (h : call.Reaches table program scope callee)
    (lists : Lists table program) :
    table.typeOf? scope (.call call.receiver call.method call.args call.ty) call.expected =
      some callee.returnTy := by
  obtain ⟨found, hfound, hreturn⟩ := h.exists_ownMethod? lists
  rw [h.unannotated, SymbolTable.typeOf?]
  simp only [h.receiver, if_true, hfound, hreturn]

theorem Call.Reaches.name_eq (h : call.Reaches table program scope callee) :
    callee.name = call.method := by
  have hcallee : callee ∈ program.decl.methods.filter (·.name = call.method) := by simp [h.only]
  simpa using (List.mem_filter.mp hcallee).2

/-- Such a call is lowered to an invocation that has the name and the result of the method. -/
theorem Call.Reaches.invocation_eq (h : call.Reaches table program scope callee)
    (lists : Lists table program) {invocation : Code.Invocation}
    (hcall : call.invocation? table scope = some invocation) :
    invocation.method = callee.name ∧ invocation.returnTy = .ofSource callee.returnTy ∧
      call.args.mapM (table.argTy? scope) = some invocation.args := by
  obtain ⟨passed, hpassed, hcall⟩ := Option.bind_eq_some_iff.mp hcall
  obtain ⟨ty, hty, hcall⟩ := Option.bind_eq_some_iff.mp hcall
  cases hcall
  obtain rfl := Option.some.inj ((h.typeOf?_eq lists).symm.trans hty)
  refine ⟨h.name_eq.symm, ?_, hpassed⟩
  dsimp only
  split
  · next hoperand =>
    have hvalue := h.value hoperand
    cases hreturn : callee.returnTy with
    | void => exact absurd hreturn hvalue
    | int | boolean | string | named | array => rfl
  · rfl

/-- Whether an argument is handed on in the type of its parameter. -/
def SymbolTable.Suits (table : SymbolTable) (scope : Scope) (arg : Expr) (parameter : Symbol) :
    Prop :=
  (table.isOpen scope arg → parameter.ty = .int) ∧
    (parameter.ty = .void → arg.isVariable scope)

instance (arg : Expr) (parameter : Symbol) : Decidable (table.Suits scope arg parameter) :=
  inferInstanceAs (Decidable (_ ∧ _))

theorem not_isVariable_of_isOpen {expr : Expr} (h : table.isOpen scope expr) :
    expr.isVariable scope = false := by
  cases expr with
  | call => rfl
  | _ => cases h

/-- An argument is handed on in the type of its parameter or as an integer. -/
theorem argTy?_cases {arg : Expr} {parameter : Symbol}
    (h : table.typeOf? scope arg none = some parameter.ty ∨ table.isOpen scope arg) :
    table.Suits scope arg parameter ∧ table.argTy? scope arg = some (.ofSource parameter.ty) ∨
      ¬ table.Suits scope arg parameter ∧ parameter.ty ≠ .int ∧
        table.argTy? scope arg = some .int := by
  by_cases hopen : table.isOpen scope arg
  · -- without a context the call is void, and no void value is handed on
    have hint : table.argTy? scope arg = some .int := by
      simp [SymbolTable.argTy?, typeOf?_of_isOpen hopen, Expr.valueTy,
        not_isVariable_of_isOpen hopen]
    by_cases hparameter : parameter.ty = .int
    · refine .inl ⟨⟨fun _ => hparameter, ?_⟩, by rw [hint, hparameter]; rfl⟩
      intro hvoid
      rw [hparameter] at hvoid
      cases hvoid
    · exact .inr ⟨fun suits => hparameter (suits.1 hopen), hparameter, hint⟩
  · have hty := h.resolve_right hopen
    by_cases hvoid : parameter.ty = .void ∧ arg.isVariable scope = false
    · refine .inr ⟨fun suits => ?_, by simp [hvoid.1], ?_⟩
      · have hvariable := suits.2 hvoid.1
        rw [hvoid.2] at hvariable
        cases hvariable
      · simp [SymbolTable.argTy?, hty, Expr.valueTy, hvoid]
    · refine .inl ⟨⟨fun h => absurd h hopen, fun hty => ?_⟩, ?_⟩
      · simpa [hty] using hvoid
      · simp [SymbolTable.argTy?, hty, Expr.valueTy, hvoid]

end ClassCompiler.Source

namespace ClassCompiler.Code.Class

theorem descriptor_int_ne (cls : Class) {ty : Source.Ty} (h : ty ≠ .int) :
    cls.descriptor .int ≠ cls.descriptor (.ofSource ty) := by
  intro hsame
  have hchars := congrArg String.toList hsame
  cases ty with
  | int => exact h rfl
  | _ => simp [Ty.ofSource, descriptor] at hchars

/-- No descriptor is shorter than that of an integer. -/
theorem length_descriptor_int_le (cls : Class) (ty : Ty) :
    (cls.descriptor .int).length ≤ (cls.descriptor ty).length := by
  cases ty with
  | int | bool | void | string =>
    simp only [descriptor]
    decide
  | array element =>
    rw [descriptor, descriptor, String.length_append]
    exact Nat.le_add_right_of_le (by decide)
  | object name =>
    rw [descriptor, descriptor, String.length_append]
    exact Nat.le_add_left_of_le (by decide)

section

variable {texts texts' : List String}

theorem length_join_le
    (h : List.Forall₂ (fun text text' => text.length ≤ text'.length) texts texts') :
    (String.join texts).length ≤ (String.join texts').length := by
  induction h with
  | nil => rfl
  | cons hfirst _ ih =>
    simp only [String.join_cons, String.length_append]
    omega

/-- Texts of which none is longer than its counterpart are the same if they join to the same. -/
theorem eq_of_join_eq
    (hle : List.Forall₂ (fun text text' => text.length ≤ text'.length) texts texts')
    (h : String.join texts = String.join texts') : texts = texts' := by
  induction hle with
  | nil => rfl
  | @cons first first' rest rest' hfirst hrest ih =>
    simp only [String.join_cons] at h
    -- the rest cannot make up for a first text that is shorter, so the first two are of one length
    have hlength := congrArg String.length h
    have hothers := length_join_le hrest
    simp only [String.length_append] at hlength
    have hchars : first.toList ++ (String.join rest).toList =
        first'.toList ++ (String.join rest').toList := by
      rw [← String.toList_append, h, String.toList_append]
    obtain ⟨hsame, hjoined⟩ := List.append_inj hchars (by
      rw [String.length_toList, String.length_toList]
      omega)
    rw [String.toList_inj.mp hsame, ih (String.toList_inj.mp hjoined)]

end

end ClassCompiler.Code.Class

namespace ClassCompiler.Stack

open Source (Expr Scope SymbolTable)

variable {table : SymbolTable} {program : Source.Program} {scope : Scope} {cls : Code.Class}
  {method callee : Source.Method}

def declaredDescriptor (cls : Code.Class) (method : Source.Method) : String :=
  cls.methodDescriptor (method.parameters.map fun parameter => .ofSource parameter.ty)
    (.ofSource method.returnTy)

def declaredHeader (cls : Code.Class) (method : Source.Method) : String :=
  ".method public " ++ (if method.isStatic then "static " else "") ++ method.name ++
    declaredDescriptor cls method

theorem methodHeader_of_lowered {source : Code.Method}
    (h : Lowering.lowerMethod table method = .ok source) :
    methodHeader cls source = declaredHeader cls method := by
  obtain ⟨hname, hkind, hparameters, hreturn, hconstructor⟩ := Lowering.lowerMethod_header h
  have htys : source.parameters.map (·.ty) =
      method.parameters.map fun parameter => .ofSource parameter.ty := by
    refine List.ext_getElem? fun index => ?_
    rw [hparameters, List.getElem?_map, Lowering.getElem?_parameters, List.getElem?_map]
    cases method.parameters[index]? <;> rfl
  simp only [methodHeader, hconstructor, htys, hname, hkind, hreturn]
  rfl

/-- Registers do not matter to headers. -/
theorem methodHeader_of_allocated {bound? : Option UInt16} {source code : Code.Method}
    (h : Registers.Allocated bound? source code) :
    methodHeader cls code = methodHeader cls source := by
  obtain ⟨map, _, _, rfl⟩ := h
  have htys : (Registers.assign map source).parameters.map (·.ty) = source.parameters.map (·.ty) :=
    List.map_map
  simp only [methodHeader, htys]
  rfl

/-- An argument that nothing gives a type is handed on as an integer. No descriptor is shorter than
that of an integer, so one argument cannot make up for another. -/
theorem descriptors_of_args (cls : Code.Class) {args : List Expr} {parameters : List Source.Symbol}
    {passed : List Code.Ty}
    (hargs : List.Forall₂ (fun arg parameter =>
      table.typeOf? scope arg none = some parameter.ty ∨ table.isOpen scope arg) args parameters)
    (hpassed : args.mapM (table.argTy? scope) = some passed) :
    List.Forall₂ (fun text text' => text.length ≤ text'.length) (passed.map cls.descriptor)
        (parameters.map fun parameter => cls.descriptor (.ofSource parameter.ty)) ∧
      (passed.map cls.descriptor =
          parameters.map (fun parameter => cls.descriptor (.ofSource parameter.ty)) ↔
        List.Forall₂ (table.Suits scope) args parameters) := by
  induction hargs generalizing passed with
  | nil =>
    cases hpassed
    exact ⟨.nil, by simp⟩
  | @cons arg parameter _ _ hfirst _ ih =>
    rw [List.mapM_cons] at hpassed
    obtain ⟨ty, hty, hpassed⟩ := Option.bind_eq_some_iff.mp hpassed
    obtain ⟨tys, htys, hpassed⟩ := Option.bind_eq_some_iff.mp hpassed
    cases hpassed
    obtain ⟨hle, hsame⟩ := ih htys
    rw [List.map_cons, List.map_cons, List.cons.injEq, List.forall₂_cons, List.forall₂_cons, hsame]
    rcases Source.argTy?_cases hfirst with ⟨suits, hty'⟩ | ⟨unsuited, hint, hty'⟩
    · cases hty.symm.trans hty'
      exact ⟨⟨le_rfl, hle⟩, by simp [suits]⟩
    · cases hty.symm.trans hty'
      have hdiffer := cls.descriptor_int_ne hint
      exact ⟨⟨cls.length_descriptor_int_le _, hle⟩, by simp [unsuited, hdiffer]⟩

/-- A call that reaches a method of the class names it, and has its descriptor exactly if the
arguments suit the parameters. -/
theorem linked_of_reaches {call : Source.Call} {invocation : Code.Invocation} {ref : MethodRef}
    (reaches : call.Reaches table program scope callee) (lists : Source.Lists table program)
    (hcall : call.invocation? table scope = some invocation) (hrefers : Refers cls invocation ref) :
    ref.name = callee.name ∧ (ref.descriptor = declaredDescriptor cls callee ↔
      List.Forall₂ (table.Suits scope) call.args callee.parameters) := by
  obtain ⟨hname, hreturn, hpassed⟩ := reaches.invocation_eq lists hcall
  obtain ⟨hle, hsuits⟩ := descriptors_of_args cls reaches.args hpassed
  have hdeclared : declaredDescriptor cls callee =
      "(" ++ String.join (callee.parameters.map fun parameter =>
        cls.descriptor (.ofSource parameter.ty)) ++ ")" ++
        cls.descriptor (.ofSource callee.returnTy) := by
    rw [declaredDescriptor, Code.Class.methodDescriptor, List.map_map]
    rfl
  refine ⟨hrefers.name.trans hname, ?_⟩
  rw [hrefers.descriptor, hreturn, ← hsuits, hdeclared, Code.Class.methodDescriptor]
  constructor
  · intro h
    exact Code.Class.eq_of_join_eq hle (by simpa using h)
  · intro h
    rw [h]

variable {analysis : Source.Analysis} {settings : Settings} {compiled : Compiled}

/-- The calls of a class to its own methods, once it has been compiled. Every method has the header
of its declaration. A call that reaches a method invokes it by its name, and by the descriptor of
the header exactly if each argument suits its parameter: where only the context could give an
argument a type, the parameter has to be an integer. -/
theorem links_of_compile (h : compile analysis settings = .ok compiled)
    (lists : Source.Lists analysis.table analysis.program) :
    ∃ first rest,
      compiled.code.methods.mapM (bodyOf compiled.code · settings.optimize) = .ok (first :: rest) ∧
      compiled.assembly = "\n".intercalate (classHeader compiled.code ++
        (List.zipWith (methodLines compiled.code) compiled.code.methods (first :: rest)).flatten) ∧
      List.Forall₂ (fun method code => methodHeader compiled.code code =
        declaredHeader compiled.code method)
        analysis.program.decl.methods compiled.code.methods.tail ∧
      List.Forall₂ (fun method body => ∃ scope,
        analysis.table.method? method.signature = some scope ∧
        List.Forall₂ (fun call ref => ∀ callee,
          call.Reaches analysis.table analysis.program scope callee → ref.name = callee.name ∧
            (ref.descriptor = declaredDescriptor compiled.code callee ↔
              List.Forall₂ (analysis.table.Suits scope) call.args callee.parameters))
          (method.calls analysis.table scope) (invocations body.items))
        analysis.program.decl.methods rest := by
  obtain ⟨first, rest, hbodies, hassembly, _, _, hrest⟩ := serves_of_compile h
  obtain ⟨constructor, codes, hcodes, _, hmethods⟩ := allocated_of_compile h
  refine ⟨first, rest, hbodies, hassembly, ?_, hrest.imp ?_⟩
  · rw [hcodes]
    refine hmethods.imp ?_
    rintro method code ⟨source, hsource, hallocated⟩
    rw [methodHeader_of_allocated hallocated, methodHeader_of_lowered hsource]
  · rintro method body ⟨scope, hscope, serves⟩
    refine ⟨scope, hscope, serves.calls.imp ?_⟩
    rintro call ref ⟨invocation, hcall, hrefers⟩ callee reaches
    exact linked_of_reaches reaches lists hcall hrefers

def taking : Source.Method :=
  ⟨"take", false, [⟨"b", .boolean⟩, ⟨"n", .int⟩, ⟨"other", .named "Linking"⟩], .int, [],
    some (.name "n")⟩

/-- A call of that method, with an argument that nothing gives a type. -/
def takingCall : Source.Call :=
  ⟨.name "peer", "take", [.not (.bool false), .call (.name "io") "count" [] none, .this], none,
    some .int, true⟩

def linking : Source.Program :=
  ⟨["io"], "Linking", none, [], [taking,
    ⟨"run", false, [⟨"peer", .named "Linking"⟩], .int, [],
      some (.call takingCall.receiver takingCall.method takingCall.args takingCall.ty)⟩]⟩

def linkingAnalysis : Source.Analysis where
  program := linking
  table := Source.SymbolTable.addMethod (Source.SymbolTable.addMethod
    ⟨"Linking", none, ["io"], [], ∅⟩ ⟨"take", .int, taking.parameters, []⟩)
    ⟨"run", .int, [⟨"peer", .named "Linking"⟩], []⟩
  diagnostics := []

theorem lists_linking : Source.Lists linkingAnalysis.table linkingAnalysis.program := by
  constructor
  · decide +kernel
  · decide +kernel

theorem reaches_takingCall : takingCall.Reaches linkingAnalysis.table linkingAnalysis.program
    ⟨"run", .int, [⟨"peer", .named "Linking"⟩], []⟩ taking := by
  constructor
  · rfl
  · decide +kernel
  · rfl
  · decide
  · decide +kernel
  · decide +kernel

/-- The parameter for the argument that nothing gives a type is an integer, so the call has the
descriptor of the header. -/
theorem links_linking :
    ∃ compiled first rest ref, compile linkingAnalysis ⟨true, some 3⟩ = .ok compiled ∧
      compiled.code.methods.mapM (bodyOf compiled.code · true) = .ok (first :: rest) ∧
      compiled.code.methods.tail.map (methodHeader compiled.code) =
        [".method public take(ZILLinking;)I", ".method public run(LLinking;)I"] ∧
      (∃ run ∈ rest, ref ∈ invocations run.items) ∧ ref.name = "take" ∧
      ref.descriptor = declaredDescriptor compiled.code taking := by
  have hevaluated : (compile linkingAnalysis ⟨true, some 3⟩).toOption.map
      (fun compiled => compiled.code.methods.tail.map (methodHeader compiled.code)) =
      some [".method public take(ZILLinking;)I", ".method public run(LLinking;)I"] := by
    decide +kernel
  have hscope : linkingAnalysis.table.method? "run(Linking)" =
      some ⟨"run", .int, [⟨"peer", .named "Linking"⟩], []⟩ := by decide +kernel
  obtain ⟨compiled, hcompiled, hheaders⟩ := Outcome.exists_of_toOption hevaluated
  obtain ⟨first, rest, hbodies, _, _, hrest⟩ := links_of_compile hcompiled lists_linking
  obtain ⟨run, hrun, scope, hscope', hcalls⟩ :=
    Registers.exists_of_forall₂ hrest.flip (List.mem_cons_of_mem taking List.mem_cons_self)
  cases hscope.symm.trans hscope'
  obtain ⟨ref, href, hlinked⟩ := Registers.exists_of_forall₂ hcalls.flip
    (show takingCall ∈ _ from List.mem_cons_of_mem _ List.mem_cons_self)
  obtain ⟨hname, hdescriptor⟩ := hlinked taking reaches_takingCall
  exact ⟨compiled, first, rest, ref, hcompiled, hbodies, hheaders, ⟨run, hrun, href⟩, hname,
    hdescriptor.mpr (by decide +kernel)⟩

/-- A class that calls its own method with an argument that nothing gives a type, where the
parameter is no integer. -/
def mislinking : Source.Program :=
  ⟨["io"], "Main", none, [], [
    ⟨"take", false, [⟨"b", .boolean⟩], .int, [], some (.int 1)⟩,
    ⟨"run", false, [], .int, [],
      some (.call .this "take" [.call (.name "io") "flag" [] none] none)⟩]⟩

def mislinkingAnalysis : Source.Analysis where
  program := mislinking
  table := Source.SymbolTable.addMethod (Source.SymbolTable.addMethod
    ⟨"Main", none, ["io"], [], ∅⟩ ⟨"take", .int, [⟨"b", .boolean⟩], []⟩) ⟨"run", .int, [], []⟩
  diagnostics := []

/-- The method that the call invokes is not there. -/
theorem links_mislinking :
    ∃ compiled bodies, compile mislinkingAnalysis ⟨false, none⟩ = .ok compiled ∧
      compiled.code.methods.mapM (bodyOf compiled.code · false) = .ok bodies ∧
      compiled.code.methods.map (methodHeader compiled.code) = [".method public <init>()V",
        ".method public take(Z)I", ".method public run()I"] ∧
      bodies.map (fun body => (invocations body.items).map fun ref => (ref.name, ref.descriptor)) =
        [[], [], [("flag", "()I"), ("take", "(I)I")]] := by
  have hevaluated : (compile mislinkingAnalysis ⟨false, none⟩).toOption.map (fun compiled =>
      (compiled.code.methods.map (methodHeader compiled.code),
      (compiled.code.methods.mapM (bodyOf compiled.code · false)).toOption.map fun bodies =>
        bodies.map fun body =>
          (invocations body.items).map fun ref => (ref.name, ref.descriptor))) =
      some ([".method public <init>()V", ".method public take(Z)I", ".method public run()I"],
        some [[], [], [("flag", "()I"), ("take", "(I)I")]]) := by decide +kernel
  obtain ⟨compiled, hcompiled, hvalues⟩ := Outcome.exists_of_toOption hevaluated
  obtain ⟨hheaders, hvalues⟩ := Prod.mk.inj hvalues
  obtain ⟨bodies, hbodies, hinvoked⟩ := Outcome.exists_of_toOption hvalues
  exact ⟨compiled, bodies, hcompiled, hbodies, hheaders, hinvoked⟩

end ClassCompiler.Stack
