import ClassCompiler.Proofs.Lowering.Blocks

/-!
# Three-address form

An instruction of lowered code does one operation on literals and plain variables. An element of an
array is only copied or stored into, and only what is kept in a slot is assigned. The last
instruction of a method is its only return.
-/

namespace ClassCompiler.Code

/-- A variable that a program or its lowering can store into: a local, a parameter or a
temporary. -/
def Variable.isStorable (var : Variable) : Bool :=
  match var.role with
  | .declared | .parameter _ | .temporary => true
  | .field | .receiver | .className => false

namespace Operand

/-- A simple operand, or an element of an array at a simple index. -/
def isAddress : Operand → Bool
  | .element _ index _ => index.isSimple
  | _ => true

/-- What can be assigned: a variable, or an element of one at a simple index. -/
def isDestination : Operand → Bool
  | .var target => target.isStorable
  | .element array index _ => array.isStorable && index.isSimple
  | .literal _ _ => false

@[simp] theorem isSimple_var (var : Variable) : (Operand.var var).isSimple = true := rfl

end Operand

namespace Instr

def isValue : Instr → Bool
  | .load _ | .binary .. | .not _ | .call .. | .getField .. => true
  | _ => false

/-- Whether the instruction does one operation, on simple operands only. An element of an array is
copied or stored into, and is an operand of nothing else. -/
def isThreeAddress : Instr → Bool
  | .assign dest _ value => dest.isDestination && value.isValue && value.isThreeAddress
  | .load operand => operand.isAddress
  | instr => instr.operands.all (·.isSimple)

variable {instr : Instr}

theorem Yields.isThreeAddress (h : Yields instr) : instr.isValue ∧ instr.isThreeAddress := by
  refine ⟨by cases h <;> rfl, ?_⟩
  cases h with
  | @load operand h =>
    cases operand with
    | literal | var => rfl
    | element => cases h
  | element array ty h => exact h
  | binary op hleft hright => simp [Instr.isThreeAddress, operands, hleft, hright]
  | not h | length h | newIntArray h => simp [Instr.isThreeAddress, operands, h]
  | static cls method ty h => simpa [Instr.isThreeAddress, operands] using h
  | virtual method ty htarget h => simpa [Instr.isThreeAddress, operands, htarget] using h
  | newObject | getField => rfl

/-- Flat code is in three-address form where it stores into storable variables. -/
theorem Flat.isThreeAddress (h : Flat instr)
    (hstored : ∀ target ∈ instr.written?, target.isStorable) : instr.isThreeAddress := by
  cases h with
  | yields h => exact h.isThreeAddress.2
  | store target ty h =>
    simp [Instr.isThreeAddress, Operand.isDestination, h.isThreeAddress, hstored target rfl]
  | storeElement array elementTy ty hindex h =>
    simp [Instr.isThreeAddress, Operand.isDestination, h.isThreeAddress, hstored array rfl, hindex]
  | putField object field h => simp [Instr.isThreeAddress, operands, h]
  | branch target h => simpa [Instr.isThreeAddress, operands] using h
  | ret ty h => simpa [Instr.isThreeAddress, operands] using h
  | construct | goto => rfl

end Instr

theorem Method.Formed.isThreeAddress {method : Method} (formed : method.Formed) {line : Labeled}
    (hline : line ∈ method.body) : line.instr.isThreeAddress := by
  refine (formed.flat line hline).isThreeAddress fun target htarget => ?_
  have hfield := formed.noField target (mem_occurrences hline (Instr.mem_vars_of_written? htarget))
  obtain ⟨hreceiver, hclass⟩ := formed.stored line hline target htarget
  cases hrole : target.role <;> simp_all [Variable.isStorable]

end ClassCompiler.Code

namespace ClassCompiler.Lowering

/-- A lowered method returns at its end and nowhere else. -/
theorem return_last_lowerMethod {table : Source.SymbolTable} {source : Source.Method}
    {code : Code.Method} (h : lowerMethod table source = .ok code) :
    ∃ lines labels ty value, code.body = lines ++ [⟨labels, .ret ty value⟩] ∧
      ∀ line ∈ lines, line.instr.isReturn = false := by
  obtain ⟨blocks, final, ty, value, hbody, _, hreturns, hlast⟩ := blocks_lowerMethod h
  obtain ⟨lines, labels, hfinal, hlines⟩ := final.lines_eq
  refine ⟨blocks.flatMap (·.lines) ++ lines, labels, ty, value, ?_, ?_⟩
  · simp [hbody, hfinal, hlast]
  · refine List.forall_mem_append.mpr ⟨?_, hlines⟩
    intro line hline
    obtain ⟨block, hblock, hmem⟩ := List.mem_flatMap.mp hline
    obtain ⟨inner, labels, heq, hinner⟩ := block.lines_eq
    rw [heq] at hmem
    rcases List.mem_append.mp hmem with hmem | hmem
    · exact hinner line hmem
    · rw [List.mem_singleton.mp hmem]
      exact hreturns block hblock

/-- Lowered code is in three-address form, and the last instruction of a method is its only
return. -/
theorem three_address_form {table : Source.SymbolTable} {program : Source.Program}
    {cls : Code.Class} (h : lowerProgram table program = .ok cls) {method : Code.Method}
    (hmethod : method ∈ cls.methods) :
    (∀ line ∈ method.body, line.instr.isThreeAddress) ∧
      ∃ lines labels ty value, method.body = lines ++ [⟨labels, .ret ty value⟩] ∧
        ∀ line ∈ lines, line.instr.isReturn = false := by
  refine ⟨fun line hline => (formed_lowerProgram h hmethod).isThreeAddress hline, ?_⟩
  rcases mem_lowerProgram h hmethod with rfl | ⟨source, _, hsource⟩
  · refine ⟨[⟨[], .construct (.var (.receiver program.decl.name))⟩], [], .void, none, rfl, ?_⟩
    exact List.forall_mem_singleton.mpr rfl
  · exact return_last_lowerMethod hsource

/-- A method whose operands are compound throughout. -/
def gathering : Source.Method :=
  ⟨"gather", false, [⟨"from", .array .int⟩], .int,
    [.assignElement "rows" (.index (.name "from") (.index (.name "rows") (.int 0)))
        (.binary .mul (.index (.name "from") (.int 1)) (.length (.name "rows"))),
      .ifElse (.not (.binary .lt (.name "total") (.index (.name "rows") (.name "total"))))
        (.assign "total" (.binary .add (.name "total") (.index (.name "from") (.int 2))))
        (.assign "from" (.newIntArray (.binary .add (.name "total") (.int 1))))],
    some (.call .this "gather" [.name "rows"] none)⟩

def gatheringTable : Source.SymbolTable :=
  Source.SymbolTable.addMethod
    ⟨"Gatherer", none, [], [⟨"rows", .array .int⟩, ⟨"total", .int⟩], ∅⟩
    ⟨"gather", .int, [⟨"from", .array .int⟩], []⟩

def gatheringProgram : Source.Program :=
  ⟨[], "Gatherer", none, [⟨"rows", .array .int⟩, ⟨"total", .int⟩], [gathering]⟩

/-- Its code takes every operand apart. -/
theorem three_address_gathering :
    ∃ cls, lowerProgram gatheringTable gatheringProgram = .ok cls ∧
      cls.methods.map (·.body.length) = [2, 25] ∧
      ∀ method ∈ cls.methods, (∀ line ∈ method.body, line.instr.isThreeAddress) ∧
        ∃ lines labels ty value, method.body = lines ++ [⟨labels, .ret ty value⟩] ∧
          ∀ line ∈ lines, line.instr.isReturn = false := by
  have hlowered : (lowerProgram gatheringTable gatheringProgram).toOption.map
      (fun cls => cls.methods.map (·.body.length)) = some [2, 25] := by
    decide +kernel
  obtain ⟨cls, hcls, hlengths⟩ := Outcome.exists_of_toOption hlowered
  exact ⟨cls, hcls, hlengths, fun _ hmethod => three_address_form hcls hmethod⟩

end ClassCompiler.Lowering
