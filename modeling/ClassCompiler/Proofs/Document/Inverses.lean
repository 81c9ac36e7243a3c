import ClassCompiler.Document.Analysis
import ClassCompiler.Document.Settings
import ClassCompiler.Proofs.Json.Inverses
import ClassCompiler.Proofs.Json.Reading
import ClassCompiler.Proofs.NameMap

/-!
# Documents that read back

What is written of an analyzed program, of settings or of diagnostics reads back as it was. Only
trees can nest too deep for that, since types, expressions and statements have no bound.
-/

namespace ClassCompiler

open Json (Inverts within within_bind within_map eq_within_tagged eq_within_record list_eq_within
  inverts_flat inverts_record parts_ofMembers)

@[simp] theorem Severity.ofTag?_tag (severity : Severity) :
    ofTag? severity.tag = some severity := by
  cases severity <;> rfl

@[simp] theorem Stage.ofTag?_tag (stage : Stage) : ofTag? stage.tag = some stage := by
  cases stage <;> rfl

theorem Diagnostic.inverts : Inverts decode encode := by
  refine inverts_record (fun _ => rfl) fun depth diagnostic => ?_
  have hline := Json.inverts_uint32.nullable (fun _ => nofun) depth diagnostic.line
  rw [decode, parts_ofMembers (by rfl) (by decide)]
  simp [hline, within_bind]

theorem Settings.inverts : Inverts decode encode := by
  refine inverts_record (fun _ => rfl) fun depth settings => ?_
  have hbound := Json.inverts_uint16.nullable (fun _ => nofun) depth settings.maxRegisters
  rw [decode, parts_ofMembers (by rfl) (by decide)]
  simp [hbound, within_bind]

namespace Source

theorem inverts_text : Inverts decodeText .string :=
  inverts_flat Json.nesting_string Json.text?_string

theorem Ty.encode_ne_null (ty : Ty) : ty.encode ≠ .null := by cases ty <;> nofun

theorem Ty.inverts : Inverts decode encode := by
  intro depth ty
  have hzero : ∀ tag content, decode 0 (.tagged tag content) = none := by
    intro tag content
    simp [decode, Json.tagged, Json.ofMembers, Json.tag?]
  induction ty generalizing depth with
  | int | boolean | string | void =>
    simp [encode, decode, Json.string, Json.tag?, ofTag?, within, Json.nesting]
  | named name =>
    refine eq_within_tagged (hzero _ _) (fun depth => ?_) depth
    exact (congrArg (Option.map Ty.named) (inverts_text depth name)).trans (within_map ..)
  | array element ih =>
    refine eq_within_tagged (hzero _ _) (fun depth => ?_) depth
    exact (congrArg (Option.map Ty.array) (ih depth)).trans (within_map ..)

theorem Symbol.inverts : Inverts decode encode := by
  refine inverts_record (fun _ => rfl) fun depth symbol => ?_
  rw [decode, parts_ofMembers (by rfl) (by decide)]
  simp [Ty.inverts depth, within_bind]

theorem Scope.inverts : Inverts decode encode := by
  refine inverts_record (fun _ => rfl) fun depth scope => ?_
  have hsymbols := Symbol.inverts.list depth
  rw [decode, parts_ofMembers (by rfl) (by decide)]
  simp [Ty.inverts depth, hsymbols, within_bind, Symbol.encodeList, ite_and]

theorem SymbolTable.inverts : Inverts decode encode := by
  refine inverts_record (fun _ => rfl) fun depth table => ?_
  have hsuperclass := inverts_text.nullable (fun _ => nofun) depth table.superclass
  have himports := inverts_text.list depth table.imports
  have hfields := Symbol.inverts.list depth table.fields
  have hmethods := Scope.inverts.members depth table.methods.entries
  rw [decode, parts_ofMembers (by rfl) (by decide)]
  simp [hsuperclass, himports, hfields, hmethods, within_bind, Symbol.encodeList, Json.strings,
    NameMap.ofList_entries, ite_and]

@[simp] theorem opOfTag?_opTag (op : BinOp) : opOfTag? (opTag op) = some op := by
  cases op <;> rfl

theorem Expr.encodeList_eq_map (exprs : List Expr) : encodeList exprs = exprs.map encode := by
  induction exprs with
  | nil => rw [encodeList, List.map_nil]
  | cons first rest ih => rw [encodeList, ih, List.map_cons]

theorem Expr.decodeList_eq_list : decodeList = Json.list decode := by
  funext depth json
  cases depth with
  | zero => cases json <;> rfl
  | succ depth => cases json <;> rfl

theorem Expr.encode_ne_null (expr : Expr) : expr.encode ≠ .null := by cases expr <;> nofun

/-- Expressions are read back as they were written, as deep as a document may nest. -/
theorem Expr.inverts : Inverts decode encode := by
  intro depth expr
  match expr with
  | .int value =>
    refine eq_within_tagged rfl (fun depth => ?_) depth
    simp [Json.tagged, Json.ofMembers, decode, within]
  | .bool value =>
    refine eq_within_tagged rfl (fun depth => ?_) depth
    simp [Json.tagged, Json.ofMembers, decode, within]
  | .name id =>
    refine eq_within_tagged rfl (fun depth => ?_) depth
    simp [Json.tagged, Json.ofMembers, decode, within]
  | .this => cases depth <;> rfl
  | .binary op left right =>
    refine eq_within_tagged rfl (fun depth => ?_) depth
    refine eq_within_record (decodeRecord · "binary" ·) rfl (fun depth => ?_) depth
    rw [decodeRecord, parts_ofMembers (by rfl) (by decide)]
    simp [Expr.inverts depth left, Expr.inverts depth right, within_bind, ite_and]
  | .not operand =>
    refine eq_within_tagged rfl (fun depth => ?_) depth
    exact (congrArg (Option.map Expr.not) (Expr.inverts depth operand)).trans (within_map ..)
  | .call receiver method args ty =>
    refine eq_within_tagged rfl (fun depth => ?_) depth
    refine eq_within_record (decodeRecord · "call" ·) rfl (fun depth => ?_) depth
    have hargs : decodeList depth (.array (encodeList args)) =
        within depth (.array (encodeList args)) args := by
      rw [decodeList_eq_list, encodeList_eq_map]
      exact list_eq_within (fun arg _ depth => Expr.inverts depth arg) depth
    have hty := Ty.inverts.nullable Ty.encode_ne_null depth ty
    rw [decodeRecord, parts_ofMembers (by rfl) (by decide)]
    simp [Expr.inverts depth receiver, hargs, hty, within_bind, ite_and]
  | .length array =>
    refine eq_within_tagged rfl (fun depth => ?_) depth
    exact (congrArg (Option.map Expr.length) (Expr.inverts depth array)).trans (within_map ..)
  | .newObject id =>
    refine eq_within_tagged rfl (fun depth => ?_) depth
    simp [Json.tagged, Json.ofMembers, decode, within]
  | .newIntArray size =>
    refine eq_within_tagged rfl (fun depth => ?_) depth
    exact (congrArg (Option.map Expr.newIntArray) (Expr.inverts depth size)).trans (within_map ..)
  | .index array position =>
    refine eq_within_tagged rfl (fun depth => ?_) depth
    refine eq_within_record (decodeRecord · "index" ·) rfl (fun depth => ?_) depth
    rw [decodeRecord, parts_ofMembers (by rfl) (by decide)]
    simp [Expr.inverts depth array, Expr.inverts depth position, within_bind, ite_and]
termination_by _ expr => expr

theorem Stmt.encodeList_eq_map (stmts : List Stmt) : encodeList stmts = stmts.map encode := by
  induction stmts with
  | nil => rw [encodeList, List.map_nil]
  | cons first rest ih => rw [encodeList, ih, List.map_cons]

theorem Stmt.decodeList_eq_list : decodeList = Json.list decode := by
  funext depth json
  cases depth with
  | zero => cases json <;> rfl
  | succ depth => cases json <;> rfl

/-- Statements are read back as they were written, with the expressions in them. -/
theorem Stmt.inverts : Inverts decode encode := by
  intro depth stmt
  match stmt with
  | .block body =>
    refine eq_within_tagged rfl (fun depth => ?_) depth
    have hbody : decodeList depth (.array (encodeList body)) =
        within depth (.array (encodeList body)) body := by
      rw [decodeList_eq_list, encodeList_eq_map]
      exact list_eq_within (fun stmt _ depth => Stmt.inverts depth stmt) depth
    exact (congrArg (Option.map Stmt.block) hbody).trans (within_map ..)
  | .ifElse cond onTrue onFalse =>
    refine eq_within_tagged rfl (fun depth => ?_) depth
    refine eq_within_record (decodeRecord · "if" ·) rfl (fun depth => ?_) depth
    rw [decodeRecord, parts_ofMembers (by rfl) (by decide)]
    simp [Expr.inverts depth cond, Stmt.inverts depth onTrue, Stmt.inverts depth onFalse,
      within_bind, ite_and]
  | .while cond body =>
    refine eq_within_tagged rfl (fun depth => ?_) depth
    refine eq_within_record (decodeRecord · "while" ·) rfl (fun depth => ?_) depth
    rw [decodeRecord, parts_ofMembers (by rfl) (by decide)]
    simp [Expr.inverts depth cond, Stmt.inverts depth body, within_bind, ite_and]
  | .assign target value =>
    refine eq_within_tagged rfl (fun depth => ?_) depth
    refine eq_within_record (decodeRecord · "assign" ·) rfl (fun depth => ?_) depth
    rw [decodeRecord, parts_ofMembers (by rfl) (by decide)]
    simp [Expr.inverts depth value, within_bind]
  | .assignElement target position value =>
    refine eq_within_tagged rfl (fun depth => ?_) depth
    refine eq_within_record (decodeRecord · "array_assign" ·) rfl (fun depth => ?_) depth
    rw [decodeRecord, parts_ofMembers (by rfl) (by decide)]
    simp [Expr.inverts depth position, Expr.inverts depth value, within_bind, ite_and]
  | .expr value =>
    refine eq_within_tagged rfl (fun depth => ?_) depth
    exact (congrArg (Option.map Stmt.expr) (Expr.inverts depth value)).trans (within_map ..)
termination_by _ stmt => stmt

theorem Method.inverts : Inverts decode encode := by
  refine inverts_record (fun _ => rfl) fun depth method => ?_
  have hparameters := Symbol.inverts.list depth method.parameters
  have hbody := Stmt.inverts.list depth method.body
  have hresult := Expr.inverts.nullable Expr.encode_ne_null depth method.result
  rw [decode, parts_ofMembers (by rfl) (by decide)]
  simp [Ty.inverts depth method.returnTy, hparameters, hbody, hresult, within_bind,
    Symbol.encodeList, Stmt.decodeList_eq_list, Stmt.encodeList_eq_map, ite_and]

theorem Class.inverts : Inverts decode encode := by
  refine inverts_record (fun _ => rfl) fun depth decl => ?_
  have hsuperclass := inverts_text.nullable (fun _ => nofun) depth decl.superclass
  have hfields := Symbol.inverts.list depth decl.fields
  have hmethods := Method.inverts.list depth decl.methods
  rw [decode, parts_ofMembers (by rfl) (by decide)]
  simp [hsuperclass, hfields, hmethods, within_bind, Symbol.encodeList, ite_and]

theorem Program.inverts : Inverts decode encode := by
  refine inverts_record (fun _ => rfl) fun depth program => ?_
  have himports := inverts_text.list depth program.imports
  rw [decode, parts_ofMembers (by rfl) (by decide)]
  simp [himports, Class.inverts depth program.decl, within_bind, Json.strings, ite_and]

theorem Analysis.inverts : Inverts decode encode := by
  refine inverts_record (fun _ => rfl) fun depth analysis => ?_
  have hdiagnostics := Diagnostic.inverts.list depth analysis.diagnostics
  rw [decode, parts_ofMembers (by rfl) (by decide)]
  simp [Program.inverts depth analysis.program, SymbolTable.inverts depth analysis.table,
    hdiagnostics, within_bind, Diagnostic.encodeList, ite_and]

end Source

theorem Diagnostic.nesting_encode_le (diagnostic : Diagnostic) : diagnostic.encode.nesting ≤ 1 := by
  rw [encode, Json.nesting_ofMembers_le]
  cases diagnostic.line <;> simp [Json.ofOption, Json.nat, Json.nesting]

theorem Settings.nesting_encode_le (settings : Settings) : settings.encode.nesting ≤ 1 := by
  rw [encode, Json.nesting_ofMembers_le]
  cases settings.maxRegisters <;> simp [Json.ofOption, Json.nat, Json.nesting]

/-- The text of an analyzed program reads back as that program exactly if it nests no deeper than
documents may, and then it is what is written of what is read from it. The texts of settings and of
diagnostics always read back. -/
theorem documents_read_back (analysis : Source.Analysis) (settings : Settings)
    (diagnostics : List Diagnostic) :
    (Json.read analysis.encode.print).bind Source.Analysis.read =
        (if analysis.encode.nesting ≤ Json.maxNesting then some analysis else none) ∧
      (((Json.read analysis.encode.print).bind Source.Analysis.read).map (·.encode.print) =
          some analysis.encode.print ↔ analysis.encode.nesting ≤ Json.maxNesting) ∧
      (Json.read settings.encode.print).bind Settings.read = some settings ∧
      (Json.read (Diagnostic.encodeList diagnostics).print).bind Diagnostic.readList =
        some diagnostics := by
  have hanalysis : (Json.read analysis.encode.print).bind Source.Analysis.read =
      if analysis.encode.nesting ≤ Json.maxNesting then some analysis else none := by
    rw [Json.read_print]
    exact Source.Analysis.inverts Json.maxNesting analysis
  have hsettings : settings.encode.nesting ≤ Json.maxNesting :=
    settings.nesting_encode_le.trans (by decide)
  have hdiagnostics : (Diagnostic.encodeList diagnostics).nesting ≤ Json.maxNesting := by
    refine Json.nesting_array_le.mpr (List.forall_mem_map.mpr fun diagnostic _ => ?_)
    exact diagnostic.nesting_encode_le.trans (by decide)
  refine ⟨hanalysis, ?_, ?_, ?_⟩
  · rw [hanalysis]
    by_cases hfits : analysis.encode.nesting ≤ Json.maxNesting
    · simp [hfits]
    · simp [hfits]
  · rw [Json.read_print]
    exact (Settings.inverts Json.maxNesting settings).trans (if_pos hsettings)
  · rw [Json.read_print]
    exact (Diagnostic.inverts.list Json.maxNesting diagnostics).trans (if_pos hdiagnostics)

end ClassCompiler
