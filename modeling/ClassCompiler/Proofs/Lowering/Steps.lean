import ClassCompiler.Lowering.Class
import ClassCompiler.Proofs.Machine.Code
import ClassCompiler.Proofs.Outcome

/-!
# What a step of lowering writes

A draft is read as a listing, of which every step of lowering writes a part at the end. For each
kind of expression and statement there is a lemma that says which steps a successful lowering was
made of.
-/

namespace ClassCompiler.Lowering

open Code (Condition Instr Labeled Operand Variable)
open Machine (Listing)
open Source (Expr Stmt)

variable {α β : Type} {context : Context} {draft draft' draft'' : Draft}

/-- A sequence of steps succeeds exactly if both do, the second on the draft that the first leaves.
-/
theorem bind_eq_ok {x : Lower α} {f : α → Lower β} {b : β} :
    (x >>= f) context draft = .ok b draft'' ↔
      ∃ a draft', x context draft = .ok a draft' ∧ f a context draft' = .ok b draft'' := by
  change (x context >>= fun a => f a context) draft = .ok b draft'' ↔ _
  cases h : x context draft with
  | ok a middle =>
    have hbind : (x context >>= fun a => f a context) draft = f a context middle := by
      simp [bind, EStateM.bind, h]
    rw [hbind]
    constructor
    · intro hf
      exact ⟨a, middle, rfl, hf⟩
    · rintro ⟨a', middle', hx, hf⟩
      cases hx
      exact hf
  | error fault middle =>
    have hbind : (x context >>= fun a => f a context) draft = .error fault middle := by
      simp [bind, EStateM.bind, h]
    rw [hbind]
    constructor
    · intro hf
      cases hf
    · rintro ⟨a', middle', hx, _⟩
      cases hx

theorem pure_eq_ok {a b : α} :
    (pure a : Lower α) context draft = .ok b draft' ↔ a = b ∧ draft = draft' := by
  constructor
  · intro h
    cases h
    exact ⟨rfl, rfl⟩
  · rintro ⟨rfl, rfl⟩
    rfl

/-- The next number is one of those that are tried. -/
theorem nextTemporary_mem (context : Context) (last : Nat) :
    nextTemporary context last ∈ List.range' (last + 1) (context.declaredCount + 1) := by
  simp only [nextTemporary]
  cases hfind : (List.range' (last + 1) (context.declaredCount + 1)).find? fun number =>
      !context.isDeclared (temporaryName number) with
  | none =>
    rw [Option.getD_none, List.mem_range'_1]
    omega
  | some number => exact List.mem_of_find?_eq_some hfind

theorem lt_nextTemporary (context : Context) (last : Nat) : last < nextTemporary context last :=
  (List.mem_range'_1.mp (nextTemporary_mem context last)).1

namespace Draft

/-- The code written so far with the labels that wait for an instruction. -/
def listing (draft : Draft) : Listing Instr :=
  Code.listing draft.code.toList ++ draft.pending.map .inl

def size (draft : Draft) : Nat := draft.listing.size

def write (draft : Draft) (instr : Instr) : Draft :=
  { draft with
    code := draft.code.push ⟨draft.pending, instr⟩
    pending := [] }

def mark (draft : Draft) (label : String) : Draft :=
  { draft with pending := draft.pending ++ [label] }

def fresh (draft : Draft) (context : Context) (ty : Code.Ty) : Variable :=
  .temporary (temporaryName (nextTemporary context draft.lastTemporary)) ty

def withFresh (draft : Draft) (context : Context) (ty : Code.Ty) : Draft :=
  { draft with
    temporaries := draft.temporaries.push (draft.fresh context ty)
    lastTemporary := nextTemporary context draft.lastTemporary }

@[simp] theorem listing_write (draft : Draft) (instr : Instr) :
    (draft.write instr).listing = draft.listing ++ [.inr instr] := by
  simp [listing, write]

@[simp] theorem listing_mark (draft : Draft) (label : String) :
    (draft.mark label).listing = draft.listing ++ [.inl label] := by
  simp [listing, mark]

@[simp] theorem listing_withFresh (draft : Draft) (context : Context) (ty : Code.Ty) :
    (draft.withFresh context ty).listing = draft.listing := rfl

theorem grows_write (draft : Draft) (instr : Instr) :
    draft.listing <+: (draft.write instr).listing := ⟨[.inr instr], by simp⟩

theorem grows_mark (draft : Draft) (label : String) :
    draft.listing <+: (draft.mark label).listing := ⟨[.inl label], by simp⟩

@[simp] theorem size_write (draft : Draft) (instr : Instr) :
    (draft.write instr).size = draft.size + 1 := by
  simp [size]

@[simp] theorem size_mark (draft : Draft) (label : String) :
    (draft.mark label).size = draft.size := by
  simp [size]

end Draft

theorem emit_eq_ok {instr : Instr} {done : Unit} :
    emit instr context draft = .ok done draft' ↔ draft' = draft.write instr := by
  constructor
  · intro h
    cases h
    rfl
  · rintro rfl
    rfl

theorem placeLabel_eq_ok {label : String} {done : Unit} :
    placeLabel label context draft = .ok done draft' ↔ draft' = draft.mark label := by
  constructor
  · intro h
    cases h
    rfl
  · rintro rfl
    rfl

theorem newTemporary_eq_ok {ty : Code.Ty} {var : Variable} :
    newTemporary ty context draft = .ok var draft' ↔
      var = draft.fresh context ty ∧ draft' = draft.withFresh context ty := by
  constructor
  · intro h
    cases h
    exact ⟨rfl, rfl⟩
  · rintro ⟨rfl, rfl⟩
    rfl

theorem receiver_eq_ok {var : Variable} :
    receiver context draft = .ok var draft' ↔ var = context.receiver ∧ draft' = draft := by
  constructor
  · intro h
    cases h
    exact ⟨rfl, rfl⟩
  · rintro ⟨rfl, rfl⟩
    rfl

theorem binding_eq_ok {name : String} {found : Binding}
    (h : binding name context draft = .ok found draft') :
    context.binding? name = some found ∧ draft' = draft := by
  obtain ⟨context', _, hread, h⟩ := bind_eq_ok.mp h
  cases hread
  cases hbinding : context.binding? name with
  | none => rw [hbinding] at h; cases h
  | some found' =>
    rw [hbinding] at h
    cases h
    exact ⟨rfl, rfl⟩

theorem place_eq_ok {name : String} {found : Source.Ty × Place}
    (h : place name context draft = .ok found draft') :
    context.place? name = some found ∧ draft' = draft := by
  obtain ⟨context', _, hread, h⟩ := bind_eq_ok.mp h
  cases hread
  cases hplace : context.place? name with
  | none => rw [hplace] at h; cases h
  | some found' =>
    rw [hplace] at h
    cases h
    exact ⟨rfl, rfl⟩

theorem typeOf_eq_ok {expr : Expr} {expected : Option Source.Ty} {ty : Source.Ty}
    (h : typeOf expr expected context draft = .ok ty draft') :
    context.typeOf? expr expected = some ty ∧ draft' = draft := by
  obtain ⟨context', _, hread, h⟩ := bind_eq_ok.mp h
  cases hread
  cases htype : context.typeOf? expr expected with
  | none => rw [htype] at h; cases h
  | some ty' =>
    rw [htype] at h
    cases h
    exact ⟨rfl, rfl⟩

/-- The expressions whose values an expression is made of, from left to right, with the types that
it wants of them. -/
def parts (context : Context) : Expr → List (Expr × Option Source.Ty)
  | .binary op left right =>
    [(left, some (Source.operandTy op)), (right, some (Source.operandTy op))]
  | .not operand => [(operand, some .boolean)]
  | .call receiver _ args _ =>
    match namedClass? context receiver with
    | some _ => args.map (·, none)
    | none => (receiver, none) :: args.map (·, none)
  | .length array => [(array, none)]
  | .newIntArray size => [(size, some .int)]
  | .index array position => [(array, none), (position, some .int)]
  | .int _ | .bool _ | .this | .name _ | .newObject _ => []

/-- Parts are smaller, so properties of expressions can be proved part by part. -/
theorem sizeOf_lt_of_mem_parts {expr : Expr} {part : Expr × Option Source.Ty}
    (h : part ∈ parts context expr) : sizeOf part.1 < sizeOf expr := by
  have hargs {args : List Expr} (h : part ∈ args.map (·, none)) : sizeOf part.1 < sizeOf args := by
    obtain ⟨arg, harg, rfl⟩ := List.mem_map.mp h
    exact List.sizeOf_lt_of_mem harg
  cases expr with
  | call receiver method args ty =>
    have hsize := Expr.call.sizeOf_spec receiver method args ty
    simp only [parts] at h
    split at h
    · have := hargs h
      omega
    · rcases List.mem_cons.mp h with rfl | h
      · simp only
        omega
      · have := hargs h
        omega
  | binary op left right =>
    simp only [parts, List.mem_cons, List.not_mem_nil, or_false] at h
    rcases h with rfl | rfl <;> simp only [Expr.binary.sizeOf_spec] <;> omega
  | index array position =>
    simp only [parts, List.mem_cons, List.not_mem_nil, or_false] at h
    rcases h with rfl | rfl <;> simp only [Expr.index.sizeOf_spec] <;> omega
  | not operand | length operand | newIntArray operand =>
    obtain rfl := List.mem_singleton.mp h
    simp
  | int | bool | this | name | newObject => cases h

/-- What holds of an expression whenever it holds of its parts holds of every expression. -/
theorem induction_on_parts {motive : Expr → Prop} (context : Context)
    (h : ∀ expr, (∀ part ∈ parts context expr, motive part.1) → motive expr) (expr : Expr) :
    motive expr :=
  h expr fun part _ => induction_on_parts context h part.1
termination_by sizeOf expr
decreasing_by exact sizeOf_lt_of_mem_parts ‹_›

/-- The instruction that yields the value of an expression, given operands for its parts. -/
inductive Forms (context : Context) : Expr → List Operand → Instr → Prop where
  | int (value : Int32) : Forms context (.int value) [] (.load (.int value))
  | bool (value : Bool) : Forms context (.bool value) [] (.load (.bool value))
  | this : Forms context .this [] (.load (.var context.receiver))
  | slot {name : String} {var : Variable}
      (h : context.binding? name = some (.place (.slot var))) :
      Forms context (.name name) [] (.load (.var var))
  | field {name : String} {field : Variable}
      (h : context.binding? name = some (.place (.field field))) :
      Forms context (.name name) [] (.getField (.var context.receiver) field)
  | className {name : String} {cls : Variable}
      (h : context.binding? name = some (.className cls)) :
      Forms context (.name name) [] (.load (.var cls))
  | binary (op : BinOp) (left right : Expr) (leftOperand rightOperand : Operand) :
      Forms context (.binary op left right) [leftOperand, rightOperand]
        (.binary op leftOperand rightOperand)
  | not (expr : Expr) (operand : Operand) : Forms context (.not expr) [operand] (.not operand)
  | static {receiver : Expr} {cls : Variable} (h : namedClass? context receiver = some cls)
      (method : String) (args : List Expr) (ty : Option Source.Ty) (operands : List Operand)
      (returnTy : Code.Ty) :
      Forms context (.call receiver method args ty) operands
        (.call .static (.var cls) (some method) operands returnTy)
  | virtual {receiver : Expr} (h : namedClass? context receiver = none) (method : String)
      (args : List Expr) (ty : Option Source.Ty) (target : Operand) (operands : List Operand)
      (returnTy : Code.Ty) :
      Forms context (.call receiver method args ty) (target :: operands)
        (.call .virtual target (some method) operands returnTy)
  | length (expr : Expr) (array : Operand) :
      Forms context (.length expr) [array] (.call .arrayLength array none [] .int)
  | newIntArray (expr : Expr) (size : Operand) :
      Forms context (.newIntArray expr) [size] (.call .newArray size none [] (.array .int))
  | index (expr position : Expr) (array : Variable) (operand : Operand) (ty : Code.Ty) :
      Forms context (.index expr position) [.var array, operand]
        (.load (.element array operand ty))

/-- The operands of some expressions, whose code is written one after the other. -/
inductive LowersAll (context : Context) :
    List (Expr × Option Source.Ty) → Draft → List Operand → Draft → Prop where
  | nil (draft : Draft) : LowersAll context [] draft [] draft
  | cons {expr : Expr} {expected : Option Source.Ty} {rest : List (Expr × Option Source.Ty)}
      {draft draft' draft'' : Draft} {operand : Operand} {operands : List Operand}
      (first : lowerValue expr expected context draft = .ok operand draft')
      (others : LowersAll context rest draft' operands draft'') :
      LowersAll context ((expr, expected) :: rest) draft (operand :: operands) draft''

theorem lowersAll_of_lowerArgs {args : List Expr} {operands : List Operand}
    (h : lowerArgs args context draft = .ok operands draft') :
    LowersAll context (args.map (·, none)) draft operands draft' := by
  induction args generalizing draft operands with
  | nil =>
    obtain ⟨rfl, rfl⟩ := pure_eq_ok.mp h
    exact .nil draft
  | cons first rest ih =>
    obtain ⟨instr, middle, hexpr, h⟩ := bind_eq_ok.mp h
    obtain ⟨operand, middle', hsimple, h⟩ := bind_eq_ok.mp h
    obtain ⟨others, middle'', hothers, h⟩ := bind_eq_ok.mp h
    obtain ⟨rfl, rfl⟩ := pure_eq_ok.mp h
    exact .cons (bind_eq_ok.mpr ⟨instr, middle, hexpr, hsimple⟩) (ih hothers)

theorem arrayVariable_eq_ok {operand : Operand} {array : Variable}
    (h : arrayVariable operand context draft = .ok array draft') :
    operand = .var array ∧ draft' = draft := by
  cases operand with
  | var var => cases h; exact ⟨rfl, rfl⟩
  | literal | element => cases h

theorem elementTy_eq_ok {array : Variable} {ty : Code.Ty}
    (h : elementTy array context draft = .ok ty draft') :
    array.ty.element? = some ty ∧ draft' = draft := by
  unfold elementTy at h
  cases helement : array.ty.element? with
  | none => rw [helement] at h; cases h
  | some element => rw [helement] at h; cases h; exact ⟨rfl, rfl⟩

/-- The draft after an object has been allocated into a variable and constructed there. -/
def Draft.allocate (draft : Draft) (target : Variable) (cls : String) : Draft :=
  (draft.write (.assign (.var target) target.ty (.newObject cls))).write
    (.construct (.var target))

/-- An expression is lowered by lowering its parts from left to right, up to `new`, which is done
before the value is there. -/
theorem lowerExpr_eq_ok {expr : Expr} {expected : Option Source.Ty} {instr : Instr}
    (h : lowerExpr expr expected context draft = .ok instr draft') :
    (∃ cls, expr = .newObject cls ∧ instr = .load (.var (draft.fresh context (.object cls))) ∧
      draft' = (draft.withFresh context (.object cls)).allocate
        (draft.fresh context (.object cls)) cls) ∨
    ∃ operands, LowersAll context (parts context expr) draft operands draft' ∧
      Forms context expr operands instr := by
  cases expr with
  | int value =>
    obtain ⟨rfl, rfl⟩ := pure_eq_ok.mp h
    exact .inr ⟨[], .nil _, .int value⟩
  | bool value =>
    obtain ⟨rfl, rfl⟩ := pure_eq_ok.mp h
    exact .inr ⟨[], .nil _, .bool value⟩
  | this =>
    obtain ⟨var, middle, hreceiver, hrest⟩ := bind_eq_ok.mp h
    obtain ⟨rfl, rfl⟩ := receiver_eq_ok.mp hreceiver
    obtain ⟨rfl, rfl⟩ := pure_eq_ok.mp hrest
    exact .inr ⟨[], .nil _, .this⟩
  | name name =>
    obtain ⟨found, middle, hbinding, h⟩ := bind_eq_ok.mp h
    obtain ⟨hfound, rfl⟩ := binding_eq_ok hbinding
    cases found with
    | className cls =>
      obtain ⟨rfl, rfl⟩ := pure_eq_ok.mp h
      exact .inr ⟨[], .nil _, .className hfound⟩
    | place place =>
      cases place with
      | slot var =>
        obtain ⟨rfl, rfl⟩ := pure_eq_ok.mp h
        exact .inr ⟨[], .nil _, .slot hfound⟩
      | field field =>
        obtain ⟨var, middle, hreceiver, hrest⟩ := bind_eq_ok.mp h
        obtain ⟨rfl, rfl⟩ := receiver_eq_ok.mp hreceiver
        obtain ⟨rfl, rfl⟩ := pure_eq_ok.mp hrest
        exact .inr ⟨[], .nil _, .field hfound⟩
  | binary op left right =>
    obtain ⟨leftInstr, draft₁, hleft, h⟩ := bind_eq_ok.mp h
    obtain ⟨leftOperand, draft₂, hleft', h⟩ := bind_eq_ok.mp h
    obtain ⟨rightInstr, draft₃, hright, h⟩ := bind_eq_ok.mp h
    obtain ⟨rightOperand, draft₄, hright', h⟩ := bind_eq_ok.mp h
    obtain ⟨rfl, rfl⟩ := pure_eq_ok.mp h
    have hfirst := bind_eq_ok.mpr ⟨leftInstr, draft₁, hleft, hleft'⟩
    have hsecond := bind_eq_ok.mpr ⟨rightInstr, draft₃, hright, hright'⟩
    exact .inr ⟨_, .cons hfirst (.cons hsecond (.nil _)), .binary op left right _ _⟩
  | not operand =>
    obtain ⟨inner, draft₁, hinner, h⟩ := bind_eq_ok.mp h
    obtain ⟨value, draft₂, hvalue, h⟩ := bind_eq_ok.mp h
    obtain ⟨rfl, rfl⟩ := pure_eq_ok.mp h
    have hfirst := bind_eq_ok.mpr ⟨inner, draft₁, hinner, hvalue⟩
    exact .inr ⟨_, .cons hfirst (.nil _), .not operand _⟩
  | call receiver method args ty =>
    obtain ⟨returnTy, draft₁, htype, hrest⟩ := bind_eq_ok.mp h
    obtain ⟨_, rfl⟩ := typeOf_eq_ok htype
    obtain ⟨context', draft₂, hread, h⟩ := bind_eq_ok.mp hrest
    cases hread
    refine .inr ?_
    cases hclass : namedClass? context receiver with
    | some cls =>
      simp only [hclass] at h
      obtain ⟨operands, draft₃, hargs, h⟩ := bind_eq_ok.mp h
      obtain ⟨rfl, rfl⟩ := pure_eq_ok.mp h
      refine ⟨operands, ?_, .static hclass method args ty operands _⟩
      simp only [parts, hclass]
      exact lowersAll_of_lowerArgs hargs
    | none =>
      simp only [hclass] at h
      obtain ⟨inner, draft₃, hinner, h⟩ := bind_eq_ok.mp h
      obtain ⟨target, draft₄, htarget, h⟩ := bind_eq_ok.mp h
      obtain ⟨operands, draft₅, hargs, h⟩ := bind_eq_ok.mp h
      obtain ⟨rfl, rfl⟩ := pure_eq_ok.mp h
      have hfirst := bind_eq_ok.mpr ⟨inner, draft₃, hinner, htarget⟩
      refine ⟨target :: operands, ?_, .virtual hclass method args ty target operands _⟩
      simp only [parts, hclass]
      exact .cons hfirst (lowersAll_of_lowerArgs hargs)
  | length array =>
    obtain ⟨inner, draft₁, hinner, h⟩ := bind_eq_ok.mp h
    obtain ⟨operand, draft₂, hoperand, h⟩ := bind_eq_ok.mp h
    obtain ⟨rfl, rfl⟩ := pure_eq_ok.mp h
    have hfirst := bind_eq_ok.mpr ⟨inner, draft₁, hinner, hoperand⟩
    exact .inr ⟨_, .cons hfirst (.nil _), .length array _⟩
  | newObject cls =>
    obtain ⟨temporary, draft₁, htemporary, h⟩ := bind_eq_ok.mp h
    obtain ⟨rfl, rfl⟩ := newTemporary_eq_ok.mp htemporary
    obtain ⟨_, draft₂, hassign, h⟩ := bind_eq_ok.mp h
    obtain rfl := emit_eq_ok.mp hassign
    obtain ⟨_, draft₃, hconstruct, h⟩ := bind_eq_ok.mp h
    obtain rfl := emit_eq_ok.mp hconstruct
    obtain ⟨rfl, rfl⟩ := pure_eq_ok.mp h
    exact .inl ⟨cls, rfl, rfl, rfl⟩
  | newIntArray size =>
    obtain ⟨inner, draft₁, hinner, h⟩ := bind_eq_ok.mp h
    obtain ⟨operand, draft₂, hoperand, h⟩ := bind_eq_ok.mp h
    obtain ⟨rfl, rfl⟩ := pure_eq_ok.mp h
    have hfirst := bind_eq_ok.mpr ⟨inner, draft₁, hinner, hoperand⟩
    exact .inr ⟨_, .cons hfirst (.nil _), .newIntArray size _⟩
  | index array position =>
    obtain ⟨inner, draft₁, hinner, h⟩ := bind_eq_ok.mp h
    obtain ⟨operand, draft₂, hoperand, h⟩ := bind_eq_ok.mp h
    obtain ⟨var, draft₃, hvar, hrest⟩ := bind_eq_ok.mp h
    obtain ⟨rfl, rfl⟩ := arrayVariable_eq_ok hvar
    obtain ⟨ty, draft₄, hty, hrest'⟩ := bind_eq_ok.mp hrest
    obtain ⟨_, rfl⟩ := elementTy_eq_ok hty
    obtain ⟨inner', draft₅, hinner', h⟩ := bind_eq_ok.mp hrest'
    obtain ⟨operand', draft₆, hoperand', h⟩ := bind_eq_ok.mp h
    obtain ⟨rfl, rfl⟩ := pure_eq_ok.mp h
    have hfirst := bind_eq_ok.mpr ⟨inner, draft₁, hinner, hoperand⟩
    have hsecond := bind_eq_ok.mpr ⟨inner', draft₅, hinner', hoperand'⟩
    exact .inr ⟨_, .cons hfirst (.cons hsecond (.nil _)), .index array position var _ ty⟩

/-- The draft after the value of an instruction has been kept in a new temporary. -/
def Draft.keep (draft : Draft) (context : Context) (ty : Code.Ty) (instr : Instr) : Draft :=
  (draft.withFresh context ty).write
    (.assign (.var (draft.fresh context ty)) ty (returning ty instr))

def keptTy : Code.Ty → Code.Ty
  | .void => .int
  | ty => ty

theorem materialize_eq_ok {instr : Instr} {var : Variable}
    (h : materialize instr context draft = .ok var draft') :
    var = draft.fresh context (keptTy instr.ty) ∧
      draft' = draft.keep context (keptTy instr.ty) instr := by
  obtain ⟨temporary, middle, htemporary, h⟩ := bind_eq_ok.mp h
  obtain ⟨rfl, rfl⟩ := newTemporary_eq_ok.mp htemporary
  obtain ⟨_, middle', hemit, h⟩ := bind_eq_ok.mp h
  obtain rfl := emit_eq_ok.mp hemit
  obtain ⟨rfl, rfl⟩ := pure_eq_ok.mp h
  exact ⟨rfl, rfl⟩

/-- The value of an instruction is the simple operand that it loads; any other value goes through a
temporary. -/
theorem simple_cases {instr : Instr} {operand : Operand}
    (h : simple instr context draft = .ok operand draft') :
    (instr = .load operand ∧ operand.isSimple ∧ draft' = draft) ∨
    ((∀ loaded, instr = .load loaded → loaded.isSimple = false) ∧
      operand = .var (draft.fresh context (keptTy instr.ty)) ∧
      draft' = draft.keep context (keptTy instr.ty) instr) := by
  have hkept {instr : Instr}
      (h : (do return .var (← materialize instr) : Lower Operand) context draft =
        .ok operand draft') :
      operand = .var (draft.fresh context (keptTy instr.ty)) ∧
        draft' = draft.keep context (keptTy instr.ty) instr := by
    obtain ⟨var, middle, hvar, h⟩ := bind_eq_ok.mp h
    obtain ⟨rfl, rfl⟩ := pure_eq_ok.mp h
    obtain ⟨rfl, rfl⟩ := materialize_eq_ok hvar
    exact ⟨rfl, rfl⟩
  cases instr with
  | load loaded =>
    by_cases hsimple : loaded.isSimple
    · simp only [simple, hsimple, if_true] at h
      obtain ⟨rfl, rfl⟩ := pure_eq_ok.mp h
      exact .inl ⟨rfl, hsimple, rfl⟩
    · simp only [simple, hsimple, if_false, Bool.false_eq_true] at h
      refine .inr ⟨?_, hkept h⟩
      rintro _ ⟨⟩
      simpa using hsimple
  | assign | binary | not | call | getField | putField | branch | goto | ret =>
    exact .inr ⟨nofun, hkept h⟩

theorem simple_eq_ok {instr : Instr} {operand : Operand}
    (h : simple instr context draft = .ok operand draft') :
    (instr = .load operand ∧ operand.isSimple ∧ draft' = draft) ∨
    ∃ ty, operand = .var (draft.fresh context ty) ∧ draft' = draft.keep context ty instr :=
  (simple_cases h).imp_right fun hkept => ⟨_, hkept.2⟩

theorem lowerValue_eq_ok {expr : Expr} {expected : Option Source.Ty} {operand : Operand}
    (h : lowerValue expr expected context draft = .ok operand draft'') :
    ∃ instr draft', lowerExpr expr expected context draft = .ok instr draft' ∧
      ((instr = .load operand ∧ operand.isSimple ∧ draft'' = draft') ∨
        ∃ ty, operand = .var (draft'.fresh context ty) ∧
          draft'' = draft'.keep context ty instr) := by
  obtain ⟨instr, draft', hexpr, hsimple⟩ := bind_eq_ok.mp h
  exact ⟨instr, draft', hexpr, simple_eq_ok hsimple⟩

def conditionParts : Expr → List (Expr × Option Source.Ty)
  | .binary .lt left right => [(left, some .int), (right, some .int)]
  | .binary .and left right => [(left, some .boolean), (right, some .boolean)]
  | .not operand => [(operand, some .boolean)]
  | expr => [(expr, some .boolean)]

/-- The condition of a branch, given operands for what it tests. -/
inductive Tests : Expr → List Operand → Condition → Prop where
  | lt (left right : Expr) (leftOperand rightOperand : Operand) :
      Tests (.binary .lt left right) [leftOperand, rightOperand]
        (.binary .lt leftOperand rightOperand)
  | and (left right : Expr) (leftOperand rightOperand : Operand) :
      Tests (.binary .and left right) [leftOperand, rightOperand]
        (.binary .and leftOperand rightOperand)
  | not (expr : Expr) (operand : Operand) : Tests (.not expr) [operand] (.not operand)
  | holds {expr : Expr} (h : conditionParts expr = [(expr, some .boolean)]) (operand : Operand) :
      Tests expr [operand] (.holds operand)

/-- A condition is lowered as its operands are, and tested by the branch. -/
theorem lowerCondition_eq_ok {expr : Expr} {cond : Condition}
    (h : lowerCondition expr context draft = .ok cond draft') :
    ∃ operands, LowersAll context (conditionParts expr) draft operands draft' ∧
      Tests expr operands cond := by
  unfold lowerCondition at h
  split at h
  · next left right =>
    obtain ⟨leftOperand, middle, hleft, h⟩ := bind_eq_ok.mp h
    obtain ⟨rightOperand, middle', hright, h⟩ := bind_eq_ok.mp h
    obtain ⟨rfl, rfl⟩ := pure_eq_ok.mp h
    exact ⟨_, .cons hleft (.cons hright (.nil _)), .lt left right _ _⟩
  · next left right =>
    obtain ⟨leftOperand, middle, hleft, h⟩ := bind_eq_ok.mp h
    obtain ⟨rightOperand, middle', hright, h⟩ := bind_eq_ok.mp h
    obtain ⟨rfl, rfl⟩ := pure_eq_ok.mp h
    exact ⟨_, .cons hleft (.cons hright (.nil _)), .and left right _ _⟩
  · next operand =>
    obtain ⟨value, middle, hvalue, h⟩ := bind_eq_ok.mp h
    obtain ⟨rfl, rfl⟩ := pure_eq_ok.mp h
    exact ⟨_, .cons hvalue (.nil _), .not operand _⟩
  · next hlt hand hnot =>
    obtain ⟨value, middle, hvalue, h⟩ := bind_eq_ok.mp h
    obtain ⟨rfl, rfl⟩ := pure_eq_ok.mp h
    have hparts : conditionParts expr = [(expr, some .boolean)] := by
      unfold conditionParts
      split
      · exact absurd rfl (hlt _ _)
      · exact absurd rfl (hand _ _)
      · exact absurd rfl (hnot _)
      · rfl
    rw [hparts]
    exact ⟨_, .cons hvalue (.nil _), .holds hparts _⟩

/-- What a label of lowered code marks: the first branch and the end of a conditional, or the test,
the body and the end of a loop. -/
inductive LabelKind where
  | onTrue
  | endif
  | test
  | body
  | endloop
deriving DecidableEq

namespace LabelKind

def stem : LabelKind → String
  | .onTrue => "then"
  | .endif => "endif"
  | .test => "loop"
  | .body => "body"
  | .endloop => "endloop"

def label (kind : LabelKind) (number : Nat) : String := kind.stem ++ toString number

def last (kind : LabelKind) (draft : Draft) : Nat :=
  match kind with
  | .onTrue | .endif => draft.lastConditional
  | .test | .body | .endloop => draft.lastLoop

end LabelKind

namespace Draft

def newLabel (draft : Draft) (kind : LabelKind) : String := kind.label (kind.last draft + 1)

@[simp] theorem last_write (kind : LabelKind) (draft : Draft) (instr : Instr) :
    kind.last (draft.write instr) = kind.last draft := by
  cases kind <;> rfl

@[simp] theorem last_mark (kind : LabelKind) (draft : Draft) (label : String) :
    kind.last (draft.mark label) = kind.last draft := by
  cases kind <;> rfl

@[simp] theorem last_withFresh (kind : LabelKind) (draft : Draft) (context : Context)
    (ty : Code.Ty) : kind.last (draft.withFresh context ty) = kind.last draft := by
  cases kind <;> rfl

def withConditional (draft : Draft) : Draft :=
  { draft with lastConditional := draft.lastConditional + 1 }

def withLoop (draft : Draft) : Draft := { draft with lastLoop := draft.lastLoop + 1 }

end Draft

/-- Statements are built from statements. -/
@[elab_as_elim]
theorem stmt_induction {motive : Stmt → Prop}
    (block : ∀ body, (∀ stmt ∈ body, motive stmt) → motive (.block body))
    (ifElse : ∀ cond onTrue onFalse, motive onTrue → motive onFalse →
      motive (.ifElse cond onTrue onFalse))
    («while» : ∀ cond body, motive body → motive (.while cond body))
    (assign : ∀ target value, motive (.assign target value))
    (assignElement : ∀ target position value, motive (.assignElement target position value))
    (expr : ∀ value, motive (.expr value)) (stmt : Stmt) : motive stmt :=
  match stmt with
  | .block body =>
    block body fun stmt _ => stmt_induction block ifElse «while» assign assignElement expr stmt
  | .ifElse cond onTrue onFalse =>
    ifElse cond onTrue onFalse
      (stmt_induction block ifElse «while» assign assignElement expr onTrue)
      (stmt_induction block ifElse «while» assign assignElement expr onFalse)
  | .while cond body =>
    «while» cond body (stmt_induction block ifElse «while» assign assignElement expr body)
  | .assign target value => assign target value
  | .assignElement target position value => assignElement target position value
  | .expr value => expr value

/-- The drafts between the parts of a conditional, in the order in which they are written. -/
theorem lowerStmt_ifElse {cond : Expr} {onTrue onFalse : Stmt}
    (h : lowerStmt (.ifElse cond onTrue onFalse) context draft = .ok () draft') :
    ∃ test draft₁ draft₂ draft₃,
      lowerCondition cond context draft.withConditional = .ok test draft₁ ∧
      lowerStmt onFalse context
        (draft₁.write (.branch test (draft.newLabel .onTrue))) = .ok () draft₂ ∧
      lowerStmt onTrue context
        ((draft₂.write (.goto (draft.newLabel .endif))).mark
          (draft.newLabel .onTrue)) = .ok () draft₃ ∧
      draft' = draft₃.mark (draft.newLabel .endif) := by
  obtain ⟨labels, _, hlabels, hrest⟩ := bind_eq_ok.mp h
  cases hlabels
  obtain ⟨test, draft₁, htest, h⟩ := bind_eq_ok.mp hrest
  obtain ⟨_, _, hbranch, hrest⟩ := bind_eq_ok.mp h
  obtain rfl := emit_eq_ok.mp hbranch
  obtain ⟨_, draft₂, honFalse, h⟩ := bind_eq_ok.mp hrest
  obtain ⟨_, _, hgoto, hrest⟩ := bind_eq_ok.mp h
  obtain rfl := emit_eq_ok.mp hgoto
  obtain ⟨_, _, hthen, hrest'⟩ := bind_eq_ok.mp hrest
  obtain rfl := placeLabel_eq_ok.mp hthen
  obtain ⟨_, draft₃, honTrue, h⟩ := bind_eq_ok.mp hrest'
  obtain rfl := placeLabel_eq_ok.mp h
  exact ⟨test, draft₁, draft₂, draft₃, htest, honFalse, honTrue, rfl⟩

/-- The drafts between the parts of a loop, in the order in which they are written. -/
theorem lowerStmt_while {cond : Expr} {body : Stmt}
    (h : lowerStmt (.while cond body) context draft = .ok () draft') :
    ∃ test draft₁ draft₂,
      lowerCondition cond context (draft.withLoop.mark (draft.newLabel .test)) =
        .ok test draft₁ ∧
      lowerStmt body context
        (((draft₁.write (.branch test (draft.newLabel .body))).write
          (.goto (draft.newLabel .endloop))).mark (draft.newLabel .body)) =
        .ok () draft₂ ∧
      draft' = (draft₂.write (.goto (draft.newLabel .test))).mark
        (draft.newLabel .endloop) := by
  obtain ⟨labels, _, hlabels, hrest⟩ := bind_eq_ok.mp h
  cases hlabels
  obtain ⟨_, _, htop, hrest'⟩ := bind_eq_ok.mp hrest
  obtain rfl := placeLabel_eq_ok.mp htop
  obtain ⟨test, draft₁, htest, h⟩ := bind_eq_ok.mp hrest'
  obtain ⟨_, _, hbranch, hrest⟩ := bind_eq_ok.mp h
  obtain rfl := emit_eq_ok.mp hbranch
  obtain ⟨_, _, hgoto, hrest'⟩ := bind_eq_ok.mp hrest
  obtain rfl := emit_eq_ok.mp hgoto
  obtain ⟨_, _, hstart, hrest⟩ := bind_eq_ok.mp hrest'
  obtain rfl := placeLabel_eq_ok.mp hstart
  obtain ⟨_, draft₂, hbody, h⟩ := bind_eq_ok.mp hrest
  obtain ⟨_, _, hback, hrest⟩ := bind_eq_ok.mp h
  obtain rfl := emit_eq_ok.mp hback
  obtain rfl := placeLabel_eq_ok.mp hrest
  exact ⟨test, draft₁, draft₂, htest, hbody, rfl⟩

theorem lowerStmts_cons {first : Stmt} {rest : List Stmt}
    (h : lowerStmts (first :: rest) context draft = .ok () draft') :
    ∃ middle, lowerStmt first context draft = .ok () middle ∧
      lowerStmts rest context middle = .ok () draft' := by
  obtain ⟨_, middle, hfirst, hrest⟩ := bind_eq_ok.mp h
  exact ⟨middle, hfirst, hrest⟩

/-- How an assignment to a name is lowered: an object is allocated into the variable, any other
value is stored in it or in the field. -/
theorem lowerAssign_eq_ok {target : String} {value : Expr}
    (h : lowerAssign target value context draft = .ok () draft') :
    (∃ ty var, context.place? target = some (ty, .slot var) ∧
      ((∃ cls, value = .newObject cls ∧ draft' = draft.allocate var cls) ∨
        ∃ instr middle, (∀ cls, value ≠ .newObject cls) ∧
          lowerExpr value (some ty) context draft = .ok instr middle ∧
          draft' = middle.write (.assign (.var var) var.ty instr))) ∨
    ∃ ty field operand middle, context.place? target = some (ty, .field field) ∧
      lowerValue value (some ty) context draft = .ok operand middle ∧
      draft' = middle.write (.putField (.var context.receiver) field operand) := by
  obtain ⟨⟨ty, found⟩, _, hplace, hrest⟩ := bind_eq_ok.mp h
  obtain ⟨hfound, rfl⟩ := place_eq_ok hplace
  cases found with
  | slot var =>
    refine .inl ⟨ty, var, hfound, ?_⟩
    cases value with
    | newObject cls =>
      obtain ⟨_, _, hassign, hconstruct⟩ := bind_eq_ok.mp hrest
      obtain rfl := emit_eq_ok.mp hassign
      obtain rfl := emit_eq_ok.mp hconstruct
      exact .inl ⟨cls, rfl, rfl⟩
    | _ =>
      obtain ⟨instr, middle, hexpr, hemit⟩ := bind_eq_ok.mp hrest
      obtain rfl := emit_eq_ok.mp hemit
      exact .inr ⟨instr, middle, nofun, hexpr, rfl⟩
  | field field =>
    obtain ⟨operand, middle, hvalue, h⟩ := bind_eq_ok.mp hrest
    obtain ⟨var, _, hreceiver, hrest⟩ := bind_eq_ok.mp h
    obtain ⟨rfl, rfl⟩ := receiver_eq_ok.mp hreceiver
    obtain rfl := emit_eq_ok.mp hrest
    exact .inr ⟨ty, field, operand, _, hfound, hvalue, rfl⟩

/-- The variable that holds an array which is assigned to: a field is first copied to a temporary.
-/
inductive Held (context : Context) (draft : Draft) : Place → Variable → Draft → Prop where
  | slot (var : Variable) : Held context draft (.slot var) var draft
  | field (field : Variable) :
      Held context draft (.field field) (draft.fresh context field.ty)
        (draft.keep context field.ty (.getField (.var context.receiver) field))

theorem loadField_eq_ok {field var : Variable}
    (h : loadField field context draft = .ok var draft') :
    Held context draft (.field field) var draft' := by
  obtain ⟨temporary, _, htemporary, hrest⟩ := bind_eq_ok.mp h
  obtain ⟨rfl, rfl⟩ := newTemporary_eq_ok.mp htemporary
  obtain ⟨receiver, _, hreceiver, hrest'⟩ := bind_eq_ok.mp hrest
  obtain ⟨rfl, rfl⟩ := receiver_eq_ok.mp hreceiver
  obtain ⟨_, _, hemit, hrest⟩ := bind_eq_ok.mp hrest'
  obtain rfl := emit_eq_ok.mp hemit
  obtain ⟨rfl, rfl⟩ := pure_eq_ok.mp hrest
  exact .field field

/-- An element is assigned to by putting the array in a variable, then the position and the
value. -/
theorem lowerAssignElement_cases {target : String} {position value : Expr}
    (h : lowerAssignElement target position value context draft = .ok () draft') :
    ∃ ty place elementTy array draft₁ operand draft₂ instr draft₃,
      context.place? target = some (ty, place) ∧ ty.element? = some elementTy ∧
      Held context draft place array draft₁ ∧
      lowerValue position (some .int) context draft₁ = .ok operand draft₂ ∧
      lowerExpr value (some elementTy) context draft₂ = .ok instr draft₃ ∧
      draft' = draft₃.write
        (.assign (.element array operand (.ofSource elementTy)) (.ofSource elementTy) instr) := by
  obtain ⟨⟨ty, found⟩, _, hplace, hrest⟩ := bind_eq_ok.mp h
  obtain ⟨hfound, rfl⟩ := place_eq_ok hplace
  cases helement : ty.element? with
  | none =>
    simp only [helement] at hrest
    cases hrest
  | some elementTy =>
    simp only [helement] at hrest
    cases found with
    | slot var =>
      obtain ⟨_, _, hpure, hrest⟩ := bind_eq_ok.mp hrest
      obtain ⟨rfl, rfl⟩ := pure_eq_ok.mp hpure
      obtain ⟨operand, draft₂, hposition, h⟩ := bind_eq_ok.mp hrest
      obtain ⟨instr, draft₃, hvalue, h⟩ := bind_eq_ok.mp h
      exact ⟨ty, _, elementTy, var, _, operand, draft₂, instr, draft₃, hfound, helement, .slot var,
        hposition, hvalue, emit_eq_ok.mp h⟩
    | field field =>
      obtain ⟨array, draft₁, harray, h⟩ := bind_eq_ok.mp hrest
      obtain ⟨operand, draft₂, hposition, h⟩ := bind_eq_ok.mp h
      obtain ⟨instr, draft₃, hvalue, h⟩ := bind_eq_ok.mp h
      exact ⟨ty, _, elementTy, array, draft₁, operand, draft₂, instr, draft₃, hfound, helement,
        loadField_eq_ok harray, hposition, hvalue, emit_eq_ok.mp h⟩

theorem lowerAssignElement_eq_ok {target : String} {position value : Expr}
    (h : lowerAssignElement target position value context draft = .ok () draft') :
    ∃ ty place array draft₁ operand draft₂ wanted instr draft₃ codeTy,
      context.place? target = some (ty, place) ∧ Held context draft place array draft₁ ∧
      lowerValue position (some .int) context draft₁ = .ok operand draft₂ ∧
      lowerExpr value wanted context draft₂ = .ok instr draft₃ ∧
      draft' = draft₃.write (.assign (.element array operand codeTy) codeTy instr) := by
  obtain ⟨ty, place, _, array, draft₁, operand, draft₂, instr, draft₃, hplace, _, hheld, hposition,
    hvalue, hdraft⟩ := lowerAssignElement_cases h
  exact ⟨ty, place, array, draft₁, operand, draft₂, _, instr, draft₃, _, hplace, hheld, hposition,
    hvalue, hdraft⟩

theorem lowerStmt_expr {value : Expr} (h : lowerStmt (.expr value) context draft = .ok () draft') :
    ∃ instr middle, lowerExpr value none context draft = .ok instr middle ∧
      draft' = middle.write instr := by
  obtain ⟨instr, middle, hexpr, hemit⟩ := bind_eq_ok.mp h
  exact ⟨instr, middle, hexpr, emit_eq_ok.mp hemit⟩

/-- The code of a method is that of its statements with a return behind it. -/
theorem lowerBody_eq_ok {method : Source.Method}
    (h : lowerBody method context draft = .ok () draft') :
    ∃ middle, lowerStmts method.body context draft = .ok () middle ∧
      ((method.returnTy = .void ∧ draft' = middle.write (.ret .void none)) ∨
        ∃ result operand middle', method.returnTy ≠ .void ∧ method.result = some result ∧
          lowerValue result (some method.returnTy) context middle = .ok operand middle' ∧
          draft' = middle'.write (.ret (.ofSource method.returnTy) (some operand))) := by
  obtain ⟨_, middle, hbody, hrest⟩ := bind_eq_ok.mp h
  refine ⟨middle, hbody, ?_⟩
  by_cases hvoid : method.returnTy = .void
  · simp only [hvoid] at hrest
    exact .inl ⟨hvoid, emit_eq_ok.mp hrest⟩
  · cases hresult : method.result with
    | none =>
      simp only [hresult] at hrest
      cases hrest
    | some result =>
      simp only [hresult] at hrest
      obtain ⟨operand, middle', hvalue, hrest⟩ := bind_eq_ok.mp hrest
      exact .inr ⟨result, operand, middle', hvoid, rfl, hvalue, emit_eq_ok.mp hrest⟩

theorem Draft.listing_of_pending (h : draft.pending = []) :
    Code.listing draft.code.toList = draft.listing := by
  simp [Draft.listing, h]

/-- A method has the code that was drafted for its body in the scope that the table has for it. -/
theorem lowerMethod_eq_ok {table : Source.SymbolTable} {method : Source.Method} {code : Code.Method}
    (h : lowerMethod table method = .ok code) :
    ∃ scope draft, table.method? method.signature = some scope ∧
      lowerBody method (.ofScope table scope) Draft.initial = .ok () draft ∧
      draft.pending = [] ∧ code.body = draft.code.toList ∧
      code.locals = declaredLocals scope ++ draft.temporaries.toList := by
  unfold lowerMethod at h
  cases hscope : table.method? method.signature with
  | none =>
    rw [hscope] at h
    cases h
  | some scope =>
    rw [hscope] at h
    obtain ⟨⟨body, temporaries⟩, hrun, hcode⟩ := Outcome.bind_eq_ok.mp h
    have hcode := Outcome.pure_eq_ok.mp hcode
    unfold runBody at hrun
    cases hbody : (lowerBody method).run (.ofScope table scope) Draft.initial with
    | error fault draft =>
      rw [hbody] at hrun
      cases hrun
    | ok done draft =>
      rw [hbody] at hrun
      simp only [Draft.finish, List.isEmpty_iff] at hrun
      split at hrun
      · next hpending =>
        cases hrun
        exact ⟨scope, draft, rfl, hbody, hpending, by rw [← hcode], by rw [← hcode]⟩
      · cases hrun

end ClassCompiler.Lowering
