import ClassCompiler.Code.Instr

/-!
# Methods and classes of code

A method is a flat list of labeled instructions with the variables that they use.
-/

namespace ClassCompiler.Code

/-- A method. Its locals are those of the program followed by the temporaries. -/
structure Method where
  name : String
  isStatic : Bool
  isConstructor : Bool
  parameters : List Variable
  returnTy : Ty
  locals : List Variable
  body : List Labeled
deriving DecidableEq

namespace Method

def receiverSlots (method : Method) : UInt16 := if method.isStatic then 0 else 1

/-- How many slots the receiver and the parameters take. The number has 16 bits, and what does not
fit into them is lost. -/
def reservedSlots (method : Method) : UInt16 :=
  method.receiverSlots + UInt16.ofNat method.parameters.length

/-- Every variable of the method: parameters, locals, then those of the body in reading order. -/
def vars (method : Method) : List Variable :=
  method.parameters ++ method.locals ++ method.body.flatMap (·.instr.vars)

def mapVars (f : Variable → Variable) (method : Method) : Method :=
  { method with
    parameters := method.parameters.map f
    locals := method.locals.map f
    body := method.body.map fun line => { line with instr := line.instr.mapVars f } }

/-- The highest register that the receiver, a parameter or a local takes. -/
def maxRegister? (method : Method) : Option UInt16 :=
  let receiver : List UInt16 := if method.isStatic then [] else [0]
  ((method.parameters ++ method.locals).filterMap (·.register) ++ receiver).max?

/-- How many slots a frame of the method has. -/
def frameSize (method : Method) : UInt16 :=
  match method.maxRegister? with
  | some register => register + 1
  | none => 0

end Method

structure Class where
  name : String
  superclass : Option String
  imports : List String
  fields : List Variable
  methods : List Method
deriving DecidableEq

namespace Class

def method? (cls : Class) (name : String) : Option Method := cls.methods.find? (·.name = name)

end Class

end ClassCompiler.Code
