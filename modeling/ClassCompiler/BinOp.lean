/-!
# Binary operators

Source expressions and the code they are lowered to have the same operators.
-/

namespace ClassCompiler

inductive BinOp where
  | add
  | sub
  | mul
  | div
  | lt
  | and
deriving DecidableEq

end ClassCompiler
