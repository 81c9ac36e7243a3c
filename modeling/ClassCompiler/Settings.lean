/-!
# Settings of a compilation

The defaults are no optimization and no bound on registers.
-/

namespace ClassCompiler

/-- Settings of a compilation: whether additions of small constants to a variable become increment
instructions, and how many registers the locals of a method may take, if that is bounded. -/
structure Settings where
  optimize : Bool
  maxRegisters : Option UInt16
deriving DecidableEq

namespace Settings

def default : Settings := ⟨false, none⟩

instance : Inhabited Settings := ⟨default⟩

/-- A bound of no registers at all is refused. -/
def isValid (settings : Settings) : Bool := settings.maxRegisters ≠ some 0

end Settings

end ClassCompiler
