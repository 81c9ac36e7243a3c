import ClassCompiler.Progress

/-!
# The command line

Options may stand anywhere before `--`. Short switches may be written together, and the value of an
option may be attached to it.
-/

namespace ClassCompiler.Command

structure Options where
  file : String
  config : Option String
  out : Option String
  registers : Option UInt16
  optimize : Bool
  showCode : Bool
  showAssembly : Bool
  follow : Level
deriving DecidableEq

inductive Switch where
  | optimize
  | ir
  | jasmin
  | both
  | verbose
deriving DecidableEq

inductive Setting where
  | config
  | registers
  | out
deriving DecidableEq

structure Found where
  file : Option String
  config : Option String
  out : Option String
  registers : Option UInt16
  switches : List Switch
deriving DecidableEq

namespace Found

def nothing : Found := ⟨none, none, none, none, []⟩

def path? (text : String) : Option String := if text.isEmpty then none else some text

def once {α : Type} : Option α → Option α → Option (Option α)
  | none, some value => some (some value)
  | _, _ => none

/-- The number that decimal digits denote after an optional sign. -/
def number? (text : String) : Option Int :=
  let digits? (digits : List Char) : Option Nat :=
    if digits.isEmpty || !digits.all Char.isDigit then none
    else some (digits.foldl (fun value digit => value * 10 + (digit.toNat - '0'.toNat)) 0)
  match text.toList with
  | '+' :: digits => (digits? digits).map Int.ofNat
  | '-' :: digits => (digits? digits).map fun value => -Int.ofNat value
  | digits => (digits? digits).map Int.ofNat

def bound? (text : String) : Option UInt16 := do
  let value ← number? text
  if 0 ≤ value && value ≤ 65535 then some (UInt16.ofNat value.toNat) else none

def addFile (found : Found) (text : String) : Option Found := do
  return { found with file := ← once found.file (path? text) }

/-- Only the switch that follows progress more closely may be repeated. -/
def addSwitch (found : Found) (switch : Switch) : Option Found :=
  if switch ≠ .verbose && switch ∈ found.switches then none
  else some { found with switches := switch :: found.switches }

def addSetting (found : Found) (setting : Setting) (text : String) : Option Found := do
  match setting with
  | .config => return { found with config := ← once found.config (path? text) }
  | .out => return { found with out := ← once found.out (path? text) }
  | .registers => return { found with registers := ← once found.registers (bound? text) }

def levelOf : Nat → Level
  | 0 => .warn
  | 1 => .info
  | _ => .debug

/-- The options of a complete command line. Assembly is shown unless only code is asked for. -/
def finish (found : Found) : Option Options := do
  let has switch := decide (switch ∈ found.switches)
  let showCode := has .ir || has .both
  return {
    file := ← found.file
    config := found.config
    out := found.out
    registers := found.registers
    optimize := has .optimize
    showCode
    showAssembly := has .jasmin || has .both || !showCode
    follow := levelOf (found.switches.count .verbose) }

end Found

inductive Named where
  | switch (switch : Switch)
  | setting (setting : Setting)

def long? (name : String) : Option Named :=
  match name with
  | "optimize" => some (.switch .optimize)
  | "ir" => some (.switch .ir)
  | "jasmin" => some (.switch .jasmin)
  | "both" => some (.switch .both)
  | "verbose" => some (.switch .verbose)
  | "config" => some (.setting .config)
  | "registers" => some (.setting .registers)
  | "out" => some (.setting .out)
  | _ => none

def short? (letter : Char) : Option Named :=
  match letter with
  | 'o' => some (.switch .optimize)
  | 'v' => some (.switch .verbose)
  | 'r' => some (.setting .registers)
  | _ => none

def withoutEquals : List Char → List Char
  | '=' :: rest => rest
  | chars => chars

/-- Reads short options written together. If the last one takes a value that is not attached, it is
given back and the value is the next argument. -/
def readShort (found : Found) : List Char → Option (Found × Option Setting)
  | [] => some (found, none)
  | letter :: rest =>
    match short? letter with
    | some (.switch switch) => do readShort (← found.addSwitch switch) rest
    | some (.setting setting) =>
      if rest.isEmpty then some (found, some setting)
      else do return (← found.addSetting setting (String.ofList (withoutEquals rest)), none)
    | none => none

/-- Reads a long option, with the value that is attached to it behind an equals sign. -/
def readLong (found : Found) (chars : List Char) : Option (Found × Option Setting) :=
  let name := chars.takeWhile (· ≠ '=')
  let attached := chars.dropWhile (· ≠ '=')
  match long? (String.ofList name) with
  | some (.switch switch) =>
    if attached.isEmpty then do return (← found.addSwitch switch, none) else none
  | some (.setting setting) =>
    if attached.isEmpty then some (found, some setting)
    else do return (← found.addSetting setting (String.ofList (withoutEquals attached)), none)
  | none => none

/-- Whether an argument is an option, or the mark that ends the options. -/
def isOption (argument : String) : Bool :=
  match argument.toList with
  | '-' :: _ :: _ => true
  | _ => false

def readOption (found : Found) (argument : String) : Option (Found × Option Setting) :=
  match argument.toList with
  | '-' :: '-' :: chars => readLong found chars
  | '-' :: chars => readShort found chars
  | _ => none

/-- Reads arguments. The value of an option is no option itself. -/
def readArguments : List String → Found → Option Found
  | [], found => some found
  | argument :: rest, found =>
    if argument = "--" then rest.foldlM Found.addFile found
    else if isOption argument then
      match readOption found argument with
      | none => none
      | some (found, none) => readArguments rest found
      | some (found, some setting) =>
        match rest with
        | [] => none
        | value :: rest =>
          if isOption value then none
          else do readArguments rest (← found.addSetting setting value)
    else do readArguments rest (← found.addFile argument)

/-- The options of a command line, or none if it is not used as it should be. -/
def Options.ofArguments (arguments : List String) : Option Options := do
  (← readArguments arguments Found.nothing).finish

end ClassCompiler.Command
