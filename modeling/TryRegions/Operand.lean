import TryRegions.Text.Hex

/-! Operands of instructions: registers, and arguments that only have a name. -/

namespace TryRegions

/-- A full class name. -/
abbrev TypeName := String

/-- The class that every catchable class descends from. -/
def throwable : TypeName := "java.lang.Throwable"

structure RegisterFlags where
  /-- The variable is declared by the construct that binds it, such as a catch clause. -/
  customDeclare : Bool := false
  /-- Bits without a name, kept as given. -/
  unnamed : BitVec 7 := 0
deriving DecidableEq, Repr, Inhabited

namespace RegisterFlags

def ofMask (mask : BitVec 8) : RegisterFlags where
  customDeclare := mask.getLsbD 0
  unnamed := mask.extractLsb' 1 7

def toMask (f : RegisterFlags) : BitVec 8 := f.unnamed ++ BitVec.ofBool f.customDeclare

end RegisterFlags

structure Register where
  index : Int
  type : TypeName := ""
  flags : RegisterFlags := {}
deriving DecidableEq, Repr, Inhabited

inductive Operand where
  | register (r : Register)
  | named (name : String) (type : TypeName)
deriving DecidableEq, Repr

/-- A register shows its type only if it has one. -/
def Register.text (r : Register) : String :=
  if r.type = "" then "r" ++ toString r.index else "r" ++ toString r.index ++ ":" ++ r.type

namespace Operand

def type : Operand → TypeName
  | register r => r.type
  | named _ t => t

def text : Operand → String
  | register r => r.text
  | named n t => n ++ ":" ++ t

/-- An operand that is not there is shown as a question mark. -/
def textOf : Option Operand → String
  | some a => a.text
  | none => "?"

/-- Gives a register a new type; an operand that only has a name keeps its own. -/
def retype (t : TypeName) : Operand → Operand
  | register r => register { r with type := t }
  | named n u => named n u

end Operand

end TryRegions
