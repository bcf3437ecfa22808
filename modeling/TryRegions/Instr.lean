import TryRegions.CatchSet

/-! Instructions and what they do. -/

namespace TryRegions

/-- What an instruction does. -/
inductive Opcode where
  | nop
  | const
  | constString
  | move
  /-- Binds the caught value at the entry of a handler. -/
  | moveException
  | invoke
  | arith
  | div
  | arrayGet
  | arrayPut
  | fieldGet
  | fieldPut
  | newInstance
  | checkCast
  | monitorEnter
  | monitorExit
  | branch
  | goto
  | switch
  | ret
  | raise
  /-- A code that no operation is known for. -/
  | unknown (code : Nat)
deriving DecidableEq, Repr, Inhabited

namespace Opcode

/-- The known operations, by code from 0 on. -/
def known : List Opcode :=
  [nop, const, constString, move, moveException, invoke, arith, div, arrayGet, arrayPut, fieldGet,
    fieldPut, newInstance, checkCast, monitorEnter, monitorExit, branch, goto, switch, ret,
    raise]

def name : Opcode → String
  | nop => "nop"
  | const => "const"
  | constString => "const-string"
  | move => "move"
  | moveException => "move-exception"
  | invoke => "invoke"
  | arith => "arith"
  | div => "div"
  | arrayGet => "aget"
  | arrayPut => "aput"
  | fieldGet => "iget"
  | fieldPut => "iput"
  | newInstance => "new-instance"
  | checkCast => "check-cast"
  | monitorEnter => "monitor-enter"
  | monitorExit => "monitor-exit"
  | branch => "if"
  | goto => "goto"
  | switch => "switch"
  | ret => "return"
  | raise => "throw"
  | unknown _ => "unknown"

def ofCode (code : Nat) : Opcode := known[code]?.getD (unknown code)

def ofName? (name : String) : Option Opcode := known.find? fun op => op.name = name

/-- Whether the operation may raise an exception. -/
def canThrow : Opcode → Bool
  | nop | const | constString | move | moveException | branch | goto | ret => false
  | _ => true

end Opcode

structure InstrFlags where
  /-- The first instruction of a protected range. -/
  tryEnter : Bool := false
  /-- The last instruction of a protected range. -/
  tryLeave : Bool := false
  /-- The result stays in a variable of its own. -/
  dontInline : Bool := false
  /-- Bits without a name, kept as given. -/
  unnamed : BitVec 5 := 0
deriving DecidableEq, Repr, Inhabited

namespace InstrFlags

def ofMask (mask : BitVec 8) : InstrFlags where
  tryEnter := mask.getLsbD 0
  tryLeave := mask.getLsbD 1
  dontInline := mask.getLsbD 2
  unnamed := mask.extractLsb' 3 5

def toMask (f : InstrFlags) : BitVec 8 :=
  f.unnamed ++ BitVec.ofBool f.dontInline ++ BitVec.ofBool f.tryLeave ++ BitVec.ofBool f.tryEnter

end InstrFlags

structure Instr where
  opcode : Opcode
  offset : Int := 0
  result : Option Register := none
  args : List (Option Operand) := []
  flags : InstrFlags := {}
  /-- The handlers that cover the instruction, if any coverage was recorded. -/
  catches : Option CatchSet := none
  /-- The handler whose code starts here, as recorded in the method's handler table. -/
  entry : Option HandlerId := none
  /-- The handler whose bound variable the result is. -/
  binds : Option HandlerId := none
deriving DecidableEq, Repr, Inhabited

namespace Instr

def canThrow (i : Instr) : Bool := i.opcode.canThrow

/-- One line: offset, result, operation, operands. -/
def text (i : Instr) : String :=
  Text.hexPadded 4 i.offset ++ ": " ++
    (match i.result with
      | some r => r.text ++ " = "
      | none => "") ++
    i.opcode.name ++
    (if i.args.isEmpty then "" else " " ++ Text.joined ", " (i.args.map Operand.textOf)) ++
    (if i.flags.dontInline then " // don't inline" else "")

/-- Drops the coverage of an instruction that cannot raise an exception. -/
def dropIdleCoverage (i : Instr) : Instr := if i.canThrow then i else { i with catches := none }

end Instr

end TryRegions
