import TryRegions.BlockId
import TryRegions.Distinct
import TryRegions.Operand

/-! Exception handlers: the catch clauses of a method. -/

namespace TryRegions

/-- One catch clause. -/
structure Handler where
  /-- Given when the handler is registered with its method. -/
  number : Int := -1
  /-- Where the clause's code starts. -/
  offset : Int
  /-- The declared classes, each once, in the order of declaration. -/
  types : List TypeName := []
  /-- The block that control enters when the clause catches. -/
  entry : Option BlockId := none
  /-- The blocks of the clause's code. -/
  body : List BlockId := []
  /-- The variable that the caught value is bound to. -/
  arg : Option Operand := none
  removed : Bool := false
deriving DecidableEq, Repr, Inhabited

namespace Handler

/-- A clause at `offset` for the given classes, not registered yet. -/
def new (offset : Int) (types : List TypeName) : Handler :=
  { offset, types := appendNew [] types }

/-- A clause without classes, or with the root class among them, catches everything. -/
def catchesAll (h : Handler) : Bool := h.types.isEmpty || h.types.contains throwable

/-- The class of the bound variable: the declared one if it is the only one. -/
def argType (h : Handler) : TypeName :=
  match h.types with
  | [t] => t
  | _ => throwable

/-- The class that decides the clause's place among others: the first one declared. -/
def leadType (h : Handler) : TypeName := h.types.headD throwable

/-- Adds classes to the clause; a bound register takes the clause's new class. -/
def addTypes (h : Handler) (types : List TypeName) : Handler :=
  let merged := { h with types := appendNew h.types types }
  { merged with arg := merged.arg.map (Operand.retype merged.argType) }

def addBlock (h : Handler) (b : BlockId) : Handler := { h with body := insertNew h.body b }

/-- The order of clauses in catch sets: by offset, then by number. -/
def codeBefore (a b : Handler) : Bool :=
  if a.offset = b.offset then decide (a.number < b.number) else decide (a.offset < b.offset)

def typesText (h : Handler) : String :=
  if h.catchesAll then "all" else Text.joined " | " h.types

def text (h : Handler) : String :=
  "Handler#" ++ toString h.number ++ "(" ++ h.typesText ++ " @0x" ++ Text.hex h.offset ++ " -> " ++
    BlockId.labelOf h.entry ++ ")"

end Handler

end TryRegions
