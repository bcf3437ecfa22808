import TryRegions.Diagnostic.Basic
import TryRegions.Graph.Clean
import TryRegions.Region

/-! Methods: a flow graph with its catch clauses, try regions and diagnostics. -/

namespace TryRegions

structure Method where
  name : String
  graph : Graph := {}
  enter : Option BlockId := none
  exit : Option BlockId := none
  /-- Every handler ever made for the method. -/
  handlers : Array Handler := #[]
  /-- The handlers that the method has, in the order in which they were registered. -/
  registered : List HandlerId := []
  forest : Forest := {}
  /-- The regions that were found for the method. -/
  regions : List RegionId := []
  diagnostics : List Diagnostic := []
deriving DecidableEq, Repr

namespace Method

def handler (m : Method) (h : HandlerId) : Handler := m.handlers[h]?.getD default

def region (m : Method) (r : RegionId) : Region := m.forest.get r

def modifyHandler (m : Method) (h : HandlerId) (f : Handler → Handler) : Method :=
  { m with handlers := m.handlers.modify h f }

def modifyBlock (m : Method) (b : BlockId) (f : Block → Block) : Method :=
  { m with graph := m.graph.modify b f }

def modifyRegion (m : Method) (r : RegionId) (f : Region → Region) : Method :=
  { m with forest := m.forest.modify r f }

/-- Adds a handler that is not registered yet; its place is the number of handlers before. -/
def newHandler (m : Method) (offset : Int) (types : List TypeName) : Method :=
  { m with handlers := m.handlers.push (Handler.new offset types) }

/-- The number for a handler that is registered next: at least the number of registered handlers,
and raised above each of their numbers in turn. For a handler that is registered already its own
number is the one reached so far. -/
def freshNumber (m : Method) (h : HandlerId) : Int :=
  m.registered.foldl
    (fun (n : Int) r =>
      let taken := if r = h then n else (m.handler r).number
      if n ≤ taken then taken + 1 else n)
    m.registered.length

/-- Registers a handler and gives it its number. -/
def register (m : Method) (h : HandlerId) : Method :=
  let number := m.freshNumber h
  { (m.modifyHandler h fun k => { k with number }) with registered := m.registered ++ [h] }

/-- Forgets the registered handlers that are marked as removed. -/
def forgetRemoved (m : Method) : Method :=
  { m with registered := m.registered.filter fun h => !(m.handler h).removed }

/-- Changes the instructions whose result is the bound variable of `h`. -/
def modifyBinders (m : Method) (h : HandlerId) (f : Instr → Instr) : Method :=
  let change := fun i : Instr => if i.binds = some h then f i else i
  { m with graph := { m.graph with
    blocks := m.graph.blocks.map fun b => { b with instrs := b.instrs.map change } } }

/-- Gives a handler a bound variable of its own: no instruction's result is that variable. -/
def setArg (m : Method) (h : HandlerId) (arg : Option Operand) : Method :=
  (m.modifyBinders h fun i => { i with binds := none }).modifyHandler h fun k => { k with arg }

/-- Adds classes to a handler. A bound register takes the handler's new class, and so does the
result of the instruction that binds it. -/
def addTypes (m : Method) (h : HandlerId) (types : List TypeName) : Method :=
  let m := m.modifyHandler h fun k => k.addTypes types
  m.modifyBinders h fun i =>
    { i with result := i.result.map fun r => { r with type := (m.handler h).argType } }

/-- Marks a handler as removed and flags the blocks of its body for removal. -/
def markRemoved (m : Method) (h : HandlerId) : Except Fault Method :=
  let body := (m.handler h).body
  if body.all fun b => decide (b < m.graph.size) then
    let marked := body.foldl (fun g b => g.modify b (·.addFlags { remove := true })) m.graph
    .ok { m.modifyHandler h (fun k => { k with removed := true }) with graph := marked }
  else .error .missingBlock

/-- Adds a diagnostic; it is about this method unless it names one. -/
def addDiagnostic (m : Method) (d : Diagnostic) : Method :=
  let method := if d.location.method = "" then m.name else d.location.method
  { m with diagnostics := m.diagnostics ++ [{ d with location := { d.location with method } }] }

def addWarning (m : Method) (stage code message : String) : Method :=
  m.addDiagnostic { stage, severity := .warning, code, message }

def addError (m : Method) (stage code message : String) (cause : Option String) : Method :=
  m.addDiagnostic { stage, severity := .error, code, message, cause }

def hasErrors (m : Method) : Bool := m.diagnostics.any fun d => d.severity = .error

/-- The catch set of the listed handlers. -/
def catchSet (m : Method) (hs : List HandlerId) : CatchSet := CatchSet.ofList m.handler hs

end Method

end TryRegions
