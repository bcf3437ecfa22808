import TryRegions.Dominance.Join
import TryRegions.Event
import TryRegions.Method.Listing

/-! The setting in which the regions of a method are recovered: the method with a cached dominator
tree, the next number for a region, and the log. A computation that stops early keeps the state
that it reached. -/

namespace TryRegions.Recovery

/-- A structure that a method cannot have. -/
inductive Violation where
  | repeatedHandler (handler : String) (region : Int)
  | queueLimit (attempts : Nat)
  | enterWithoutSuccessor (enter : BlockId)
  | noTopBlock (blocks : List BlockId)
deriving DecidableEq, Repr

namespace Violation

def reason : Violation → String
  | repeatedHandler handler region =>
    "same handler " ++ handler ++ " twice in try block #" ++ toString region
  | queueLimit attempts =>
    "try blocks wrapping queue limit reached after " ++ toString attempts ++ " attempts"
  | enterWithoutSuccessor enter =>
    "enter block " ++ BlockId.label enter ++ " has no successor to split"
  | noTopBlock blocks => "failed to find top block for try-catch from " ++ BlockId.labels blocks

end Violation

/-- The text of a violation found in a method. -/
def violationText (method reason : String) : String :=
  "exception handlers of " ++ method ++ ": " ++ reason

/-- Why a computation stops early. -/
inductive Stop where
  | fault (f : Fault)
  | violation (v : Violation)
deriving DecidableEq, Repr

structure State where
  method : Method
  /-- The last dominator tree made, which may be out of date. -/
  tree : Option DomTree := none
  /-- The number for the next region. -/
  nextRegion : Nat := 0
  log : List LogEntry := []
deriving DecidableEq, Repr

end TryRegions.Recovery

namespace TryRegions

open Recovery

/-- Computations on a method that may stop early. -/
abbrev RecoverM := ExceptT Stop (StateM State)

namespace RecoverM

/-- Runs a computation and gives its result and the state that it reached. -/
def exec {α : Type} (x : RecoverM α) (s : State) : Except Stop α × State :=
  StateT.run (ExceptT.run x) s

@[simp] theorem exec_pure {α : Type} (a : α) (s : State) : exec (pure a) s = (.ok a, s) := rfl

@[simp] theorem exec_throw {α : Type} (e : Stop) (s : State) :
    exec (throw e : RecoverM α) s = (.error e, s) := rfl

theorem exec_bind {α β : Type} (x : RecoverM α) (f : α → RecoverM β) (s : State) :
    exec (x >>= f) s =
      match exec x s with
      | (.ok a, t) => exec (f a) t
      | (.error e, t) => (.error e, t) := by
  simp only [exec, ExceptT.run_bind, StateT.run_bind]
  generalize StateT.run (ExceptT.run x) s = r
  obtain ⟨a | a, t⟩ := r <;> rfl

@[simp] theorem exec_get (s : State) : exec (get : RecoverM State) s = (.ok s, s) := rfl

@[simp] theorem exec_modify (f : State → State) (s : State) :
    exec (modify f : RecoverM Unit) s = (.ok (), f s) := rfl

def method : RecoverM Method := return (← get).method

def graph : RecoverM Graph := return (← get).method.graph

def modifyMethod (f : Method → Method) : RecoverM Unit :=
  modify fun s => { s with method := f s.method }

def modifyGraph (f : Graph → Graph) : RecoverM Unit :=
  modifyMethod fun m => { m with graph := f m.graph }

def record (e : Event) : RecoverM Unit :=
  modify fun s => { s with log := s.log ++ [⟨s.method.name, e⟩] }

def violate {α : Type} (v : Violation) : RecoverM α := throw (.violation v)

/-- Stops with the fault, if there is one. -/
def ofExcept {α : Type} : Except Fault α → RecoverM α
  | .ok a => return a
  | .error f => throw (.fault f)

/-- The answer to a question about the graph. -/
def ask {α : Type} (f : Graph → Except Fault α) : RecoverM α := do ofExcept (f (← graph))

/-- A checked edit of the graph. -/
def edit (f : Graph → Except Fault Graph) : RecoverM Unit := do
  let g ← ask f
  modifyGraph fun _ => g

/-- The record of a block that has to exist. -/
def block (b : BlockId) : RecoverM Block := do
  match (← graph).block? b with
  | some k => return k
  | none => throw (.fault .missingBlock)

/-- Adds an empty block and gives its number. -/
def newBlock (offset : Int) : RecoverM BlockId := do
  let g ← graph
  modifyGraph fun g => g.newBlock offset
  return g.size

/-- Puts an empty block in front of `b` and gives its number. -/
def splitTop (b : BlockId) : RecoverM BlockId := do
  let g ← graph
  edit fun g => g.splitTop b
  return g.size

/-- Adds a region and gives its place in the forest. -/
def newRegion (handlers : List HandlerId) (blocks : List BlockId) : RecoverM RegionId := do
  let s ← get
  let region : Region := { number := s.nextRegion, handlers, blocks }
  set { s with
    nextRegion := s.nextRegion + 1
    method := { s.method with forest := s.method.forest.push region } }
  return s.method.forest.size

/-- Makes a dominator tree of the graph as it is, and clean edges to go with it. -/
def rebuildTree : RecoverM DomTree := do
  modifyGraph Graph.refreshAll
  let m ← method
  let t ← ofExcept (DomTree.build m.graph m.enter)
  modify fun s => { s with tree := some t }
  return t

/-- A dominator tree of the graph as it is: the last one made, if nothing changed since. -/
def domTree : RecoverM DomTree := do
  let s ← get
  match s.tree with
  | some t => if t.isStale s.method.graph then rebuildTree else return t
  | none => rebuildTree

end RecoverM

end TryRegions
