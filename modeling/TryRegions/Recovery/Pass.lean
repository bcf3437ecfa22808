import TryRegions.Recovery.Grouping
import TryRegions.Recovery.Wiring

/-! The whole recovery of a method's regions: coverage, handlers, regions, wiring, cleanup. -/

namespace TryRegions.Recovery

open RecoverM

structure Config where
  types : TypeHierarchy := {}
  /-- Attempts to wire a region, on average. -/
  limitFactor : Int := 3
  /-- Whether the method is written to the log before and after. -/
  debug : Bool := false
  level : LogLevel := .disabled
deriving Inhabited

/-- Sets the factor, unless it is below one. -/
def Config.withLimitFactor (c : Config) (factor : Int) : Config :=
  if 1 ≤ factor then { c with limitFactor := factor } else c

/-- The instructions without the monitor exits in front of the first monitor entry. -/
def withoutExits (instrs : List Instr) : List Instr :=
  (instrs.takeWhile fun i => i.opcode ≠ .monitorEnter).filter (fun i => i.opcode ≠ .monitorExit) ++
    instrs.dropWhile fun i => i.opcode ≠ .monitorEnter

/-- The monitor exits in front of the first monitor entry. -/
def leadingExits (instrs : List Instr) : List Instr :=
  (instrs.takeWhile fun i => i.opcode ≠ .monitorEnter).filter fun i => i.opcode = .monitorExit

/-- Drops the monitor exits that guard a synchronized section from a block of a handler. -/
def dropExits (b : BlockId) : RecoverM Unit := do
  let k ← block b
  (leadingExits k.instrs).forM fun i => record (.removedMonitorExit b i.offset)
  modifyGraph fun g => g.modify b fun k => { k with instrs := withoutExits k.instrs }

/-- Drops the monitor exits from all blocks of a handler. -/
def dropMonitorExits (h : HandlerId) : RecoverM Unit := do
  ((← method).handler h).body.forM dropExits

/-- What follows when the regions are found. -/
def finish (regions : List RegionId) : RecoverM Unit := do
  modifyMethod fun m => { m with regions, graph := m.graph.refreshAll }
  (← method).registered.forM dropMonitorExits
  modifyGraph fun g => g.detachMarked.refreshAll

/-- Recovers the regions of the method. A method without handlers is left as it is, and the result
is false. -/
def recover (c : Config) : RecoverM Bool := do
  let m ← method
  if m.registered.isEmpty then return false
  if c.debug then record (.before m.listing)
  modifyGraph Graph.refreshAll
  promoteCoverage
  setUpEntries
  let regions ← group c.types
  wire c.limitFactor regions
  finish regions
  if c.debug then record (.after (← method).listing)
  return true

/-- What a recovery leaves. -/
structure Outcome where
  result : Except Stop Bool
  method : Method
  log : List LogEntry

/-- Recovers the regions of a method; the log is what its level shows. -/
def process (c : Config) (m : Method) : Outcome :=
  let (result, s) := exec (recover c) { method := m }
  { result, method := s.method, log := LogEntry.shown c.level s.log }

end TryRegions.Recovery
