import TryRegions.ClauseOrder
import TryRegions.Recovery.ClauseMerge
import TryRegions.Recovery.Entry
import TryRegions.Recovery.Nesting

/-! From covered blocks to regions: one region per handler, combined with the others, without what
was removed, with its clauses in catch order. -/

namespace TryRegions.Recovery

open RecoverM

def unreachableCode : String := "EXC_HANDLER_UNREACHABLE"

/-- The name of the pass in diagnostics and logs. -/
def passName : String := "exc-handlers"

/-- The handlers that a block is covered by. -/
def coverage (g : Graph) (b : BlockId) : List HandlerId :=
  ((g.block? b).bind (·.catches)).elim [] CatchSet.handlers

/-- The live blocks that a handler covers. -/
def coveredBlocks (g : Graph) (h : HandlerId) : List BlockId :=
  g.live.filter fun b => decide (h ∈ coverage g b)

/-- Removes a handler that covers no block or has no entry, with a warning. -/
def dropUnreachable (covered : HandlerId → List BlockId) (h : HandlerId) : RecoverM Unit := do
  let k := (← method).handler h
  if !(covered h).isEmpty && k.entry.isSome then return
  else
    removeHandler h
    modifyMethod fun m => m.addWarning passName unreachableCode
      ("exception handler " ++ m.handlerText h ++ " is never reachable, dropped")

/-- Makes the region of one handler; a handler is never inside its own region. -/
def regionOf (covered : HandlerId → List BlockId) (h : HandlerId) : RecoverM RegionId := do
  let body := ((← method).handler h).body
  newRegion [h] ((covered h).filter fun b => decide (b ∉ body))

/-- Takes removed blocks and handlers out of a region. If nothing is left, what it encloses goes to
the region around it. The result says whether the region stays. -/
def clearRegion (r : RegionId) : RecoverM Bool := do
  let m ← method
  let old := m.region r
  if old.blocks.any fun b => decide (m.graph.size ≤ b) then throw (.fault .missingBlock)
  let blocks := old.blocks.filter fun b => !(m.graph.flags b).remove
  let handlers := old.handlers.filter fun h => !(m.handler h).removed
  modifyMethod fun m => m.modifyRegion r fun k => { k with blocks, handlers }
  if !blocks.isEmpty && !handlers.isEmpty then return true
  else
    record (.droppedRegion ((← method).regionText r))
    modifyMethod fun m =>
      let f := m.forest.unlink r
      { m with forest := f.rehang (f.get r).inner old.outer }
    return false

/-- Clears the regions and gives those that stay. -/
def clearRegions (regions : List RegionId) : RecoverM (List RegionId) := do
  let kept ← regions.filterM clearRegion
  modifyMethod fun m => { m.forgetRemoved with graph := m.graph.detachMarked }
  return kept

/-- The first element that comes again later. -/
def firstRepeated : List HandlerId → Option HandlerId
  | [] => none
  | h :: hs => if h ∈ hs then some h else firstRepeated hs

/-- Puts the clauses of a region in catch order. -/
def sortClauses (types : TypeHierarchy) (r : RegionId) : RecoverM Unit := do
  let m ← method
  let region := m.region r
  match firstRepeated region.handlers with
  | some h => violate (.repeatedHandler (m.handlerText h) region.number)
  | none =>
    let handlers := ClauseOrder.order types m.handler region.handlers
    modifyMethod fun m => m.modifyRegion r fun k => { k with handlers }

/-- The regions of a method whose handlers are set up. -/
def group (types : TypeHierarchy) : RecoverM (List RegionId) := do
  let start ← method
  let covered := coveredBlocks start.graph
  start.registered.forM fun h =>
    record (.inputHandler (start.handlerText h) (covered h) (start.handler h).body)
  if start.graph.live.all fun b => (coverage start.graph b).isEmpty then
    start.registered.forM removeHandler
  else
    start.registered.forM (dropUnreachable covered)
  modifyMethod fun m => { m with graph := m.graph.detachMarked }.forgetRemoved
  let registered := (← method).registered
  if registered.isEmpty then return []
  let regions ← registered.mapM (regionOf covered)
  let regions ← combineAll regions.length regions
  mergeAllClauses regions
  let regions ← clearRegions regions
  regions.forM (sortClauses types)
  let m ← method
  regions.forM fun r => record (.resultRegion (m.regionText r))
  return regions

end TryRegions.Recovery
