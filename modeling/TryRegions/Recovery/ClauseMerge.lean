import TryRegions.Recovery.Monad

/-! Clauses that only bind the caught value and go on to the same code become one clause with
several classes. -/

namespace TryRegions.Recovery

open RecoverM

/-- The entry block of a handler that has to have one. -/
def entryBlock (m : Method) (h : HandlerId) : Except Fault Block :=
  match (m.handler h).entry.bind m.graph.block? with
  | some k => .ok k
  | none => .error .missingBlock

/-- The handler's code is one block that only binds the caught value. -/
def onlyBinds (m : Method) (h : HandlerId) : Except Fault Bool :=
  let k := m.handler h
  if k.removed || k.body.length ≠ 1 then .ok false
  else do
    let b ← entryBlock m h
    return b.instrs.length == 1 && b.endsWith .moveException

/-- The register that the entry block of a handler binds the caught value to. -/
def boundRegister (m : Method) (h : HandlerId) : Option Int := do
  let k ← (m.handler h).entry.bind m.graph.block?
  let r ← (← k.instrs.getLast?).result
  return r.index

/-- The blocks of the handlers lead to one block, to which nothing else leads, and bind the same
register. -/
def sameContinuation (m : Method) (handlers : List HandlerId) : Bool :=
  let entries := handlers.filterMap fun h => (m.handler h).entry
  match appendNew [] (entries.flatMap m.graph.succs) with
  | [s] =>
    sameElements (m.graph.preds s) entries &&
      match handlers.map (boundRegister m) with
      | some r :: rest => rest.all (· = some r)
      | _ => false
  | _ => false

/-- The clauses of the region can become one. -/
def mergeable (m : Method) (handlers : List HandlerId) : Except Fault Bool :=
  if handlers.length < 2 then .ok false
  else do
    if ← handlers.allM (onlyBinds m) then return sameContinuation m handlers else return false

/-- Adds the classes of `h` to the clause `first` and marks `h` for removal. -/
def absorbClause (first h : HandlerId) : RecoverM Unit := do
  modifyMethod fun m => m.addTypes first (m.handler h).types
  let m ← ofExcept ((← method).markRemoved h)
  modifyMethod fun _ => m

/-- Makes one clause of the clauses of a region if that can be done, and says whether it was. -/
def mergeClauses (r : RegionId) : RecoverM Bool := do
  let m ← method
  let handlers := (m.region r).handlers
  if ← ofExcept (mergeable m handlers) then
    match handlers with
    | [] => return false
    | first :: rest =>
      rest.forM (absorbClause first)
      let m ← method
      record (.mergedClauses (m.regionText r) (m.handlerText first))
      return true
  else return false

/-- Merges clauses in all regions, and clears away what was merged. -/
def mergeAllClauses (regions : List RegionId) : RecoverM Unit := do
  let merged ← regions.mapM mergeClauses
  if merged.any id then
    modifyMethod fun m => { m with graph := m.graph.detachMarked }.forgetRemoved
  else return

end TryRegions.Recovery
