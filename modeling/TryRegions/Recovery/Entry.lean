import TryRegions.Recovery.Monad

/-! Handlers get their entry block, their body and their bound variable. -/

namespace TryRegions.Recovery

open RecoverM

/-- The name of the variable of a handler that never reads the caught value. -/
def unusedName : String := "unused"

/-- Moves coverage from instructions to blocks. -/
def promoteCoverage : RecoverM Unit := modifyGraph fun g => g.mapLive Block.promoteCoverage

/-- Takes away the edge that stood in for the exceptional one. -/
def dropTmpEdge (b : BlockId) : RecoverM Unit := do
  match (← block b).tmpEdge with
  | none => return
  | some source =>
    edit fun g => g.disconnect source b
    modifyGraph fun g => g.modify b fun k => { k with tmpEdge := none }

/-- Turns the result of the last instruction into the variable that `h` binds. -/
def bindResult (h : HandlerId) (r : Register) (i : Instr) : Instr :=
  { i with
    result := some r
    flags := { i.flags with dontInline := true }
    binds := some h }

/-- The variable of a handler is the result of the instruction that ends the block by binding the
caught value, typed with the handler's class; without such an instruction it is only a name. -/
def bindVariable (b : BlockId) (h : HandlerId) : RecoverM Unit := do
  let k ← block b
  let m ← method
  let type := (m.handler h).argType
  match k.instrs.getLast? with
  | some i =>
    match i.opcode, i.result with
    | .moveException, some r =>
      let r := { r with type, flags := { r.flags with customDeclare := true } }
      modifyMethod fun m => (m.setArg h (some (.register r))).modifyBlock b fun k =>
        { k with instrs := k.instrs.modify (k.instrs.length - 1) (bindResult h r) }
    | _, _ => modifyMethod fun m => m.setArg h (some (.named unusedName type))
  | none => modifyMethod fun m => m.setArg h (some (.named unusedName type))

/-- The handler starts in the block itself and owns what the block dominates. -/
def ownEntry (b : BlockId) (h : HandlerId) : RecoverM Unit := do
  modifyMethod fun m =>
    (m.modifyHandler h fun k => { k with entry := some b }.addBlock b).modifyBlock b
      fun k => { k with handler := some h }
  let tree ← domTree
  let dominated ← ask fun g => tree.dominatedFrom g b b
  modifyMethod fun m => m.modifyHandler h fun k => dominated.foldl Handler.addBlock k

/-- Control reaches the block without an exception too, so the handler gets an empty entry in
front of it. -/
def standInEntry (b : BlockId) (h : HandlerId) : RecoverM Unit := do
  let entry ← newBlock (← block b).offset
  modifyGraph fun g => g.modify entry fun k =>
    { k.addFlags { synthetic := true } with handler := some h }
  edit fun g => g.connect entry b
  modifyMethod fun m =>
    m.modifyHandler h fun k => { k with entry := some entry }.addBlock entry

/-- Sets up the handler whose code starts in the block, if there is one. -/
def setUpEntry (b : BlockId) : RecoverM Unit := do
  let k ← block b
  match k.instrs.head?.bind (·.entry) with
  | none => return
  | some h =>
    modifyGraph fun g => g.modify b fun k =>
      { k with instrs := k.instrs.modify 0 fun i => { i with entry := none } }
    dropTmpEdge b
    if (← block b).preds.isEmpty then ownEntry b h else standInEntry b h
    bindVariable b h

/-- Sets up the handlers of the blocks that are live now. -/
def setUpEntries : RecoverM Unit := do (← graph).live.forM setUpEntry

/-- Marks a handler and its body for removal and takes away an edge from the enter block to its
entry. -/
def removeHandler (h : HandlerId) : RecoverM Unit := do
  let m ← ofExcept ((← method).markRemoved h)
  modifyMethod fun _ => m
  match m.enter, (m.handler h).entry with
  | some enter, some entry => edit fun g => g.disconnect enter entry
  | _, _ => return

end TryRegions.Recovery
