import TryRegions.Recovery.Monad

/-! Each region gets a block through which it is entered and, where its paths join, one through
which it is left; exceptional edges lead from them to the clauses of the region and of those around
it. A region that nothing leads to yet waits for the others. -/

namespace TryRegions.Recovery

open RecoverM

/-- Goes down from a block that is not covered and has one successor: the code of another handler
had lifted the top above the region. -/
def adjustTop (top : BlockId) : RecoverM BlockId := do
  let k ← block top
  match k.succs, k.catches with
  | [s], none => return s
  | _, _ => return top

/-- The block that a list consists of, if it is one of `blocks`. -/
def onlyAmong (blocks : List BlockId) : List BlockId → Option BlockId
  | [s] => if s ∈ blocks then some s else none
  | _ => none

theorem onlyAmong_eq_some_iff {blocks next : List BlockId} {b : BlockId} :
    onlyAmong blocks next = some b ↔ next = [b] ∧ b ∈ blocks := by
  unfold onlyAmong
  split
  · rename_i s
    constructor
    · intro h
      obtain ⟨hs, heq⟩ := Option.ite_none_right_eq_some.mp h
      cases heq
      exact ⟨rfl, hs⟩
    · rintro ⟨h, hb⟩
      cases h
      exact if_pos hb
  · rename_i hnot
    exact ⟨nofun, fun h => absurd h.1 (hnot b)⟩

/-- The block below a common dominator through which the region is entered. -/
def topBelow (blocks : List BlockId) (dominator : BlockId) : RecoverM BlockId := do
  let k ← block dominator
  let only := onlyAmong blocks
  match (if k.flags.topSplitter then only k.clean else none).or (only k.succs) with
  | some s => return s
  | none => adjustTop dominator

/-- The block through which the region of the blocks is entered; none while the blocks hang off a
handler that is not connected. -/
def searchTop (blocks : List BlockId) : RecoverM (Option BlockId) := do
  match (← ask fun g => g.topBlock blocks).bind BlockId.present? with
  | some top => return some (← adjustTop top)
  | none =>
    let tree ← domTree
    match tree.commonDominator blocks, (← method).enter with
    | some d, _ => return some (← topBelow blocks d)
    | none, none => violate (.noTopBlock blocks)
    | none, some enter =>
      let entered := blocks.filter (tree.dominates enter)
      if entered.isEmpty then return none
      match tree.commonDominator entered with
      | some d => return some (← topBelow blocks d)
      | none => violate (.noTopBlock blocks)

/-- The block through which the region of the blocks is left; none if its paths never join. Edges
to the join from elsewhere are led around the block that is put in front of it. -/
def searchBottom (blocks : List BlockId) : RecoverM (Option BlockId) := do
  match (← ask fun g => g.bottomBlock blocks).bind BlockId.present? with
  | some bottom => return some bottom
  | none =>
    let tree ← domTree
    match ← ask fun g => tree.pathCross g blocks with
    | none => return none
    | some cross =>
      let outside ← (← block cross).preds.filterM fun p => do
        if p ∈ blocks then return false
        return !(← ask fun g => g.anyPathExists blocks p)
      if outside.isEmpty then return some cross
      let split ← splitTop cross
      modifyGraph fun g => g.modify split (·.addFlags { synthetic := true })
      outside.forM fun p => edit fun g => g.reconnect p split cross
      return some split

/-- A splitter that an empty block leads to, and nothing else. -/
def splitterBelow (k : Block) : RecoverM (Option BlockId) := do
  if k.clean.length ≠ 1 || !k.instrs.isEmpty then return none
  match ← ask fun g => g.firstWithFlags { topSplitter := true } k.clean with
  | none => return none
  | some s => if (← block s).preds.length = 1 then return some s else return none

/-- The block in front of `top` to which exceptional edges are tied: one that is there already, or
a new one. -/
def topSplitter (top : BlockId) : RecoverM BlockId := do
  let enter := (← method).enter
  if enter = some top then
    match (← block top).succs with
    | [] => violate (.enterWithoutSuccessor top)
    | s :: _ => splitTop s
  else
    let k ← block top
    match ← ask fun g => g.firstWithFlags { topSplitter := true } k.preds with
    | some s => return s
    | none =>
      match ← splitterBelow k with
      | some s => return s
      | none => splitTop top

/-- The block behind `bottom` to which exceptional edges are tied. -/
def bottomSplitter (bottom : BlockId) : RecoverM BlockId := do
  let k ← block bottom
  let s ← match ← ask fun g => g.firstWithFlags { bottomSplitter := true } k.succs with
    | some s => pure s
    | none => newBlock (-1)
  modifyGraph fun g => g.modify s (·.addFlags { bottomSplitter := true, synthetic := true })
  edit fun g => g.connect bottom s
  return s

/-- Edges from the splitters to the entry of a clause. -/
def linkHandler (top : BlockId) (bottom : Option BlockId) (h : HandlerId) : RecoverM Unit := do
  let entry := BlockId.orReserved ((← method).handler h).entry
  edit fun g => g.connect top entry
  match bottom with
  | some b => edit fun g => g.connect b entry
  | none => return

/-- Edges from the splitters to the clauses of a region and of every region around it. -/
def linkHandlers (r : RegionId) (top : BlockId) (bottom : Option BlockId) : RecoverM Unit := do
  let m ← method
  ((m.forest.chain r).flatMap fun o => (m.region o).handlers).forM (linkHandler top bottom)

/-- Makes `r` the region of a block, unless the block has one that `r` does not lie under. -/
def attach (r : RegionId) (b : BlockId) : RecoverM Unit := do
  let k ← block b
  let f := (← method).forest
  if k.region.all fun o => f.hasAncestor r o then
    modifyGraph fun g => g.modify b fun k => { k with region := some r }
  else return

/-- Wires a region whose top block is found. -/
def wrapFrom (r : RegionId) (top : BlockId) : RecoverM Unit := do
  let m ← method
  let region := m.region r
  let bottom ← searchBottom region.blocks
  record (.bounds region.number top bottom)
  let topSplit ← topSplitter top
  modifyGraph fun g => g.modify topSplit (·.addFlags { topSplitter := true, synthetic := true })
  let noCode := region.handlers.all fun h => (m.handler h).body.isEmpty
  let bottomSplit ← match bottom with
    | some b => if noCode then pure none else some <$> bottomSplitter b
    | none => pure none
  record (.splitters region.number topSplit bottomSplit)
  linkHandlers r topSplit bottomSplit
  region.blocks.forM (attach r)
  modifyMethod fun m => m.modifyRegion r fun k => { k with topSplitter := some topSplit }
  edit fun g => g.refreshClean topSplit
  match bottomSplit with
  | some b => edit fun g => g.refreshClean b
  | none => return

/-- Wires a region, unless it has to wait; the result says whether it was wired. -/
def wrap (r : RegionId) : RecoverM Bool := do
  modifyGraph Graph.refreshAll
  let m ← method
  match ← searchTop (m.region r).blocks with
  | none => return false
  | some top =>
    if (← block top).preds.isEmpty && m.enter ≠ some top then return false
    wrapFrom r top
    return true

/-- Wires the regions in turn. One that has to wait goes to the end of the queue; when `limit`
attempts were made, none may wait any more. A queue refuses a region, or to give one, only when it
was closed. No one but this loop has the queue and the loop never closes it, and it takes a region
only when there is one, so the queue fails neither to put nor to take. -/
def wrapQueue (limit : Int) : Nat → Nat → List RegionId → RecoverM Unit
  | 0, _, _ => return
  | _ + 1, _, [] => return
  | fuel + 1, attempts, r :: rest => do
    if ← wrap r then wrapQueue limit fuel (attempts + 1) rest
    else if limit ≤ (attempts + 1 : Nat) then violate (.queueLimit (attempts + 1))
    else wrapQueue limit fuel (attempts + 1) (rest ++ [r])

/-- The attempts that regions have: `factor` for each, in signed words of 64 bits. -/
def attemptLimit (factor : Int) (regions : List RegionId) : Int :=
  (regions.length * factor).bmod UInt64.size

/-- Wires all regions. Every attempt wires a region or counts towards the limit, so there are at
most as many as the fuel says. -/
def wire (factor : Int) (regions : List RegionId) : RecoverM Unit :=
  let limit := attemptLimit factor regions
  wrapQueue limit (limit.toNat + regions.length + 1) 0 regions

end TryRegions.Recovery
