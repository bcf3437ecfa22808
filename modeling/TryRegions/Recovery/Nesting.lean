import TryRegions.Recovery.Monad

/-! Regions are merged and nested, pair by pair, until no pair asks for a change. -/

namespace TryRegions.Recovery

open RecoverM

/-- What a pair of regions, one taken as the outer one, asks for. -/
inductive Relation where
  /-- They cover the same blocks and become one region. -/
  | sameBlocks
  /-- The inner one only catches everything: its blocks go to the outer one. -/
  | absorb
  /-- The inner one goes under the outer one. -/
  | nest
  /-- The inner one has all clauses of the outer one: they become one region. -/
  | sameClauses
  | unrelated
deriving DecidableEq, Repr

/-- One of the blocks is covered by exactly the given handlers. -/
def anyCovered (g : Graph) (handlers : List HandlerId) (blocks : List BlockId) :
    Except Fault Bool :=
  blocks.anyM fun b =>
    match g.block? b with
    | none => .error .missingBlock
    | some k => .ok (k.catches.any fun c => sameElements c.handlers handlers)

/-- The inner region belongs under the outer one if the outer one's clauses cover the code of an
inner clause, and also cover a block of the inner region or have a block outside the inner clauses'
code; unless the outer one lies under the inner one already. -/
def relation (m : Method) (outer inner : RegionId) : Except Fault Relation := do
  let o := m.region outer
  let i := m.region inner
  if sameElements o.blocks i.blocks then return .sameBlocks
  let bodies := i.handlers.flatMap fun h => (m.handler h).body
  let coversBody ← anyCovered m.graph o.handlers bodies
  let coversBlock ← anyCovered m.graph o.handlers i.blocks
  let reachesOut := o.blocks.any fun b => decide (b ∉ bodies)
  if coversBody && (coversBlock || reachesOut) then
    if m.forest.hasAncestor outer inner then return .unrelated
    else if i.isCatchAll m.handler then return .absorb
    else return .nest
  else if o.handlers.all fun h => decide (h ∈ i.handlers) then return .sameClauses
  else return .unrelated

/-- The region that takes the place of `old` goes under the first region that encloses one of them,
is none of them and lies under none of them. -/
def outerFor (f : Forest) (old : List RegionId) : Option RegionId :=
  (old.filterMap fun o => (f.get o).outer).find? fun c =>
    decide (c ∉ old) && old.all fun o => !f.hasAncestor c o

/-- Takes the place of the regions `old` in the nesting: what they enclose goes under `merged`. -/
def inherit (f : Forest) (merged : RegionId) (old : List RegionId) : Forest :=
  let parent := outerFor f old
  let f := old.foldl
    (fun f o =>
      let f := f.unlink o
      (f.get o).inner.foldl
        (fun f child =>
          let f := f.unlink child
          if child ∈ old then f else f.link child merged)
        f)
    f
  match parent with
  | some p => f.link merged p
  | none => f

/-- Makes one region of two, listed at the end. -/
def merge (regions : List RegionId) (outer inner : RegionId) (handlers : List HandlerId)
    (blocks : List BlockId) : RecoverM (List RegionId) := do
  let merged ← newRegion handlers blocks
  let old := [outer, inner]
  modifyMethod fun m => { m with forest := inherit m.forest merged old }
  return (regions.filter fun r => decide (r ∉ old)) ++ [merged]

/-- Does what the pair asks for. The result says whether the list of regions changed. -/
def relate (regions : List RegionId) (outer inner : RegionId) :
    RecoverM (List RegionId × Bool) := do
  let m ← method
  let o := m.region outer
  let i := m.region inner
  match ← ofExcept (relation m outer inner) with
  | .sameBlocks =>
    return (← merge regions outer inner (appendNew o.handlers i.handlers) o.blocks, true)
  | .absorb =>
    modifyMethod fun m => { m with
      forest :=
        ((m.forest.modify outer fun r => { r with blocks := appendNew o.blocks i.blocks }).rehang
          i.inner (some outer)).modify inner fun r => { r with handlers := [], blocks := [] } }
    return (regions.filter (· ≠ inner), true)
  | .nest =>
    modifyMethod fun m => { m with
      forest :=
        ((m.forest.modify inner fun r =>
          { r with handlers := i.handlers.filter fun h => decide (h ∉ o.handlers) }).link inner
            outer).modify outer fun r => { r with blocks := appendNew o.blocks i.blocks } }
    return (regions, false)
  | .sameClauses =>
    return (← merge regions outer inner (appendNew o.handlers i.handlers)
      (appendNew o.blocks i.blocks), true)
  | .unrelated => return (regions, false)

/-- Relates pairs until one changes the list of regions. An inner region that is under another one
already is left alone. -/
def relatePairs (regions : List RegionId) :
    List (RegionId × RegionId) → RecoverM (List RegionId × Bool)
  | [] => return (regions, false)
  | (outer, inner) :: pairs => do
    if outer = inner || ((← method).region inner).outer.isSome then relatePairs regions pairs
    else
      let (result, changed) ← relate regions outer inner
      if changed then return (result, true) else relatePairs regions pairs

/-- Goes once through all pairs. -/
def combine (regions : List RegionId) : RecoverM (List RegionId × Bool) :=
  relatePairs regions (regions.flatMap fun o => regions.map fun i => (o, i))

/-- Goes through all pairs again as long as the list of regions changes; each change makes it
shorter. -/
def combineAll : Nat → List RegionId → RecoverM (List RegionId)
  | 0, regions => return regions
  | fuel + 1, regions => do
    let (result, changed) ← combine regions
    if changed then combineAll fuel result else return result

end TryRegions.Recovery
