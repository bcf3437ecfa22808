import TryRegions.Dominance.Tree
import TryRegions.Graph.Path

/-! Where control flow comes together and what a block dominates, read off a dominator tree. The
graph at the time of the question is given where edges are followed: it may have changed since the
tree was made. -/

namespace TryRegions.DomTree

/-- The lowest block that dominates all the given ones. -/
def commonDominator (t : DomTree) : List BlockId → Option BlockId
  | [] => none
  | b :: bs => (t.dominators b).find? fun d => bs.all fun x => t.dominates d x

/-- The blocks in the frontiers of all the given blocks that are reachable, without the given
blocks themselves; none if no given block is reachable. -/
def commonFrontier (t : DomTree) (blocks : List BlockId) : List BlockId :=
  match blocks.filter t.isReachable with
  | [] => []
  | b :: bs =>
    (t.frontier b).filter fun x =>
      bs.all (fun y => decide (x ∈ t.frontier y)) && decide (x ∉ blocks)

/-- The sum of the distances to `b` in all searches, if each of them meets `b`. -/
def totalDistance (searches : List (List (BlockId × Nat))) (b : BlockId) : Option Nat :=
  searches.foldr (fun s total => (s.lookup b).bind fun d => total.map (d + ·)) (some 0)

/-- The block outside `blocks` that is closest to all of them together over clean edges, the lowest
number first. If `among` is not empty the block is one of it. -/
def closestJoin (g : Graph) (blocks among : List BlockId) : Option BlockId :=
  let searches := blocks.map g.cleanDistances
  let joins := (List.range g.size).filterMap fun b =>
    if b ∈ blocks || (!among.isEmpty && decide (b ∉ among)) then none
    else (totalDistance searches b).map fun d => (b, d)
  match joins with
  | [] => none
  | j :: js => some (leastBy (fun x y => decide (x.2 < y.2)) j js).1

/-- The block where control flow from all given blocks joins: their common frontier if it is a
single block, otherwise the closest block that clean edges lead to from all of them. -/
def pathCross (t : DomTree) (g : Graph) (blocks : List BlockId) :
    Except Fault (Option BlockId) :=
  if blocks.isEmpty then .ok none
  else
    match t.commonFrontier blocks with
    | [b] => .ok (some b)
    | among =>
      if blocks.all fun b => decide (b < g.size) then .ok (closestJoin g blocks among)
      else .error .missingBlock

/-- The blocks that edges lead to from `start` without leaving what `dominator` dominates, in the
order of a depth-first walk, `start` excluded. -/
def dominatedFrom (t : DomTree) (g : Graph) (dominator start : BlockId) :
    Except Fault (List BlockId) :=
  if start < g.size then
    let next := fun b => (g.succs b).filter fun s => t.dominates dominator s
    .ok ((({} : Walk).visit next (g.size + 1) start).entered.reverse.drop 1)
  else .error .missingBlock

end TryRegions.DomTree
