import TryRegions.Dominance.Order
import TryRegions.StableSort

/-! Dominator trees. All edges count, exceptional ones too. The roots hang off one node above all
blocks, so a block that several roots lead to may have no dominator but itself. Parents are found
by rounds over the blocks in reverse post-order, until a round changes nothing. -/

namespace TryRegions.Dominance

/-- The parents found so far, by block. -/
abbrev Parents := Array (Option Node)

/-- The node above the roots is its own parent. -/
def parentOf (parents : Parents) : Node → Node
  | none => none
  | some b => (parents[b]?.join).join

/-- The closest node above both, found by climbing from the one of higher rank. -/
def meet (ranks : Array Nat) (parents : Parents) : Nat → Node → Node → Node
  | 0, a, _ => a
  | fuel + 1, a, b =>
    if a = b then a
    else if rankOf ranks b < rankOf ranks a then meet ranks parents fuel (parentOf parents a) b
    else meet ranks parents fuel a (parentOf parents b)

/-- Steps that `meet` takes at most: no pair of nodes comes twice. -/
def meetFuel (size : Nat) : Nat := (size + 1) * (size + 1) + 1

/-- Has a place in the order and a parent. -/
def isPlaced (ranks : Array Nat) (parents : Parents) (b : BlockId) : Bool :=
  decide (0 < rankOf ranks (some b)) && (parents[b]?.join).isSome

/-- The parent that the predecessors of `b` agree on so far, none while there is no evidence. -/
def candidate (g : Graph) (isRoot : BlockId → Bool) (ranks : Array Nat) (parents : Parents)
    (b : BlockId) : Option Node :=
  (g.preds b).foldl
    (fun best p =>
      if isPlaced ranks parents p then
        match best with
        | none => some (some p)
        | some n => some (meet ranks parents (meetFuel g.size) (some p) n)
      else best)
    (if isRoot b then some none else none)

/-- Looks once at every block in order. -/
def round (g : Graph) (isRoot : BlockId → Bool) (ranks : Array Nat) (order : List BlockId)
    (parents : Parents) : Parents :=
  order.foldl
    (fun parents b =>
      match candidate g isRoot ranks parents b with
      | none => parents
      | some n => parents.setIfInBounds b (some n))
    parents

/-- Repeats `step` until it changes nothing. -/
def settle {α : Type} [DecidableEq α] (step : α → α) : Nat → α → α
  | 0, x => x
  | fuel + 1, x =>
    let y := step x
    if y = x then x else settle step fuel y

/-- Rounds needed at most: all but the last give some block a parent of lower rank. -/
def roundFuel (size : Nat) : Nat := (size + 1) * (size + 1) + 1

/-- The blocks met on the way up from a node, up to `stop` and the node above the roots, neither
of them included. -/
def climb (parents : Parents) (stop : Option Node) : Nat → Option Node → List BlockId
  | 0, _ => []
  | _ + 1, none => []
  | _ + 1, some none => []
  | fuel + 1, some (some b) =>
    if stop = some (some b) then [] else b :: climb parents stop fuel (parents[b]?.join)

/-- The blocks whose frontier holds `b`, which is a place where paths join. -/
def frontierOf (g : Graph) (ranks : Array Nat) (parents : Parents) (b : BlockId) : List BlockId :=
  let preds := (g.preds b).filter fun p => decide (0 < rankOf ranks (some p))
  if preds.length < 2 then []
  else preds.flatMap fun p => climb parents (parents[b]?.join) (g.size + 1) (some (some p))

end TryRegions.Dominance

namespace TryRegions

open Dominance

/-- The dominator tree of a graph as it was when its version was `version`. -/
structure DomTree where
  version : Nat
  /-- The blocks that the roots lead to, in reverse post-order. -/
  order : List BlockId
  ranks : Array Nat
  parents : Parents
  /-- The frontier of each block, ascending. -/
  frontiers : Array (List BlockId)
deriving DecidableEq, Repr, Inhabited

namespace DomTree

def ofGraph (g : Graph) (enter : Option BlockId) : DomTree :=
  let roots := Dominance.roots g enter
  let order := reversePostOrder g roots
  let ranks := Dominance.ranks g.size order
  let parents := settle (round g (fun b => decide (b ∈ roots)) ranks order) (roundFuel g.size)
    (Array.replicate g.size none)
  let joins := order.map fun b => (b, frontierOf g ranks parents b)
  let frontiers := Array.ofFn fun x : Fin g.size =>
    (List.range g.size).filter fun y =>
      joins.any fun (b, xs) => b == y && decide (x.val ∈ xs)
  { version := g.version, order, ranks, parents, frontiers }

/-- Every block that has a block as its parent comes after it. -/
def parentsFirst (t : DomTree) : Bool :=
  t.order.all fun b =>
    match t.parents[b]?.join with
    | some (some p) => decide (rankOf t.ranks (some p) < rankOf t.ranks (some b))
    | _ => true

/-- The dominator tree, refused if a block would need the dominators of a later one. Where both
ends of every edge know it, this does not happen. -/
def build (g : Graph) (enter : Option BlockId) : Except Fault DomTree :=
  let t := ofGraph g enter
  if t.parentsFirst then .ok t else .error .missingBlock

/-- The graph changed since the tree was made. -/
def isStale (t : DomTree) (g : Graph) : Bool := decide (g.version ≠ t.version)

def isReachable (t : DomTree) (b : BlockId) : Bool := decide (0 < rankOf t.ranks (some b))

/-- The closest dominator other than the block itself. -/
def parent? (t : DomTree) (b : BlockId) : Option BlockId :=
  if t.isReachable b then (t.parents[b]?.join).join else none

/-- The dominators of a block, from itself upwards. -/
def dominators (t : DomTree) (b : BlockId) : List BlockId :=
  if t.isReachable b then climb t.parents none (t.ranks.size + 1) (some (some b)) else []

/-- Every path from a root to `b` goes through `a`. -/
def dominates (t : DomTree) (a b : BlockId) : Bool := decide (a ∈ t.dominators b)

/-- The blocks where the dominance of `b` ends, ascending. -/
def frontier (t : DomTree) (b : BlockId) : List BlockId :=
  if t.isReachable b then t.frontiers[b]?.getD [] else []

/-- The dominators of a block, ascending. -/
def dominatorsAscending (t : DomTree) (b : BlockId) : List BlockId :=
  sortBy (fun x y => decide (x < y)) (t.dominators b)

end DomTree

end TryRegions
