import TryRegions.Graph.Walk

/-! The order in which dominators are looked for: the roots of a graph, and the blocks that they
lead to in reverse post-order, numbered by rank. -/

namespace TryRegions.Dominance

/-- A block, or `none` for the node above the roots. -/
abbrev Node := Option BlockId

/-- The enter block, if it is live, and every other live block that no edge leads to. -/
def roots (g : Graph) (enter : Option BlockId) : List BlockId :=
  (enter.filter g.isLive).toList ++
    g.live.filter fun b => decide (some b ≠ enter) && (g.preds b).isEmpty

/-- The blocks that the roots lead to, in reverse post-order. The walk starts from the last root,
so that the first one comes first. -/
def reversePostOrder (g : Graph) (roots : List BlockId) : List BlockId :=
  (roots.foldr (fun r w => w.visit g.succs (g.size + 1) r) ({} : Walk)).left

/-- The place of `b` in `order`, counted from one; zero if it has none. -/
def rankIn (order : List BlockId) (b : BlockId) : Nat :=
  if b ∈ order then order.idxOf b + 1 else 0

def ranks (size : Nat) (order : List BlockId) : Array Nat :=
  Array.ofFn fun b : Fin size => rankIn order b

/-- The node above the roots has rank zero, as blocks without a place do. -/
def rankOf (ranks : Array Nat) : Node → Nat
  | none => 0
  | some b => ranks[b]?.getD 0

end TryRegions.Dominance
