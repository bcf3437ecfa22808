import TryRegions.Graph.Basic

/-! Depth-first walks over any successor function. -/

namespace TryRegions

/-- What a depth-first walk has met so far. -/
structure Walk where
  /-- The blocks entered, the last one first. -/
  entered : List BlockId := []
  /-- The blocks left for good, the last one first. -/
  left : List BlockId := []
deriving DecidableEq, Repr, Inhabited

namespace Walk

/-- Walks on from `b` unless it was entered before. A walk goes at most `fuel` blocks deep. -/
def visit (next : BlockId → List BlockId) : Nat → Walk → BlockId → Walk
  | 0, w, _ => w
  | fuel + 1, w, b =>
    if b ∈ w.entered then w
    else
      let w := (next b).foldl (visit next fuel) { w with entered := b :: w.entered }
      { w with left := b :: w.left }

end Walk

end TryRegions
