import TryRegions.Graph.Clean

/-! Searches over any successor function, from a queue of blocks, and path queries over clean
edges. -/

namespace TryRegions

/-- A search from the blocks of a queue for a block that leads to `target`. A block that the search
has visited is passed over; otherwise its successors are queued, unless `target` is one of them, in
order and with repetitions. At most `fuel` blocks are taken from the queue. -/
def search (next : BlockId → List BlockId) (target : BlockId) :
    Nat → List BlockId → List BlockId → Bool
  | 0, _, _ => false
  | _ + 1, _, [] => false
  | fuel + 1, visited, b :: queue =>
    if b ∈ visited then search next target fuel visited queue
    else if target ∈ next b then true
    else search next target fuel (b :: visited) (queue ++ next b)

/-- A breadth-first search: the blocks met with the number of steps to them, in the order in which
they were met, and those of them whose successors are still to be looked at. -/
structure Survey where
  levels : List (BlockId × Nat)
  queue : List BlockId

namespace Survey

/-- Meets `b` after `level` steps, unless it was met before. -/
def meet (level : Nat) (s : Survey) (b : BlockId) : Survey :=
  if b ∈ s.levels.map Prod.fst then s
  else { levels := s.levels ++ [(b, level)], queue := s.queue ++ [b] }

/-- Takes one block after the other from the queue and meets its successors, one step further away
than itself. At most `fuel` blocks are taken. -/
def run (next : BlockId → List BlockId) : Nat → Survey → List (BlockId × Nat)
  | 0, s => s.levels
  | fuel + 1, s =>
    match s.queue with
    | [] => s.levels
    | b :: queue =>
      let level := (s.levels.lookup b).getD 0
      run next fuel ((next b).foldl (meet (level + 1)) { s with queue })

end Survey

namespace Graph

/-- No search over clean edges takes more blocks from its queue than there are clean edges, and its
start. -/
def searchFuel (g : Graph) : Nat := ((List.range g.size).flatMap g.clean).length + 1

/-- The blocks that clean edges lead to from `start`, which is not one of them, with the least
number of edges to each. -/
def cleanDistances (g : Graph) (start : BlockId) : List (BlockId × Nat) :=
  let levels := Survey.run g.clean g.searchFuel { levels := [(start, 0)], queue := [start] }
  levels.filter fun (b, _) => b ≠ start

/-- Clean edges lead from `start` to `target`, in no step if the two are the same. -/
def pathExists (g : Graph) (start target : BlockId) : Except Fault Bool :=
  if start = target then .ok true
  else do
    g.check start
    return decide (target ∈ g.clean start) || search g.clean target g.searchFuel [] [start]

/-- Clean edges lead from one of the blocks to `target`. -/
def anyPathExists (g : Graph) (blocks : List BlockId) (target : BlockId) : Except Fault Bool :=
  blocks.anyM fun b => g.pathExists b target

/-- The first listed block that is related to all others. A block that is listed alone is the first
without a question. -/
def firstRelated (related : BlockId → BlockId → Except Fault Bool) :
    List BlockId → Except Fault (Option BlockId)
  | [b] => .ok (some b)
  | blocks => blocks.findM? fun b => blocks.allM fun c =>
    if b = c then .ok true else related b c

/-- The first listed block from which clean edges lead to all others. -/
def topBlock (g : Graph) (blocks : List BlockId) : Except Fault (Option BlockId) :=
  firstRelated g.pathExists blocks

/-- The first listed block to which clean edges lead from all others. -/
def bottomBlock (g : Graph) (blocks : List BlockId) : Except Fault (Option BlockId) :=
  firstRelated (fun b c => g.pathExists c b) blocks

end Graph

end TryRegions
