import TryRegions.Graph.Basic

/-! Clean edges: the edges that control follows when no exception is raised. -/

namespace TryRegions.Graph

def isEntry (g : Graph) (b : BlockId) : Bool := (g.block? b).any fun k => k.handler.isSome

/-- Entering the block means that an exception was raised: it is the entry of a handler, the way
out of a region, marked for removal, or an empty stand-in in front of the entry of a handler. -/
def isExceptional (g : Graph) (b : BlockId) : Bool :=
  (g.block? b).any fun k =>
    k.handler.isSome || k.flags.bottomSplitter || k.flags.remove ||
      (k.flags.synthetic &&
        match k.succs with
        | [s] => g.isEntry s
        | _ => false)

/-- Computes the clean successors of `b` anew. -/
def refresh (g : Graph) (b : BlockId) : Graph :=
  g.modify b fun k => { k with clean := k.succs.filter fun s => !g.isExceptional s }

/-- Computes the clean successors of every live block anew. -/
def refreshAll (g : Graph) : Graph := g.live.foldl refresh g

def refreshClean (g : Graph) (b : BlockId) : Except Fault Graph := do
  g.check b
  return g.refresh b

def exceptional (g : Graph) (b : BlockId) : Except Fault Bool := do
  g.check b
  return g.isExceptional b

end TryRegions.Graph
