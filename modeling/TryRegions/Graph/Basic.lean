import TryRegions.Block
import TryRegions.Fault

/-! Flow graphs. A block that leaves the graph is detached and keeps its number, so that numbers
never change their meaning. Edits on numbers out of range change no block; the checked edits
refuse them. -/

namespace TryRegions

structure Graph where
  /-- Every block ever made, by number. -/
  blocks : Array Block := #[]
  /-- The blocks that are not detached, in the order in which they were made. -/
  live : List BlockId := []
  /-- Grows with every change of blocks or edges. -/
  version : Nat := 0
deriving DecidableEq, Repr, Inhabited

namespace Graph

/-- How many blocks were ever made. -/
def size (g : Graph) : Nat := g.blocks.size

def block? (g : Graph) (b : BlockId) : Option Block := g.blocks[b]?

def preds (g : Graph) (b : BlockId) : List BlockId := (g.block? b).elim [] Block.preds

def succs (g : Graph) (b : BlockId) : List BlockId := (g.block? b).elim [] Block.succs

def clean (g : Graph) (b : BlockId) : List BlockId := (g.block? b).elim [] Block.clean

def flags (g : Graph) (b : BlockId) : BlockFlags := (g.block? b).elim {} Block.flags

def isLive (g : Graph) (b : BlockId) : Bool := (g.block? b).any fun k => !k.detached

def modify (g : Graph) (b : BlockId) (f : Block → Block) : Graph :=
  { g with blocks := g.blocks.modify b f }

def bump (g : Graph) : Graph := { g with version := g.version + 1 }

@[simp] theorem block?_modify (g : Graph) (b c : BlockId) (f : Block → Block) :
    (g.modify b f).block? c = if b = c then (g.block? c).map f else g.block? c := by
  simp [modify, block?, Array.getElem?_modify]

@[simp] theorem size_modify (g : Graph) (b : BlockId) (f : Block → Block) :
    (g.modify b f).size = g.size := by
  simp [modify, size]

@[simp] theorem live_modify (g : Graph) (b : BlockId) (f : Block → Block) :
    (g.modify b f).live = g.live := rfl

@[simp] theorem version_modify (g : Graph) (b : BlockId) (f : Block → Block) :
    (g.modify b f).version = g.version := rfl

@[simp] theorem block?_bump (g : Graph) (b : BlockId) : g.bump.block? b = g.block? b := rfl

@[simp] theorem size_bump (g : Graph) : g.bump.size = g.size := rfl

@[simp] theorem live_bump (g : Graph) : g.bump.live = g.live := rfl

@[simp] theorem version_bump (g : Graph) : g.bump.version = g.version + 1 := rfl

/-- Changes every live block. -/
def mapLive (g : Graph) (f : Block → Block) : Graph := g.live.foldl (fun g b => g.modify b f) g

/-- Adds an empty block, whose number is the size before. -/
def newBlock (g : Graph) (offset : Int) : Graph where
  blocks := g.blocks.push { offset }
  live := g.live ++ [g.size]
  version := g.version + 1

@[simp] theorem size_newBlock (g : Graph) (offset : Int) :
    (g.newBlock offset).size = g.size + 1 := by
  simp [newBlock, size]

theorem block?_newBlock (g : Graph) (offset : Int) (b : BlockId) :
    (g.newBlock offset).block? b = if b = g.size then some { offset } else g.block? b := by
  exact Array.getElem?_push

/-- Adds the edge if it is not there yet. -/
def addEdge (g : Graph) (source target : BlockId) : Graph :=
  ((g.modify source fun b => { b with succs := insertNew b.succs target }).modify target
    fun b => { b with preds := insertNew b.preds source }).bump

@[simp] theorem size_addEdge (g : Graph) (source target : BlockId) :
    (g.addEdge source target).size = g.size := by
  simp [addEdge]

/-- Takes the edge away if it is there. -/
def removeEdge (g : Graph) (source target : BlockId) : Graph :=
  ((g.modify source fun b =>
    { b with succs := b.succs.erase target, clean := b.clean.erase target }).modify target
    fun b => { b with preds := b.preds.erase source }).bump

@[simp] theorem size_removeEdge (g : Graph) (source target : BlockId) :
    (g.removeEdge source target).size = g.size := by
  simp [removeEdge]

/-- Successors after the edge to `old` is turned to `new`: it keeps its place, and goes away if
there is an edge to `new` already. -/
def turn (succs : List BlockId) (old new : BlockId) : List BlockId :=
  if new ∈ succs then succs.erase old else succs.replace old new

/-- Turns the edge from `source` to `old` so that it leads to `new`. -/
def redirect (g : Graph) (source old new : BlockId) : Graph :=
  (((g.modify source fun b => { b with succs := turn b.succs old new }).modify old
    fun b => { b with preds := b.preds.erase source }).modify new
    fun b => { b with preds := insertNew b.preds source }).bump

@[simp] theorem size_redirect (g : Graph) (source old new : BlockId) :
    (g.redirect source old new).size = g.size := by
  simp [redirect]

/-- Puts an empty block in front of `b`: every edge to `b` leads to the new block, from which one
edge leads to `b`. -/
def splitAbove (g : Graph) (b : BlockId) : Graph :=
  let offset := (g.block? b).elim 0 Block.offset
  let split := (g.preds b).foldl (fun h p => h.redirect p b g.size) (g.newBlock offset)
  split.addEdge g.size b

/-- Takes away the edges to `b`, then those from it. -/
def isolate (g : Graph) (b : BlockId) : Graph :=
  let cut := (g.preds b).foldl (fun h p => h.removeEdge p b) g
  (cut.succs b).foldl (fun h s => h.removeEdge b s) cut

/-- Detaches the live blocks flagged for removal and takes away all their edges. -/
def detachMarked (g : Graph) : Graph :=
  let marked := g.live.filter fun b => (g.flags b).remove
  if marked.isEmpty then g
  else
    let kept := { g with live := g.live.filter fun b => !(g.flags b).remove }
    let detached := marked.foldl (fun h b => h.modify b fun k => { k with detached := true }) kept
    (marked.foldl isolate detached).bump

/-- Refuses a number out of range. -/
def check (g : Graph) (b : BlockId) : Except Fault Unit :=
  if b < g.size then .ok () else .error (.outOfRange b g.size)

def connect (g : Graph) (source target : BlockId) : Except Fault Graph := do
  g.check source
  g.check target
  return g.addEdge source target

def disconnect (g : Graph) (source target : BlockId) : Except Fault Graph := do
  g.check source
  g.check target
  return g.removeEdge source target

def reconnect (g : Graph) (source old new : BlockId) : Except Fault Graph := do
  g.check source
  g.check old
  g.check new
  return g.redirect source old new

def splitTop (g : Graph) (b : BlockId) : Except Fault Graph := do
  g.check b
  return g.splitAbove b

/-- The first of the blocks that has all the flags. -/
def firstWithFlags (g : Graph) (f : BlockFlags) : List BlockId → Except Fault (Option BlockId)
  | [] => .ok none
  | b :: bs => do
    g.check b
    if (g.flags b).hasAll f then return some b
    g.firstWithFlags f bs

end Graph

end TryRegions
