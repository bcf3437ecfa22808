import TryRegions.Instr

/-! Basic blocks: instructions, the edges to other blocks, and what is known of the block. -/

namespace TryRegions

structure BlockFlags where
  /-- Made to hold edges; no code of the method lies in it. -/
  synthetic : Bool := false
  /-- To be detached from the graph. -/
  remove : Bool := false
  tryEnter : Bool := false
  tryLeave : Bool := false
  /-- A region is entered through the block. -/
  topSplitter : Bool := false
  /-- A region is left through the block. -/
  bottomSplitter : Bool := false
  /-- Bits without a name, kept as given. -/
  unnamed : BitVec 10 := 0
deriving DecidableEq, Repr, Inhabited

namespace BlockFlags

def ofMask (mask : BitVec 16) : BlockFlags where
  synthetic := mask.getLsbD 0
  remove := mask.getLsbD 1
  tryEnter := mask.getLsbD 2
  tryLeave := mask.getLsbD 3
  topSplitter := mask.getLsbD 4
  bottomSplitter := mask.getLsbD 5
  unnamed := mask.extractLsb' 6 10

def toMask (f : BlockFlags) : BitVec 16 :=
  f.unnamed ++ BitVec.ofBool f.bottomSplitter ++ BitVec.ofBool f.topSplitter ++
    BitVec.ofBool f.tryLeave ++ BitVec.ofBool f.tryEnter ++ BitVec.ofBool f.remove ++
    BitVec.ofBool f.synthetic

/-- The flags set in `f` or in `g`. -/
def union (f g : BlockFlags) : BlockFlags where
  synthetic := f.synthetic || g.synthetic
  remove := f.remove || g.remove
  tryEnter := f.tryEnter || g.tryEnter
  tryLeave := f.tryLeave || g.tryLeave
  topSplitter := f.topSplitter || g.topSplitter
  bottomSplitter := f.bottomSplitter || g.bottomSplitter
  unnamed := f.unnamed ||| g.unnamed

/-- The flags set in `f` and not in `g`. -/
def diff (f g : BlockFlags) : BlockFlags where
  synthetic := f.synthetic && !g.synthetic
  remove := f.remove && !g.remove
  tryEnter := f.tryEnter && !g.tryEnter
  tryLeave := f.tryLeave && !g.tryLeave
  topSplitter := f.topSplitter && !g.topSplitter
  bottomSplitter := f.bottomSplitter && !g.bottomSplitter
  unnamed := f.unnamed &&& ~~~g.unnamed

/-- Every flag of `g` is set in `f`. -/
def hasAll (f g : BlockFlags) : Bool := decide (f.union g = f)

/-- The names of the flags that are set; bits without a name show nothing. -/
def text (f : BlockFlags) : String :=
  Text.joined "," <|
    (if f.synthetic then ["synthetic"] else []) ++
    (if f.remove then ["remove"] else []) ++
    (if f.tryEnter then ["try-enter"] else []) ++
    (if f.tryLeave then ["try-leave"] else []) ++
    (if f.topSplitter then ["exc-top-splitter"] else []) ++
    (if f.bottomSplitter then ["exc-bottom-splitter"] else [])

end BlockFlags

structure Block where
  offset : Int
  instrs : List Instr := []
  flags : BlockFlags := {}
  preds : List BlockId := []
  succs : List BlockId := []
  /-- The successors that control reaches without an exception. -/
  clean : List BlockId := []
  /-- The coverage that all covered instructions of the block share. -/
  catches : Option CatchSet := none
  /-- The handler that the block is the entry of. -/
  handler : Option HandlerId := none
  /-- The innermost region that covers the block. -/
  region : Option RegionId := none
  /-- The source of an edge that stands in until handlers have their entries. -/
  tmpEdge : Option BlockId := none
  detached : Bool := false
deriving DecidableEq, Repr, Inhabited

namespace Block

def addFlags (b : Block) (f : BlockFlags) : Block := { b with flags := b.flags.union f }

def clearFlags (b : Block) (f : BlockFlags) : Block := { b with flags := b.flags.diff f }

def endsWith (b : Block) (op : Opcode) : Bool := b.instrs.getLast?.any fun i => i.opcode = op

/-- The coverage that every covered instruction carries: none if no instruction is covered or two
of them differ. -/
def commonCoverage (b : Block) : Option CatchSet :=
  match b.instrs.filterMap (·.catches) with
  | [] => none
  | c :: cs => if cs.all (· = c) then some c else none

/-- Drops the coverage of instructions that cannot raise an exception, then gives the block the
coverage that is left, where it is the same for all. -/
def promoteCoverage (b : Block) : Block :=
  let instrs := b.instrs.map Instr.dropIdleCoverage
  let b := { b with instrs }
  match b.commonCoverage with
  | none => b
  | some c =>
    { b with
      catches := some c
      flags := { b.flags with
        tryEnter := b.flags.tryEnter || instrs.any (·.flags.tryEnter)
        tryLeave := b.flags.tryLeave || instrs.any (·.flags.tryLeave) } }

end Block

end TryRegions
