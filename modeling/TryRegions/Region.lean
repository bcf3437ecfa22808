import TryRegions.Handler

/-! Try regions and the forest that they form. -/

namespace TryRegions

/-- Blocks that are protected by the same catch clauses. -/
structure Region where
  /-- Shown in texts. -/
  number : Int
  handlers : List HandlerId
  blocks : List BlockId
  /-- The region that encloses this one. -/
  outer : Option RegionId := none
  /-- The regions that this one encloses. -/
  inner : List RegionId := []
  /-- The block through which the region is entered. -/
  topSplitter : Option BlockId := none
deriving DecidableEq, Repr, Inhabited

/-- Every region ever made for a method, by number. -/
structure Forest where
  regions : Array Region := #[]
deriving DecidableEq, Repr, Inhabited

namespace Forest

def size (f : Forest) : Nat := f.regions.size

def get (f : Forest) (r : RegionId) : Region := f.regions[r]?.getD default

def modify (f : Forest) (r : RegionId) (change : Region → Region) : Forest :=
  ⟨f.regions.modify r change⟩

/-- Adds a region, whose number in the forest is the size before. -/
def push (f : Forest) (r : Region) : Forest := ⟨f.regions.push r⟩

/-- Puts `child` under `outer`. -/
def link (f : Forest) (child outer : RegionId) : Forest :=
  (f.modify child fun r => { r with outer := some outer }).modify outer
    fun r => { r with inner := r.inner ++ [child] }

/-- Takes `child` out of the region that encloses it, if there is one. -/
def unlink (f : Forest) (child : RegionId) : Forest :=
  match (f.get child).outer with
  | none => f
  | some outer =>
    (f.modify outer fun r => { r with inner := r.inner.filter (· ≠ child) }).modify child
      fun r => { r with outer := none }

/-- The regions met on the way outwards, `r` first; at most `fuel` of them. -/
def outwards (f : Forest) : Nat → Option RegionId → List RegionId
  | 0, _ => []
  | _ + 1, none => []
  | fuel + 1, some r => r :: f.outwards fuel (f.get r).outer

/-- The region itself and those that enclose it, the innermost first. -/
def chain (f : Forest) (r : RegionId) : List RegionId := f.outwards (f.size + 1) (some r)

/-- `other` encloses `r`, directly or not. -/
def hasAncestor (f : Forest) (r other : RegionId) : Bool :=
  decide (other ∈ f.outwards f.size (f.get r).outer)

/-- Moves each of `children` to `outer`, or out of the forest's nesting if there is none. -/
def rehang (f : Forest) (children : List RegionId) (outer : Option RegionId) : Forest :=
  children.foldl
    (fun f child =>
      match outer with
      | none => f.unlink child
      | some o => (f.unlink child).link child o)
    f

end Forest

/-- The region's only clause catches everything. -/
def Region.isCatchAll (info : HandlerId → Handler) (r : Region) : Bool :=
  match r.handlers with
  | [h] => (info h).catchesAll
  | _ => false

/-- The text of a region; the numbers of its neighbours come from the forest. -/
def Forest.text (f : Forest) (info : HandlerId → Handler) (r : RegionId) : String :=
  let region := f.get r
  let numberOf := fun n => "#" ++ toString (f.get n).number
  "TryCatch #" ++ toString region.number ++ " \x7b" ++
    Text.joined ", " (region.handlers.map fun h => (info h).text) ++ "\x7d blocks: " ++
    BlockId.listing region.blocks ++
    (match region.outer with
      | some o => " outer: " ++ numberOf o
      | none => "") ++
    (if region.inner.isEmpty then ""
      else " inner: [" ++ Text.joined ", " (region.inner.map numberOf) ++ "]")

end TryRegions
