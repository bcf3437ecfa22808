import TryRegions.Text.Hex

/-! Numbers that name blocks, handlers and regions: positions in the tables of their method. -/

namespace TryRegions

/-- A block is named by its position among the blocks ever made for its graph. -/
abbrev BlockId := Nat

/-- A handler is named by its position among the handlers ever made for its method. -/
abbrev HandlerId := Nat

/-- A region is named by its position among the regions ever made for its method. -/
abbrev RegionId := Nat

namespace BlockId

/-- The number kept free to stand for "no block" where a number has to be given. -/
def reserved : BlockId := 4294967295

/-- The block that `b` names, if it does not stand for "no block". -/
def present? (b : BlockId) : Option BlockId := if b = reserved then none else some b

/-- The number used for a block that may be absent. -/
def orReserved (b : Option BlockId) : BlockId := b.getD reserved

def label (b : BlockId) : String := if b = reserved then "B-" else "B" ++ toString b

/-- The label of a block that may be absent. -/
def labelOf (b : Option BlockId) : String := label (orReserved b)

/-- Labels between brackets, one blank between them. -/
def labels (bs : List BlockId) : String := "[" ++ Text.joined " " (bs.map label) ++ "]"

/-- Labels between brackets, a comma and a blank between them. -/
def listing (bs : List BlockId) : String := "[" ++ Text.joined ", " (bs.map label) ++ "]"

end BlockId

end TryRegions
