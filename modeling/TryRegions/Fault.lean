import TryRegions.BlockId

/-! Faults: a block number was used for which no block exists. -/

namespace TryRegions

/-- How the use of a block that does not exist shows. -/
inductive Fault where
  /-- The number was used as a position among the `size` blocks ever made. -/
  | outOfRange (block : BlockId) (size : Nat)
  /-- A field of the block was asked for. -/
  | missingBlock
deriving DecidableEq, Repr

def Fault.message : Fault → String
  | .outOfRange block size =>
    "runtime error: index out of range [" ++ toString block ++ "] with length " ++ toString size
  | .missingBlock => "runtime error: invalid memory address or nil pointer dereference"

end TryRegions
