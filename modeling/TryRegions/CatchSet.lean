import TryRegions.Distinct
import TryRegions.StableSort
import TryRegions.Handler

/-! Catch sets: the handlers active at an instruction or in a whole block. -/

namespace TryRegions

/-- Handlers without repetition, by the offset of their code and then by their number. -/
structure CatchSet where
  handlers : List HandlerId
deriving DecidableEq, Repr, Inhabited

namespace CatchSet

/-- The catch set of the listed handlers, whose records `info` gives. -/
def ofList (info : HandlerId → Handler) (hs : List HandlerId) : CatchSet :=
  ⟨sortBy (fun a b => Handler.codeBefore (info a) (info b)) (appendNew [] hs)⟩

def text (info : HandlerId → Handler) (c : CatchSet) : String :=
  "Catch: " ++ Text.joined ", " (c.handlers.map fun h => (info h).text)

end CatchSet

end TryRegions
