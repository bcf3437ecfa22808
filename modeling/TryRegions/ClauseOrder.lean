import TryRegions.ClassHierarchy
import TryRegions.Handler

/-! The order of the catch clauses of a region: a clause for a class comes before one for a class
above it, unrelated clauses go by name, and those that catch everything come last. Clauses get their
places one after the other, and each one that is left knows how many others it still waits for. -/

namespace TryRegions.ClauseOrder

variable {α : Type}

/-- A clause on its way to a place. -/
structure Slot (α : Type) where
  clause : α
  /-- Where the clause stands in the list that is put in order. -/
  position : Nat
  /-- How many clauses that have no place yet have to come before it. -/
  pending : Int
  placed : Bool := false

/-- The clause and whether it waits for no other one. -/
def Slot.mark (s : Slot α) : α × Bool := (s.clause, decide (s.pending = 0))

/-- The class of `b` is below that of `a`, so that it has to come first. -/
def precedes (types : TypeHierarchy) (info : α → Handler) (b a : α) : Bool :=
  types.isSubtype (info b).leadType (info a).leadType

/-- The clauses, none of which has a place. -/
def slots (types : TypeHierarchy) (info : α → Handler) (clauses : List α) : List (Slot α) :=
  clauses.zipIdx.map fun (a, i) =>
    { clause := a
      position := i
      pending := clauses.zipIdx.countP fun (b, j) => decide (j ≠ i) && precedes types info b a }

/-- Ready clauses first, then by the name of the leading class, then by number. -/
def before (info : α → Handler) (a b : α × Bool) : Bool :=
  if a.2 ≠ b.2 then a.2
  else if (info a.1).leadType = (info b.1).leadType then
    decide ((info a.1).number < (info b.1).number)
  else decide ((info a.1).leadType < (info b.1).leadType)

/-- A look at one more slot, with the best one so far. -/
def better (info : α → Handler) (held : Option (Slot α)) (s : Slot α) : Option (Slot α) :=
  if s.placed then held
  else
    match held with
    | none => some s
    | some h => if before info s.mark h.mark then some s else held

/-- The slot that is placed next, none if all are. -/
def next (info : α → Handler) (slots : List (Slot α)) : Option (Slot α) :=
  slots.foldl (better info) none

/-- A slot once `first` has its place: if it waited for that clause it waits for one less. -/
def Slot.after (s : Slot α) (types : TypeHierarchy) (info : α → Handler) (first : Slot α) :
    Slot α :=
  if s.position = first.position then { s with placed := true }
  else if !s.placed && precedes types info first.clause s.clause then
    { s with pending := s.pending - 1 }
  else s

/-- Places as many clauses as `count` says, one after the other. -/
def place (types : TypeHierarchy) (info : α → Handler) : Nat → List (Slot α) → List α
  | 0, _ => []
  | count + 1, slots =>
    match next info slots with
    | none => []
    | some first =>
      first.clause :: place types info count (slots.map (·.after types info first))

/-- The clauses in catch order; `info` gives their records. -/
def order (types : TypeHierarchy) (info : α → Handler) (clauses : List α) : List α :=
  let typed := clauses.filter fun a => !(info a).catchesAll
  place types info typed.length (slots types info typed) ++
    clauses.filter fun a => (info a).catchesAll

end TryRegions.ClauseOrder
