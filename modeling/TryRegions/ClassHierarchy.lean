import TryRegions.Operand

/-! Which classes are below which. Any test may answer that; a class hierarchy does by declarations:
each class has at most one declared parent, and every class descends from the root class whether it
is declared or not. -/

namespace TryRegions

/-- Declared parents, the newest declaration first. -/
structure ClassHierarchy where
  links : List (TypeName × TypeName) := []
deriving DecidableEq, Repr, Inhabited

namespace ClassHierarchy

/-- Declares `parent` as the parent of `cls`, in place of an older declaration. -/
def add (h : ClassHierarchy) (cls parent : TypeName) : ClassHierarchy :=
  ⟨(cls, parent) :: h.links⟩

/-- The hierarchy of the declarations, given in order. -/
def ofList (pairs : List (TypeName × TypeName)) : ClassHierarchy :=
  pairs.foldl (fun h p => h.add p.1 p.2) {}

def parent? (h : ClassHierarchy) (cls : TypeName) : Option TypeName := h.links.lookup cls

/-- The declared parents that are not among the classes seen. -/
def unseen (h : ClassHierarchy) (seen : List TypeName) : List TypeName :=
  (h.links.map Prod.snd).filter fun p => decide (p ∉ seen)

theorem mem_parents {h : ClassHierarchy} {cls p : TypeName} (hp : h.parent? cls = some p) :
    p ∈ h.links.map Prod.snd := by
  obtain ⟨newer, older, hlinks, -⟩ := List.lookup_eq_some_iff.mp hp
  rw [hlinks]
  simp

theorem length_unseen_cons {h : ClassHierarchy} {seen : List TypeName} {p : TypeName}
    (hp : p ∈ h.links.map Prod.snd) (hnew : p ∉ seen) :
    (h.unseen (p :: seen)).length < (h.unseen seen).length := by
  have hfilter : h.unseen (p :: seen) = (h.unseen seen).filter fun q => decide (q ≠ p) := by
    simp [unseen, List.filter_filter]
  rw [hfilter]
  exact List.length_filter_lt_length_iff_exists.mpr
    ⟨p, List.mem_filter.mpr ⟨hp, decide_eq_true hnew⟩, by simp⟩

/-- Parent links lead from `cls` to `target`, by a walk that has seen the classes `seen` and ends
when it comes back to one of them. -/
def climbs (h : ClassHierarchy) (target : TypeName) (seen : List TypeName) (cls : TypeName) :
    Bool :=
  match hp : h.parent? cls with
  | none => false
  | some p =>
    if p = target then true
    else if hseen : p ∈ seen then false
    else
      have := length_unseen_cons (mem_parents hp) hseen
      h.climbs target (p :: seen) p
termination_by (h.unseen seen).length

/-- `sub` is another class than `super` and descends from it. -/
def isSubtype (h : ClassHierarchy) (sub super : TypeName) : Bool :=
  decide (sub ≠ super) && (decide (super = throwable) || h.climbs super [] sub)

end ClassHierarchy

/-- Tells which classes are below which. Nothing is taken for granted of the answers; without a test
of its own it takes that of the hierarchy without declarations. -/
structure TypeHierarchy where
  isSubtype : TypeName → TypeName → Bool := ({} : ClassHierarchy).isSubtype
deriving Inhabited

namespace ClassHierarchy

/-- The answers of a class hierarchy. -/
@[coe] def toTypes (h : ClassHierarchy) : TypeHierarchy := ⟨h.isSubtype⟩

instance : Coe ClassHierarchy TypeHierarchy := ⟨toTypes⟩

end ClassHierarchy

end TryRegions
