import TryRegions.Region
import TryRegions.Distinct

/-! Reading a forest of regions after an edit. Edits of the nesting leave what the regions hold,
their clauses and their blocks, and what they are called as it is. -/

namespace TryRegions.Forest

variable (f : Forest)

@[simp] theorem size_modify (r : RegionId) (change : Region → Region) :
    (f.modify r change).size = f.size := by
  simp [modify, size]

@[simp] theorem size_push (x : Region) : (f.push x).size = f.size + 1 := by
  simp [push, size]

theorem get_modify (r q : RegionId) (change : Region → Region) :
    (f.modify r change).get q = if r = q ∧ q < f.size then change (f.get q) else f.get q := by
  unfold get modify size
  rw [Array.getElem?_modify]
  by_cases hrq : r = q
  · subst hrq
    by_cases hr : r < f.regions.size
    · simp [hr]
    · simp [hr]
  · simp [hrq]

theorem get_push (x : Region) (r : RegionId) :
    (f.push x).get r = if r = f.size then x else f.get r := by
  unfold get push size
  rw [Array.getElem?_push]
  split <;> rfl

theorem number_modify (r q : RegionId) {change : Region → Region}
    (hchange : ∀ k, (change k).number = k.number) :
    ((f.modify r change).get q).number = (f.get q).number := by
  rw [get_modify]
  split
  · exact hchange _
  · rfl

/-- The two forests have the same regions, up to how they are nested. -/
structure SameContent (f f' : Forest) : Prop where
  size : f'.size = f.size
  handlers : ∀ r, (f'.get r).handlers = (f.get r).handlers
  blocks : ∀ r, (f'.get r).blocks = (f.get r).blocks
  number : ∀ r, (f'.get r).number = (f.get r).number

namespace SameContent

variable {f} {f' f'' : Forest}

theorem refl (f : Forest) : SameContent f f := ⟨rfl, fun _ => rfl, fun _ => rfl, fun _ => rfl⟩

theorem trans (h : SameContent f f') (h' : SameContent f' f'') : SameContent f f'' :=
  ⟨h'.size.trans h.size, fun r => (h'.handlers r).trans (h.handlers r),
    fun r => (h'.blocks r).trans (h.blocks r), fun r => (h'.number r).trans (h.number r)⟩

theorem modify (f : Forest) (r : RegionId) (change : Region → Region)
    (hhandlers : ∀ k, (change k).handlers = k.handlers)
    (hblocks : ∀ k, (change k).blocks = k.blocks)
    (hnumber : ∀ k, (change k).number = k.number) : SameContent f (f.modify r change) where
  size := size_modify f r change
  handlers q := by
    rw [get_modify]
    split
    · exact hhandlers _
    · rfl
  blocks q := by
    rw [get_modify]
    split
    · exact hblocks _
    · rfl
  number q := number_modify f r q hnumber

theorem link (f : Forest) (child outer : RegionId) : SameContent f (f.link child outer) := by
  have under := modify f child (fun r => { r with outer := some outer }) (fun _ => rfl)
    (fun _ => rfl) fun _ => rfl
  exact under.trans (modify _ outer (fun r => { r with inner := r.inner ++ [child] })
    (fun _ => rfl) (fun _ => rfl) fun _ => rfl)

theorem unlink (f : Forest) (child : RegionId) : SameContent f (f.unlink child) := by
  unfold Forest.unlink
  split
  · exact refl f
  · rename_i outer _
    have without := modify f outer (fun r => { r with inner := r.inner.filter (· ≠ child) })
      (fun _ => rfl) (fun _ => rfl) fun _ => rfl
    exact without.trans (modify _ child (fun r => { r with outer := none }) (fun _ => rfl)
      (fun _ => rfl) fun _ => rfl)

theorem foldl {α : Type} (step : Forest → α → Forest)
    (hstep : ∀ f a, SameContent f (step f a)) (l : List α) (f : Forest) :
    SameContent f (l.foldl step f) := by
  induction l generalizing f with
  | nil => exact refl f
  | cons a l ih => exact (hstep f a).trans (ih (step f a))

theorem rehang (f : Forest) (children : List RegionId) (outer : Option RegionId) :
    SameContent f (f.rehang children outer) := by
  refine foldl _ (fun f child => ?_) children f
  cases outer with
  | none => exact unlink f child
  | some o => exact (unlink f child).trans (link _ child o)

end SameContent

/-- A block that a region of `f'` holds satisfies `P`, or a region of `f` held it. -/
def HoldsFrom (P : BlockId → Prop) (f f' : Forest) : Prop :=
  ∀ r, ∀ b ∈ (f'.get r).blocks, P b ∨ ∃ q, b ∈ (f.get q).blocks

namespace HoldsFrom

variable {P : BlockId → Prop} {f} {f' f'' : Forest}

theorem refl (f : Forest) : HoldsFrom P f f := fun r _ hb => Or.inr ⟨r, hb⟩

theorem sameContent (h : HoldsFrom P f f') (same : SameContent f' f'') : HoldsFrom P f f'' := by
  intro r b hb
  rw [same.blocks] at hb
  exact h r b hb

theorem modify (h : HoldsFrom P f f') (r : RegionId) {change : Region → Region}
    (hchange : ∀ b ∈ (change (f'.get r)).blocks, P b ∨ ∃ q, b ∈ (f.get q).blocks) :
    HoldsFrom P f (f'.modify r change) := by
  intro q b hb
  rw [get_modify] at hb
  split at hb
  · rename_i hq
    rw [← hq.1] at hb
    exact hchange b hb
  · exact h q b hb

theorem push (h : HoldsFrom P f f') {region : Region}
    (hregion : ∀ b ∈ region.blocks, P b ∨ ∃ q, b ∈ (f.get q).blocks) :
    HoldsFrom P f (f'.push region) := by
  intro r b hb
  rw [get_push] at hb
  split at hb
  · exact hregion b hb
  · exact h r b hb

end HoldsFrom

end TryRegions.Forest
