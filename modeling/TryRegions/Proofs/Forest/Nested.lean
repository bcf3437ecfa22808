import Mathlib.Data.List.Perm.Subperm
import Mathlib.Logic.Relation
import TryRegions.Proofs.Forest

/-! The nesting of regions. Each region knows the one around it and the ones that it encloses. The
two records agree, and no region encloses itself, after every edit of the nesting. Regions below a
given number, made for something else, take no part. -/

namespace TryRegions.Forest

open Relation

variable {f f' : Forest} {base : Nat} {regions : List RegionId}

/-- Region `o` is the one directly around `r`. -/
def Under (f : Forest) (r o : RegionId) : Prop := (f.get r).outer = some o

/-- Past the end of the forest there is no nesting. -/
theorem get_of_size_le {r : RegionId} (h : f.size ≤ r) : f.get r = default := by
  rw [get, Array.getElem?_eq_none h, Option.getD_none]

theorem Under.lt {r o : RegionId} (h : f.Under r o) : r < f.size := by
  by_contra hr
  rw [Under, get_of_size_le (Nat.le_of_not_lt hr)] at h
  cases h

theorem outer_unlink (f : Forest) (child x : RegionId) :
    ((f.unlink child).get x).outer = if x = child then none else (f.get x).outer := by
  unfold unlink
  split
  · rename_i hnone
    split
    · rename_i hx
      rw [hx, hnone]
    · rfl
  · rename_i o ho
    have hlt : child < f.size := Under.lt ho
    rw [get_modify, size_modify]
    by_cases hx : x = child
    · subst hx
      rw [if_pos ⟨rfl, hlt⟩, if_pos rfl]
    · rw [if_neg fun h => hx h.1.symm, if_neg hx, get_modify]
      split <;> rfl

theorem inner_unlink (f : Forest) (child x : RegionId) :
    ((f.unlink child).get x).inner =
      if (f.get child).outer = some x then (f.get x).inner.filter (· ≠ child)
      else (f.get x).inner := by
  unfold unlink
  split
  · rename_i hnone
    rw [hnone, if_neg nofun]
  · rename_i o ho
    have hinner :
        ((f.modify o fun r => { r with inner := r.inner.filter (· ≠ child) }).get x).inner =
        if some o = some x then (f.get x).inner.filter (· ≠ child) else (f.get x).inner := by
      rw [get_modify]
      by_cases hx : o = x
      · subst hx
        rw [if_pos rfl]
        split
        · rfl
        · rename_i hlt
          rw [get_of_size_le (Nat.le_of_not_lt fun h => hlt ⟨rfl, h⟩)]
          rfl
      · rw [if_neg fun h => hx h.1, if_neg fun h => hx (Option.some.inj h)]
    rw [ho, ← hinner, get_modify]
    split <;> rfl

theorem outer_link {child : RegionId} (hchild : child < f.size) (o x : RegionId) :
    ((f.link child o).get x).outer = if x = child then some o else (f.get x).outer := by
  have houter : ((f.modify child fun r => { r with outer := some o }).get x).outer =
      if x = child then some o else (f.get x).outer := by
    rw [get_modify]
    by_cases hx : x = child
    · subst hx
      rw [if_pos ⟨rfl, hchild⟩, if_pos rfl]
    · rw [if_neg fun h => hx h.1.symm, if_neg hx]
  unfold link
  rw [← houter, get_modify]
  split <;> rfl

theorem inner_link {o : RegionId} (ho : o < f.size) (child x : RegionId) :
    ((f.link child o).get x).inner =
      if x = o then (f.get x).inner ++ [child] else (f.get x).inner := by
  have hinner : ((f.modify child fun r => { r with outer := some o }).get x).inner =
      (f.get x).inner := by
    rw [get_modify]
    split <;> rfl
  unfold link
  rw [← hinner, get_modify, size_modify]
  by_cases hx : x = o
  · subst hx
    rw [if_pos ⟨rfl, ho⟩, if_pos rfl]
  · rw [if_neg fun h => hx h.1.symm, if_neg hx]

/-- A region that is added lies under none. -/
theorem outer_push (f : Forest) {region : Region} (houter : region.outer = none) (r : RegionId) :
    ((f.push region).get r).outer = (f.get r).outer := by
  rw [get_push]
  split
  · rename_i hr
    rw [houter, get_of_size_le (Nat.le_of_eq hr.symm)]
    rfl
  · rfl

theorem under_push (f : Forest) {region : Region} (houter : region.outer = none) :
    (f.push region).Under = f.Under := by
  funext r o
  rw [Under, outer_push f houter, Under]

/-- A link after `inner` was put under `outer`. -/
theorem under_link {inner outer : RegionId} (hinner : inner < f.size) {t o : RegionId}
    (hto : (f.link inner outer).Under t o) : f.Under t o ∨ t = inner ∧ o = outer := by
  rw [Under, outer_link hinner] at hto
  split at hto
  · rename_i ht
    exact Or.inr ⟨ht, (Option.some.inj hto).symm⟩
  · exact Or.inl hto

/-- The two forests have as many regions, nested in the same way. -/
structure SameNesting (f f' : Forest) : Prop where
  size : f'.size = f.size
  outer : ∀ r, (f'.get r).outer = (f.get r).outer
  inner : ∀ r, (f'.get r).inner = (f.get r).inner

namespace SameNesting

theorem refl (f : Forest) : SameNesting f f := ⟨rfl, fun _ => rfl, fun _ => rfl⟩

theorem trans {f'' : Forest} (h : SameNesting f f') (h' : SameNesting f' f'') :
    SameNesting f f'' :=
  ⟨h'.size.trans h.size, fun r => (h'.outer r).trans (h.outer r),
    fun r => (h'.inner r).trans (h.inner r)⟩

theorem symm (h : SameNesting f f') : SameNesting f' f :=
  ⟨h.size.symm, fun r => (h.outer r).symm, fun r => (h.inner r).symm⟩

theorem modify (f : Forest) (r : RegionId) {change : Region → Region}
    (hchange : ∀ k, (change k).outer = k.outer ∧ (change k).inner = k.inner) :
    SameNesting f (f.modify r change) where
  size := size_modify f r change
  outer q := by
    rw [get_modify]
    split
    · exact (hchange _).1
    · rfl
  inner q := by
    rw [get_modify]
    split
    · exact (hchange _).2
    · rfl

theorem under (h : SameNesting f f') : f'.Under = f.Under := by
  funext r o
  rw [Under, h.outer, Under]

theorem outwards (h : SameNesting f f') (fuel : Nat) (r : Option RegionId) :
    f'.outwards fuel r = f.outwards fuel r := by
  induction fuel generalizing r with
  | zero => rfl
  | succ fuel ih =>
    cases r with
    | none => rfl
    | some r => rw [Forest.outwards, Forest.outwards, h.outer, ih]

theorem chain (h : SameNesting f f') (r : RegionId) : f'.chain r = f.chain r := by
  rw [Forest.chain, Forest.chain, h.outwards, h.size]

end SameNesting

/-- Among the regions from `base` on, each one lists those directly under it, each of them once, and
no others. -/
def Mirrored (base : Nat) (f : Forest) : Prop :=
  ∀ t o, base ≤ o →
    (f.get o).inner.count t = if base ≤ t ∧ (f.get t).outer = some o then 1 else 0

namespace Mirrored

theorem mem_inner (h : f.Mirrored base) {t o : RegionId} (ho : base ≤ o) :
    t ∈ (f.get o).inner ↔ base ≤ t ∧ f.Under t o := by
  rw [← List.count_pos_iff, h t o ho]
  split
  · rename_i ht
    exact ⟨fun _ => ht, fun _ => Nat.one_pos⟩
  · rename_i ht
    exact ⟨fun h => absurd h (Nat.lt_irrefl 0), fun h => absurd h ht⟩

theorem unlink (h : f.Mirrored base) (child : RegionId) : (f.unlink child).Mirrored base := by
  intro t o ho
  have hcount := h t o ho
  rw [inner_unlink, outer_unlink]
  by_cases ht : t = child
  · subst ht
    have hfree : ¬(base ≤ t ∧ none = some o) := fun h => nomatch h.2
    rw [if_pos rfl, if_neg hfree]
    split
    · exact List.count_eq_zero.mpr fun hmem => by simp at hmem
    · rename_i houter
      rw [hcount, if_neg fun h => houter h.2]
  · rw [if_neg ht, ← hcount]
    split
    · exact List.count_filter (by simpa using ht)
    · rfl

theorem link (h : f.Mirrored base) {child o : RegionId} (hbase : base ≤ child)
    (hchild : child < f.size) (ho : o < f.size) (hfree : (f.get child).outer = none) :
    (f.link child o).Mirrored base := by
  intro t x hx
  have hcount := h t x hx
  rw [inner_link ho, outer_link hchild]
  by_cases ht : t = child
  · subst ht
    rw [hfree, if_neg fun hnone => nomatch hnone.2] at hcount
    rw [if_pos rfl]
    by_cases hxo : x = o
    · subst hxo
      rw [if_pos rfl, if_pos ⟨hbase, rfl⟩, List.count_append, hcount, List.count_singleton_self]
    · rw [if_neg hxo, hcount, if_neg fun hsome => hxo (Option.some.inj hsome.2).symm]
  · rw [if_neg ht, ← hcount]
    split
    · rw [List.count_append, List.count_singleton]
      simp [Ne.symm ht]
    · rfl

end Mirrored

/-- Moves `child` to where `dest` says. -/
def place (dest : RegionId → Option RegionId) (f : Forest) (child : RegionId) : Forest :=
  match dest child with
  | none => f.unlink child
  | some o => (f.unlink child).link child o

theorem rehang_eq (f : Forest) (children : List RegionId) (outer : Option RegionId) :
    f.rehang children outer = children.foldl (place fun _ => outer) f := by
  cases outer <;> rfl

section Place

variable {dest : RegionId → Option RegionId} {child : RegionId}

theorem SameContent.place (dest : RegionId → Option RegionId) (f : Forest) (child : RegionId) :
    SameContent f (f.place dest child) := by
  unfold Forest.place
  split
  · exact .unlink f child
  · exact (SameContent.unlink f child).trans (.link _ child _)

theorem outer_place (hchild : child < f.size) (x : RegionId) :
    ((f.place dest child).get x).outer = if x = child then dest child else (f.get x).outer := by
  unfold place
  split
  · rename_i hdest
    rw [outer_unlink, hdest]
  · rename_i o hdest
    have hsize : child < (f.unlink child).size := (SameContent.unlink f child).size ▸ hchild
    rw [outer_link hsize, outer_unlink, hdest]
    split <;> rfl

theorem Mirrored.place (h : f.Mirrored base) (hbase : base ≤ child) (hchild : child < f.size)
    (hdest : ∀ o, dest child = some o → o < f.size) : (f.place dest child).Mirrored base := by
  unfold Forest.place
  split
  · exact h.unlink child
  · rename_i o ho
    have hsize := (SameContent.unlink f child).size
    refine (h.unlink child).link hbase (hsize ▸ hchild) (hsize ▸ hdest o ho) ?_
    rw [outer_unlink, if_pos rfl]

theorem outer_places {children : List RegionId} (h : ∀ c ∈ children, c < f.size) (x : RegionId) :
    ((children.foldl (place dest) f).get x).outer =
      if x ∈ children then dest x else (f.get x).outer := by
  induction children generalizing f with
  | nil => simp
  | cons c rest ih =>
    have hrest : ∀ y ∈ rest, y < (f.place dest c).size := fun y hy =>
      (SameContent.place dest f c).size ▸ h y (List.mem_cons_of_mem c hy)
    rw [List.foldl_cons, ih hrest, outer_place (h c List.mem_cons_self)]
    by_cases hx : x = c
    · subst hx
      simp
    · simp [hx]

theorem Mirrored.places (h : f.Mirrored base) {children : List RegionId}
    (hchildren : ∀ c ∈ children, base ≤ c ∧ c < f.size)
    (hdest : ∀ c ∈ children, ∀ o, dest c = some o → o < f.size) :
    (children.foldl (Forest.place dest) f).Mirrored base := by
  induction children generalizing f with
  | nil => exact h
  | cons c rest ih =>
    obtain ⟨hbase, hlt⟩ := hchildren c List.mem_cons_self
    have hsize := (SameContent.place dest f c).size
    refine ih (h.place hbase hlt (hdest c List.mem_cons_self)) (fun y hy => ?_) fun y hy o ho => ?_
    · exact hsize ▸ hchildren y (List.mem_cons_of_mem c hy)
    · exact hsize ▸ hdest y (List.mem_cons_of_mem c hy) o ho

end Place

/-- The listed regions are nested among themselves: no other region takes part, no region is around
itself, and both records of the nesting agree. -/
structure Nested (base : Nat) (f : Forest) (regions : List RegionId) : Prop where
  nodup : regions.Nodup
  bounds : ∀ r ∈ regions, base ≤ r ∧ r < f.size
  listed : ∀ t o, base ≤ t → f.Under t o → t ∈ regions ∧ o ∈ regions
  acyclic : ∀ r, base ≤ r → ¬TransGen f.Under r r
  mirrored : f.Mirrored base

/-- Edges that only lead into a set closed under the old ones make no new way back: a way that does
not enter the set was there before. -/
theorem transGen_of_closed {α : Type} {R R' : α → α → Prop} {D U : α → Prop}
    (hD : ∀ a b, D a → R' a b → D b) (hnew : ∀ a b, D a → R' a b → R a b ∨ ¬U a ∧ U b)
    (hup : ∀ a b, U a → R a b → U b) {a b : α} (h : TransGen R' a b) :
    D a → (U a → U b) ∧ ((U b → U a) → TransGen R a b) := by
  induction h using TransGen.head_induction_on with
  | single hab =>
    intro ha
    rcases hnew _ _ ha hab with hold | ⟨hna, hb⟩
    · exact ⟨fun h => hup _ _ h hold, fun _ => .single hold⟩
    · exact ⟨fun h => absurd h hna, fun h => absurd (h hb) hna⟩
  | head hac _ ih =>
    intro ha
    obtain ⟨hkeep, hway⟩ := ih (hD _ _ ha hac)
    rcases hnew _ _ ha hac with hold | ⟨hna, hc⟩
    · refine ⟨fun h => hkeep (hup _ _ h hold), fun h => ?_⟩
      exact .head hold (hway fun hb => hup _ _ (h hb) hold)
    · exact ⟨fun h => absurd h hna, fun h => absurd (h (hkeep hc)) hna⟩

section Outwards

theorem isChain_outwards (f : Forest) (fuel : Nat) (r : RegionId) :
    List.IsChain f.Under (r :: f.outwards fuel (f.get r).outer) := by
  induction fuel generalizing r with
  | zero => exact .singleton r
  | succ fuel ih =>
    cases ho : (f.get r).outer with
    | none => exact .singleton r
    | some o => exact .cons_cons ho (ih o)

/-- What a walk outwards meets lies around the region where it starts. -/
theorem transGen_of_mem_outwards {fuel : Nat} {r x : RegionId}
    (h : x ∈ f.outwards fuel (f.get r).outer) : TransGen f.Under r x := by
  have hchain : List.IsChain (TransGen f.Under) (r :: f.outwards fuel (f.get r).outer) :=
    (f.isChain_outwards fuel r).imp fun _ _ => .single
  exact (List.pairwise_cons.mp hchain.pairwise).1 x h

/-- A walk outwards that ends before its fuel does meets everything around the region. -/
theorem mem_outwards_of_length_lt {fuel : Nat} {r x : RegionId}
    (hfuel : (f.outwards fuel (f.get r).outer).length < fuel) (h : TransGen f.Under r x) :
    x ∈ f.outwards fuel (f.get r).outer := by
  induction fuel generalizing r with
  | zero => exact absurd hfuel (Nat.not_lt_zero _)
  | succ fuel ih =>
    obtain ⟨o, ho, hrest⟩ := TransGen.head'_iff.mp h
    rw [ho, outwards] at hfuel ⊢
    rw [List.length_cons] at hfuel
    rcases (reflTransGen_iff_eq_or_transGen.mp hrest) with rfl | hrest
    · exact List.mem_cons_self
    · exact List.mem_cons_of_mem _ (ih (Nat.lt_of_succ_lt_succ hfuel) hrest)

/-- A walk outwards meets no region twice where none lies around itself. -/
theorem nodup_outwards {r : RegionId}
    (hacyclic : ∀ x, ReflTransGen f.Under r x → ¬TransGen f.Under x x) (fuel : Nat) :
    (r :: f.outwards fuel (f.get r).outer).Nodup := by
  have hchain : List.IsChain (TransGen f.Under) (r :: f.outwards fuel (f.get r).outer) :=
    (f.isChain_outwards fuel r).imp fun _ _ => .single
  refine hchain.pairwise.imp_of_mem fun {a b} ha _ hab => ?_
  rintro rfl
  refine hacyclic a ?_ hab
  rcases List.mem_cons.mp ha with rfl | ha
  · exact .refl
  · exact (transGen_of_mem_outwards ha).to_reflTransGen

/-- The forest is as deep as it has regions at most, so a walk with that much fuel sees everything
around a region. -/
theorem hasAncestor_iff_transGen {r o : RegionId} (hlt : ∀ x, TransGen f.Under r x → x < f.size)
    (hacyclic : ∀ x, ReflTransGen f.Under r x → ¬TransGen f.Under x x) :
    f.hasAncestor r o = true ↔ TransGen f.Under r o := by
  unfold hasAncestor
  rw [decide_eq_true_iff]
  refine ⟨transGen_of_mem_outwards, fun hro => mem_outwards_of_length_lt ?_ hro⟩
  have hrange : ∀ x ∈ r :: f.outwards f.size (f.get r).outer, x ∈ List.range f.size := by
    intro x hx
    refine List.mem_range.mpr ?_
    rcases List.mem_cons.mp hx with rfl | hx
    · obtain ⟨y, hxy, -⟩ := TransGen.head'_iff.mp hro
      exact hxy.lt
    · exact hlt x (transGen_of_mem_outwards hx)
  have hlength := ((nodup_outwards hacyclic f.size).subperm hrange).length_le
  rwa [List.length_range] at hlength

/-- The walk outwards from a region ends after `n` links. -/
inductive Ends (f : Forest) : Nat → RegionId → Prop where
  | here {r} (hnone : (f.get r).outer = none) : Ends f 0 r
  | up {n r o} (hlink : f.Under r o) (hrest : Ends f n o) : Ends f (n + 1) r

theorem ends_of_length_lt {fuel : Nat} {r : RegionId}
    (hfuel : (f.outwards fuel (f.get r).outer).length < fuel) :
    f.Ends (f.outwards fuel (f.get r).outer).length r := by
  induction fuel generalizing r with
  | zero => exact absurd hfuel (Nat.not_lt_zero _)
  | succ fuel ih =>
    cases ho : (f.get r).outer with
    | none => exact .here ho
    | some o =>
      rw [ho, outwards, List.length_cons] at hfuel
      exact .up ho (ih (Nat.lt_of_succ_lt_succ hfuel))

/-- Where a walk ends depends on the links alone. -/
theorem Ends.of_under {n : Nat} {r : RegionId} (h : f.Ends n r) (hunder : f'.Under = f.Under) :
    f'.Ends n r := by
  induction h with
  | here hnone =>
    refine .here (Option.eq_none_iff_forall_ne_some.mpr fun o ho => ?_)
    have hlink : f'.Under _ o := ho
    rw [hunder] at hlink
    cases hnone.symm.trans hlink
  | up hlink _ ih => exact .up (hunder ▸ hlink) ih

end Outwards

/-- Regions lie under regions of the forest, and none under itself. -/
structure WellFormed (f : Forest) : Prop where
  outer_lt : ∀ r o, f.Under r o → o < f.size
  acyclic : ∀ r, ¬TransGen f.Under r r

/-- Regions that lie under earlier ones only. -/
theorem WellFormed.of_earlier (h : ∀ r o, f.Under r o → o < r) : f.WellFormed where
  outer_lt r o hro := Nat.lt_trans (h r o hro) hro.lt
  acyclic r hr := by
    have hlt : ∀ o, TransGen f.Under r o → o < r := by
      intro o hro
      induction hro with
      | single hro => exact h _ _ hro
      | tail _ hbc ih => exact Nat.lt_trans (h _ _ hbc) ih
    exact Nat.lt_irrefl r (hlt r hr)

theorem WellFormed.hasAncestor_iff (h : f.WellFormed) {r o : RegionId} :
    f.hasAncestor r o = true ↔ TransGen f.Under r o := by
  refine hasAncestor_iff_transGen (fun x hrx => ?_) fun x _ => h.acyclic x
  obtain ⟨y, -, hyx⟩ := TransGen.tail'_iff.mp hrx
  exact h.outer_lt y x hyx

theorem WellFormed.sameNesting (h : f.WellFormed) (same : f.SameNesting f') : f'.WellFormed where
  outer_lt := same.under ▸ same.size ▸ h.outer_lt
  acyclic := same.under ▸ h.acyclic

namespace Nested

theorem mem_of_transGen (h : Nested base f regions) {r o : RegionId} (hr : base ≤ r)
    (hro : TransGen f.Under r o) : r ∈ regions ∧ o ∈ regions := by
  induction hro with
  | single hro => exact h.listed _ _ hr hro
  | tail _ hbc ih => exact ⟨ih.1, (h.listed _ _ (h.bounds _ ih.2).1 hbc).2⟩

/-- All that lies around a listed region is listed. -/
theorem mem_of_mem_chain (h : Nested base f regions) {r o : RegionId} (hr : r ∈ regions)
    (ho : o ∈ f.chain r) : o ∈ regions := by
  rw [chain, outwards] at ho
  rcases List.mem_cons.mp ho with rfl | ho
  · exact hr
  · exact (h.mem_of_transGen (h.bounds r hr).1 (transGen_of_mem_outwards ho)).2

theorem acyclic_from (h : Nested base f regions) {r : RegionId} (hr : base ≤ r) :
    ∀ x, ReflTransGen f.Under r x → ¬TransGen f.Under x x := by
  intro x hrx
  rcases reflTransGen_iff_eq_or_transGen.mp hrx with rfl | hrx
  · exact h.acyclic _ hr
  · exact h.acyclic x (h.bounds x (h.mem_of_transGen hr hrx).2).1

theorem hasAncestor_iff (h : Nested base f regions) {r o : RegionId} (hr : base ≤ r) :
    f.hasAncestor r o = true ↔ TransGen f.Under r o :=
  hasAncestor_iff_transGen (fun x hrx => (h.bounds x (h.mem_of_transGen hr hrx).2).2)
    (h.acyclic_from hr)

/-- A walk outwards from a listed region ends: there are not more regions to meet. -/
theorem ends (h : Nested base f regions) {r : RegionId} (hr : r ∈ regions) :
    ∃ n < regions.length, f.Ends n r := by
  have hbase := (h.bounds r hr).1
  have hlisted : r :: f.outwards regions.length (f.get r).outer ⊆ regions := by
    intro x hx
    rcases List.mem_cons.mp hx with rfl | hx
    · exact hr
    · exact (h.mem_of_transGen hbase (transGen_of_mem_outwards hx)).2
  have hnodup := nodup_outwards (h.acyclic_from hbase) regions.length
  have hlength := (hnodup.subperm hlisted).length_le
  exact ⟨_, hlength, ends_of_length_lt hlength⟩

theorem mem_chain_iff (h : Nested base f regions) {r o : RegionId} (hr : r ∈ regions) :
    o ∈ f.chain r ↔ ReflTransGen f.Under r o := by
  rw [reflTransGen_iff_eq_or_transGen, ← h.hasAncestor_iff (h.bounds r hr).1, hasAncestor,
    decide_eq_true_iff, chain, outwards, List.mem_cons]

/-- What regions hold besides the nesting does not matter. -/
theorem sameNesting (h : Nested base f regions) (same : f.SameNesting f') :
    Nested base f' regions := by
  constructor
  case nodup => exact h.nodup
  case bounds => exact same.size ▸ h.bounds
  case listed => exact same.under ▸ h.listed
  case acyclic => exact same.under ▸ h.acyclic
  case mirrored =>
    intro t o ho
    rw [same.inner, same.outer]
    exact h.mirrored t o ho

/-- A forest that is yet to grow. -/
theorem nil (f : Forest) : Nested f.size f [] := by
  have hnone : ∀ t o, f.size ≤ t → ¬f.Under t o := fun t o ht hto => Nat.not_le_of_lt hto.lt ht
  constructor
  case nodup => exact List.nodup_nil
  case bounds => exact fun r hr => absurd hr List.not_mem_nil
  case listed => exact fun t o ht hto => absurd hto (hnone t o ht)
  case acyclic =>
    intro r hr hcycle
    obtain ⟨o, ho, -⟩ := TransGen.head'_iff.mp hcycle
    exact hnone r o hr ho
  case mirrored =>
    intro t o ho
    rw [get_of_size_le ho, if_neg fun h => hnone t o h.1 h.2]
    rfl

/-- A new region stands for itself. -/
theorem push (h : Nested base f regions) (hbase : base ≤ f.size) {region : Region}
    (houter : region.outer = none) (hinner : region.inner = []) :
    Nested base (f.push region) (regions ++ [f.size]) := by
  have hunder := under_push f houter
  constructor
  case nodup =>
    refine List.nodup_append.mpr ⟨h.nodup, by simp, fun a ha b hb => ?_⟩
    rw [List.mem_singleton.mp hb]
    exact Nat.ne_of_lt (h.bounds a ha).2
  case bounds =>
    intro r hr
    rw [size_push]
    rcases List.mem_append.mp hr with hr | hr
    · exact ⟨(h.bounds r hr).1, Nat.lt_succ_of_lt (h.bounds r hr).2⟩
    · rw [List.mem_singleton.mp hr]
      exact ⟨hbase, Nat.lt_succ_self _⟩
  case listed =>
    intro t o ht hto
    obtain ⟨hmem, hmem'⟩ := h.listed t o ht (hunder ▸ hto)
    exact ⟨List.mem_append_left _ hmem, List.mem_append_left _ hmem'⟩
  case acyclic => exact hunder ▸ h.acyclic
  case mirrored =>
    intro t o ho
    rw [outer_push f houter, get_push]
    split
    · rename_i hsize
      subst hsize
      rw [hinner, List.count_nil, if_neg]
      rintro ⟨ht, hto⟩
      exact Nat.lt_irrefl _ (h.bounds _ (h.listed t _ ht hto).2).2
    · exact h.mirrored t o ho

/-- What a listed region encloses. -/
theorem of_mem_inner (h : Nested base f regions) {inner c : RegionId} (hi : inner ∈ regions)
    (hc : c ∈ (f.get inner).inner) : base ≤ c ∧ f.Under c inner :=
  (h.mirrored.mem_inner (h.bounds inner hi).1).mp hc

/-- A link after what a region encloses went under another one. -/
theorem under_rehang (h : Nested base f regions) {outer inner t o : RegionId}
    (hi : inner ∈ regions) (ht : base ≤ t)
    (hto : (f.rehang (f.get inner).inner (some outer)).Under t o) :
    f.Under t o ∧ o ≠ inner ∨ f.Under t inner ∧ o = outer := by
  rw [Under, rehang_eq, outer_places fun c hc => (h.of_mem_inner hi hc).2.lt] at hto
  split at hto
  · rename_i hmem
    exact Or.inr ⟨(h.of_mem_inner hi hmem).2, (Option.some.inj hto).symm⟩
  · rename_i hmem
    refine Or.inl ⟨hto, ?_⟩
    rintro rfl
    exact hmem ((h.mirrored.mem_inner (h.bounds o hi).1).mpr ⟨ht, hto⟩)

/-- A region without one around it goes under another that does not lie under it. -/
theorem nest (h : Nested base f regions) {outer inner : RegionId} (ho : outer ∈ regions)
    (hi : inner ∈ regions) (hne : outer ≠ inner) (hfree : (f.get inner).outer = none)
    (hbelow : ¬TransGen f.Under outer inner) : Nested base (f.link inner outer) regions := by
  obtain ⟨hibase, hilt⟩ := h.bounds inner hi
  have hsize := (SameContent.link f inner outer).size
  have hunder : ∀ t o, (f.link inner outer).Under t o → f.Under t o ∨ t = inner ∧ o = outer :=
    fun t o => under_link hilt
  have hlisted : ∀ t o, base ≤ t → (f.link inner outer).Under t o → t ∈ regions ∧ o ∈ regions := by
    intro t o ht hto
    rcases hunder t o hto with hto | ⟨rfl, rfl⟩
    · exact h.listed t o ht hto
    · exact ⟨hi, ho⟩
  constructor
  case nodup => exact h.nodup
  case bounds => exact hsize ▸ h.bounds
  case listed => exact hlisted
  case mirrored => exact h.mirrored.link hibase hilt (h.bounds outer ho).2 hfree
  case acyclic =>
    intro r hr hcycle
    refine h.acyclic r hr ((transGen_of_closed (U := ReflTransGen f.Under outer)
      (fun a b ha hab => ?_) (fun a b ha hab => ?_) (fun a b ha hab => ha.tail hab) hcycle hr).2 id)
    · exact (h.bounds b (hlisted a b ha hab).2).1
    · rcases hunder a b hab with hab | ⟨rfl, rfl⟩
      · exact Or.inl hab
      · refine Or.inr ⟨fun hup => ?_, .refl⟩
        rcases reflTransGen_iff_eq_or_transGen.mp hup with heq | hup
        · exact hne heq.symm
        · exact hbelow hup

/-- A region leaves the list; what it encloses goes under another one, which does not lie under
it. -/
theorem absorb (h : Nested base f regions) {outer inner : RegionId} (ho : outer ∈ regions)
    (hi : inner ∈ regions) (hne : outer ≠ inner) (hfree : (f.get inner).outer = none)
    (hbelow : ¬TransGen f.Under outer inner) :
    Nested base (f.rehang (f.get inner).inner (some outer)) (regions.filter (· ≠ inner)) := by
  have hsize := (SameContent.rehang f (f.get inner).inner (some outer)).size
  have hunder : ∀ t o, base ≤ t → (f.rehang (f.get inner).inner (some outer)).Under t o →
      f.Under t o ∧ o ≠ inner ∨ f.Under t inner ∧ o = outer := fun t o => h.under_rehang hi
  have hstays : ∀ r, r ∈ regions.filter (· ≠ inner) ↔ r ∈ regions ∧ r ≠ inner := by simp
  have hlisted : ∀ t o, base ≤ t → (f.rehang (f.get inner).inner (some outer)).Under t o →
      t ∈ regions.filter (· ≠ inner) ∧ o ∈ regions.filter (· ≠ inner) := by
    intro t o ht hto
    have hnot : ∀ {x}, f.Under t x → t ≠ inner := by
      rintro x htx rfl
      rw [Under, hfree] at htx
      cases htx
    rw [hstays, hstays]
    rcases hunder t o ht hto with ⟨hto, hoi⟩ | ⟨hti, rfl⟩
    · obtain ⟨hmem, hmem'⟩ := h.listed t o ht hto
      exact ⟨⟨hmem, hnot hto⟩, hmem', hoi⟩
    · exact ⟨⟨(h.listed t inner ht hti).1, hnot hti⟩, ho, hne⟩
  constructor
  case nodup => exact h.nodup.filter _
  case bounds => exact fun r hr => hsize ▸ h.bounds r ((hstays r).mp hr).1
  case listed => exact hlisted
  case mirrored =>
    rw [rehang_eq]
    refine h.mirrored.places (fun c hc => ?_) fun c _ o ho' => ?_
    · obtain ⟨hbase, hunder⟩ := h.of_mem_inner hi hc
      exact ⟨hbase, hunder.lt⟩
    · rw [← Option.some.inj ho']
      exact (h.bounds outer ho).2
  case acyclic =>
    intro r hr hcycle
    refine h.acyclic r hr ((transGen_of_closed (D := fun a => base ≤ a)
      (U := ReflTransGen f.Under outer) (fun a b ha hab => ?_) (fun a b ha hab => ?_)
      (fun a b ha hab => ha.tail hab) hcycle hr).2 id)
    · exact (h.bounds b ((hstays b).mp (hlisted a b ha hab).2).1).1
    · rcases hunder a b ha hab with ⟨hab, -⟩ | ⟨hai, rfl⟩
      · exact Or.inl hab
      · exact Or.inr ⟨fun hup => hbelow (TransGen.tail' hup hai), .refl⟩

/-- A link after a region left: it was there before, or it leads past that region. -/
theorem under_drop (h : Nested base f regions) {r t o : RegionId} (hr : r ∈ regions)
    (ht : base ≤ t)
    (hto : ((f.unlink r).rehang ((f.unlink r).get r).inner (f.get r).outer).Under t o) :
    t ≠ r ∧ (f.Under t o ∧ o ≠ r ∨ f.Under t r ∧ f.Under r o) := by
  have hmem : ∀ t, t ∈ ((f.unlink r).get r).inner ↔ base ≤ t ∧ (f.unlink r).Under t r := fun t =>
    (h.mirrored.unlink r).mem_inner (h.bounds r hr).1
  have hold : ∀ t o, (f.unlink r).Under t o ↔ t ≠ r ∧ f.Under t o := by
    intro t o
    rw [Under, outer_unlink]
    by_cases ht : t = r
    · simp [ht]
    · simp [ht, Under]
  rw [Under, rehang_eq, outer_places fun c hc => ((hmem c).mp hc).2.lt] at hto
  split at hto
  · rename_i hmem'
    obtain ⟨htr, htr'⟩ := (hold t r).mp ((hmem t).mp hmem').2
    exact ⟨htr, Or.inr ⟨htr', hto⟩⟩
  · rename_i hmem'
    obtain ⟨htr, htr'⟩ := (hold t o).mp hto
    refine ⟨htr, Or.inl ⟨htr', ?_⟩⟩
    rintro rfl
    exact hmem' ((hmem t).mpr ⟨ht, hto⟩)

/-- A region leaves the list; what it encloses goes to the one around it. -/
theorem drop (h : Nested base f regions) {r : RegionId} (hr : r ∈ regions) :
    Nested base ((f.unlink r).rehang ((f.unlink r).get r).inner (f.get r).outer)
      (regions.filter (· ≠ r)) := by
  have hrbase := (h.bounds r hr).1
  have hsize : (f.unlink r).size = f.size := (SameContent.unlink f r).size
  have hchildren : ∀ c ∈ ((f.unlink r).get r).inner, base ≤ c ∧ c < (f.unlink r).size := by
    intro c hc
    obtain ⟨hbase, hunder⟩ := ((h.mirrored.unlink r).mem_inner hrbase).mp hc
    exact ⟨hbase, hunder.lt⟩
  have hunder : ∀ t o, base ≤ t →
      ((f.unlink r).rehang ((f.unlink r).get r).inner (f.get r).outer).Under t o →
      t ≠ r ∧ (f.Under t o ∧ o ≠ r ∨ f.Under t r ∧ f.Under r o) := fun t o => h.under_drop hr
  have hstays : ∀ q, q ∈ regions.filter (· ≠ r) ↔ q ∈ regions ∧ q ≠ r := by simp
  constructor
  case nodup => exact h.nodup.filter _
  case bounds =>
    intro q hq
    rw [(SameContent.rehang _ _ _).size, hsize]
    exact h.bounds q ((hstays q).mp hq).1
  case listed =>
    intro t o ht hto
    obtain ⟨htr, ⟨hto, hor⟩ | ⟨htr', hro⟩⟩ := hunder t o ht hto
    · rw [hstays, hstays]
      obtain ⟨hmem, hmem'⟩ := h.listed t o ht hto
      exact ⟨⟨hmem, htr⟩, hmem', hor⟩
    · rw [hstays, hstays]
      refine ⟨⟨(h.listed t r ht htr').1, htr⟩, (h.listed r o hrbase hro).2, ?_⟩
      rintro rfl
      exact h.acyclic o hrbase (.single hro)
  case mirrored =>
    rw [rehang_eq]
    refine (h.mirrored.unlink r).places hchildren fun c _ o ho => ?_
    rw [hsize]
    exact (h.bounds o (h.listed r o hrbase ho).2).2
  case acyclic =>
    -- Every new link shortens a way that was there.
    intro q hq hcycle
    have hway : ∀ {a}, TransGen ((f.unlink r).rehang ((f.unlink r).get r).inner
        (f.get r).outer).Under q a → TransGen f.Under q a := by
      intro a ha
      induction ha with
      | single hqa =>
        obtain ⟨-, ⟨hqa, -⟩ | ⟨hqr, hra⟩⟩ := hunder _ _ hq hqa
        · exact .single hqa
        · exact .tail (.single hqr) hra
      | tail _ hbc ih =>
        have hb := (h.bounds _ (h.mem_of_transGen hq ih).2).1
        obtain ⟨-, ⟨hbc, -⟩ | ⟨hbr, hrc⟩⟩ := hunder _ _ hb hbc
        · exact ih.tail hbc
        · exact (ih.tail hbr).tail hrc
    exact h.acyclic q hq (hway hcycle)

end Nested

end TryRegions.Forest
