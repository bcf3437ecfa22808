/-! Sorting by a strict order given as a test. Elements that the test does not tell apart keep
their order. -/

namespace TryRegions

variable {α : Type}

/-- Puts `x` before the first element that is not less than it. -/
def insertBy (lt : α → α → Bool) (x : α) : List α → List α
  | [] => [x]
  | y :: ys => if lt y x then y :: insertBy lt x ys else x :: y :: ys

def sortBy (lt : α → α → Bool) (xs : List α) : List α := xs.foldr (insertBy lt) []

/-- The first of the elements of `x :: xs` that no other one is less than, read from the left: a
later element replaces the one held only if it is less. -/
def leastBy (lt : α → α → Bool) (x : α) (xs : List α) : α :=
  xs.foldl (fun held y => if lt y held then y else held) x

theorem insertBy_perm (lt : α → α → Bool) (x : α) (xs : List α) :
    (insertBy lt x xs).Perm (x :: xs) := by
  induction xs with
  | nil => exact .refl _
  | cons y ys ih =>
    rw [insertBy]
    split
    · exact (ih.cons y).trans (.swap x y ys)
    · exact .refl _

theorem sortBy_perm (lt : α → α → Bool) (xs : List α) : (sortBy lt xs).Perm xs := by
  induction xs with
  | nil => exact .refl _
  | cons x xs ih => exact (insertBy_perm lt x (sortBy lt xs)).trans (ih.cons x)

section Sorted

variable {lt : α → α → Bool} (hasymm : ∀ a b, lt a b = true → lt b a = false)
  (hover : ∀ a b c, lt b a = false → lt c b = false → lt c a = false)

include hasymm hover

theorem pairwise_insertBy (x : α) {ys : List α} (hys : ys.Pairwise fun a b => lt b a = false) :
    (insertBy lt x ys).Pairwise fun a b => lt b a = false := by
  induction ys with
  | nil => exact List.pairwise_singleton _ x
  | cons y ys ih =>
    obtain ⟨hy, hys'⟩ := List.pairwise_cons.mp hys
    rw [insertBy]
    split
    · rename_i hlt
      refine List.pairwise_cons.mpr ⟨fun z hz => ?_, ih hys'⟩
      rcases List.mem_cons.mp ((insertBy_perm lt x ys).mem_iff.mp hz) with rfl | hz
      · exact hasymm y z hlt
      · exact hy z hz
    · rename_i hnot
      have hyx : lt y x = false := Bool.eq_false_iff.mpr hnot
      refine List.pairwise_cons.mpr ⟨fun z hz => ?_, hys⟩
      rcases List.mem_cons.mp hz with rfl | hz
      · exact hyx
      · exact hover x y z hyx (hy z hz)

/-- No element of a sorted list is less than one in front of it. -/
theorem pairwise_sortBy (xs : List α) : (sortBy lt xs).Pairwise fun a b => lt b a = false := by
  induction xs with
  | nil => exact .nil
  | cons x xs ih => exact pairwise_insertBy hasymm hover x ih

/-- Elements that the order tells apart have one sorted list. -/
theorem sortBy_eq_of_perm {xs ys : List α} (hperm : xs.Perm ys)
    (happart : ∀ a ∈ xs, ∀ b ∈ xs, lt a b = false → lt b a = false → a = b) :
    sortBy lt xs = sortBy lt ys := by
  refine List.Perm.eq_of_pairwise (fun a b ha hb hba hab => ?_) (pairwise_sortBy hasymm hover xs)
    (pairwise_sortBy hasymm hover ys)
    (((sortBy_perm lt xs).trans hperm).trans (sortBy_perm lt ys).symm)
  have ha := (sortBy_perm lt xs).mem_iff.mp ha
  have hb := hperm.mem_iff.mpr ((sortBy_perm lt ys).mem_iff.mp hb)
  exact happart a ha b hb hab hba

end Sorted

theorem leastBy_mem (lt : α → α → Bool) (x : α) (xs : List α) : leastBy lt x xs ∈ x :: xs := by
  induction xs generalizing x with
  | nil => simp [leastBy]
  | cons y ys ih =>
    have h := ih (if lt y x then y else x)
    rw [leastBy, List.foldl_cons]
    rw [leastBy] at h
    split at h
    · rename_i e
      rw [if_pos e]
      simp only [List.mem_cons] at h ⊢
      exact Or.inr h
    · rename_i e
      rw [if_neg e]
      simp only [List.mem_cons] at h ⊢
      exact h.elim Or.inl fun m => Or.inr (Or.inr m)

section Least

variable {lt : α → α → Bool} (hirrefl : ∀ a, lt a a = false)
  (htrans : ∀ a b c, lt a b = true → lt b c = true → lt a c = true)

include htrans in
/-- What is not less than the element held at first is not less than the one found. -/
theorem leastBy_keeps {x y : α} (xs : List α) (hy : lt y x = false) :
    lt y (leastBy lt x xs) = false := by
  induction xs generalizing x with
  | nil => exact hy
  | cons z zs ih =>
    refine ih (x := if lt z x then z else x) ?_
    split
    · rename_i hz
      refine Bool.eq_false_iff.mpr fun hlt => ?_
      rw [htrans y z x hlt hz] at hy
      cases hy
    · exact hy

include hirrefl htrans in
/-- No element is less than the one found. -/
theorem leastBy_least (x : α) (xs : List α) : ∀ y ∈ x :: xs, lt y (leastBy lt x xs) = false := by
  induction xs generalizing x with
  | nil =>
    intro y hy
    rw [List.mem_singleton.mp hy]
    exact hirrefl x
  | cons z zs ih =>
    intro y hy
    rcases List.mem_cons.mp hy with rfl | hy
    · exact leastBy_keeps htrans (z :: zs) (hirrefl y)
    rcases List.mem_cons.mp hy with rfl | hy
    · refine leastBy_keeps htrans zs (x := if lt y x then y else x) ?_
      split
      · exact hirrefl y
      · rename_i hz
        exact Bool.eq_false_iff.mpr hz
    · exact ih (if lt z x then z else x) y (List.mem_cons_of_mem _ hy)

theorem leastBy_eq_self {x : α} {xs : List α} (hleast : ∀ y ∈ xs, lt y x = false) :
    leastBy lt x xs = x := by
  induction xs with
  | nil => rfl
  | cons y ys ih =>
    have hy : ¬lt y x = true := Bool.eq_false_iff.mp (hleast y List.mem_cons_self)
    rw [leastBy, List.foldl_cons, if_neg hy]
    exact ih fun z hz => hleast z (List.mem_cons_of_mem _ hz)

include htrans in
/-- What stands in front of the least element found is greater, if what is not less than an element
is greater than all that is less than it. -/
theorem leastBy_split (hover : ∀ a b c, lt a b = true → lt c b = false → lt a c = true) (x : α)
    (xs : List α) : ∃ pre post, x :: xs = pre ++ leastBy lt x xs :: post ∧
    ∀ y ∈ pre, lt (leastBy lt x xs) y = true := by
  induction xs generalizing x with
  | nil => exact ⟨[], [], rfl, by simp⟩
  | cons z zs ih =>
    by_cases hz : lt z x = true
    · have hleast : leastBy lt x (z :: zs) = leastBy lt z zs := by simp [leastBy, hz]
      obtain ⟨pre, post, hsplit, hpre⟩ := ih z
      rw [hleast]
      refine ⟨x :: pre, post, by rw [List.cons_append, ← hsplit], fun y hy => ?_⟩
      rcases List.mem_cons.mp hy with rfl | hy
      · cases pre with
        | nil =>
          rw [← (List.cons_eq_cons.mp hsplit).1]
          exact hz
        | cons w ws =>
          obtain ⟨rfl, -⟩ := List.cons_eq_cons.mp hsplit
          exact htrans _ _ _ (hpre z List.mem_cons_self) hz
      · exact hpre y hy
    · have hleast : leastBy lt x (z :: zs) = leastBy lt x zs := by simp [leastBy, hz]
      obtain ⟨pre, post, hsplit, hpre⟩ := ih x
      rw [hleast]
      cases pre with
      | nil =>
        refine ⟨[], z :: zs, ?_, by simp⟩
        rw [← (List.cons_eq_cons.mp hsplit).1]
        rfl
      | cons w ws =>
        obtain ⟨rfl, hzs⟩ := List.cons_eq_cons.mp hsplit
        refine ⟨x :: z :: ws, post, congrArg (fun l => x :: z :: l) hzs, fun y hy => ?_⟩
        have hx := hpre x List.mem_cons_self
        rcases List.mem_cons.mp hy with rfl | hy
        · exact hx
        rcases List.mem_cons.mp hy with rfl | hy
        · exact hover _ _ _ hx (Bool.eq_false_iff.mpr hz)
        · exact hpre y (List.mem_cons_of_mem _ hy)

end Least

end TryRegions
