/-! Lists without repetition, grown at the end: an element enters once and keeps its place. -/

namespace TryRegions

variable {α : Type} [DecidableEq α]

/-- Adds `x` at the end of `xs` unless it is there already. -/
def insertNew (xs : List α) (x : α) : List α := if x ∈ xs then xs else xs ++ [x]

/-- Adds at the end of `xs` the elements of `ys` that are not there yet, each once, in order. -/
def appendNew (xs ys : List α) : List α := ys.foldl insertNew xs

/-- The two lists have the same elements, whatever their order and repetitions. -/
def sameElements (xs ys : List α) : Bool :=
  xs.all (fun x => decide (x ∈ ys)) && ys.all (fun y => decide (y ∈ xs))

@[simp] theorem mem_insertNew {xs : List α} {x y : α} : y ∈ insertNew xs x ↔ y ∈ xs ∨ y = x := by
  unfold insertNew
  split
  · exact ⟨Or.inl, fun h => h.elim id fun e => by rwa [e]⟩
  · simp

theorem nodup_insertNew {xs : List α} (h : xs.Nodup) (x : α) : (insertNew xs x).Nodup := by
  unfold insertNew
  split
  · exact h
  · rename_i hx
    rw [List.nodup_append]
    refine ⟨h, by simp, fun a ha b hb e => hx ?_⟩
    rw [List.mem_singleton] at hb
    rwa [← hb, ← e]

@[simp] theorem mem_appendNew {xs ys : List α} {y : α} :
    y ∈ appendNew xs ys ↔ y ∈ xs ∨ y ∈ ys := by
  induction ys generalizing xs with
  | nil => simp [appendNew]
  | cons a as ih =>
    have h : appendNew xs (a :: as) = appendNew (insertNew xs a) as := rfl
    rw [h, ih, mem_insertNew, List.mem_cons]
    exact or_assoc

theorem nodup_appendNew {xs : List α} (h : xs.Nodup) (ys : List α) : (appendNew xs ys).Nodup := by
  induction ys generalizing xs with
  | nil => exact h
  | cons a as ih => exact ih (nodup_insertNew h a)

@[simp] theorem sameElements_iff {xs ys : List α} :
    sameElements xs ys = true ↔ ∀ x, x ∈ xs ↔ x ∈ ys := by
  simp only [sameElements, Bool.and_eq_true, List.all_eq_true, decide_eq_true_eq]
  exact ⟨fun h x => ⟨h.1 x, h.2 x⟩, fun h => ⟨fun x => (h x).1, fun x => (h x).2⟩⟩

end TryRegions
