import TryRegions.Proofs.ClauseOrder

/-! Catch order does not depend on the order in which the clauses are given, except that those which
catch everything stay as they were. Where numbers tell the clauses apart, just one of those that
are left can be placed next. Clauses in catch order are not moved again, whatever their numbers. -/

namespace TryRegions

namespace ClauseOrder

variable {α : Type} (types : TypeHierarchy) (info : α → Handler)

/-- Different numbers tell the clauses apart. -/
def Numbered (clauses : List α) : Prop := (clauses.map fun a => (info a).number).Nodup

instance (clauses : List α) : Decidable (Numbered info clauses) :=
  inferInstanceAs (Decidable (List.Nodup _))

section Choice

variable {types info} {x y : α} {xs ys : List α}

theorem Numbered.sublist {clauses clauses' : List α} (h : Numbered info clauses)
    (hsub : clauses'.Sublist clauses) : Numbered info clauses' :=
  List.Nodup.sublist (hsub.map _) h

variable [DecidableEq α]

theorem choice_of_perm (hnumbered : Numbered info (x :: xs)) (hperm : (x :: xs).Perm (y :: ys)) :
    choice types info x xs = choice types info y ys := by
  obtain ⟨ha, hleast⟩ := choice_spec types info x xs
  obtain ⟨hb, hleast'⟩ := choice_spec types info y ys
  generalize choice types info x xs = a at ha hleast ⊢
  generalize choice types info y ys = b at hb hleast' ⊢
  have hb' : b ∈ x :: xs := hperm.mem_iff.mpr hb
  have hba := hleast b hb'
  have hab := hleast' a (hperm.mem_iff.mp ha)
  rw [← isReady_perm types info hperm, ← isReady_perm types info hperm] at hab
  rcases @before_trichotomy α info (a, isReady types info (x :: xs) a)
    (b, isReady types info (x :: xs) b) with h | h | ⟨-, -, hnumber⟩
  · exact absurd h (Bool.eq_false_iff.mp hab)
  · exact absurd h (Bool.eq_false_iff.mp hba)
  · exact List.inj_on_of_nodup_map hnumbered ha hb' hnumber

/-- The clause that was placed first is placed first again. -/
theorem choice_arrange {rest : List α} (hperm : (choice types info x xs :: rest).Perm (x :: xs)) :
    choice types info (choice types info x xs) rest = choice types info x xs := by
  obtain ⟨-, hleast⟩ := choice_spec types info x xs
  generalize choice types info x xs = a at hperm hleast ⊢
  refine congrArg Prod.fst (leastBy_eq_self fun b hb => ?_)
  obtain ⟨c, hc, rfl⟩ := List.mem_map.mp hb
  dsimp only
  rw [isReady_perm types info hperm, isReady_perm types info hperm]
  exact hleast c (hperm.subset (List.mem_cons_of_mem _ hc))

end Choice

variable [DecidableEq α]

theorem arrange_of_perm {clauses clauses' : List α} (hnumbered : Numbered info clauses)
    (hperm : clauses.Perm clauses') (fuel : Nat) :
    arrange types info fuel clauses = arrange types info fuel clauses' := by
  induction fuel generalizing clauses clauses' with
  | zero => rfl
  | succ fuel ih =>
    cases clauses with
    | nil => rw [hperm.nil_eq]
    | cons x xs =>
      cases clauses' with
      | nil => exact absurd hperm.eq_nil (List.cons_ne_nil x xs)
      | cons y ys =>
        rw [arrange, arrange, ← choice_of_perm hnumbered hperm,
          ih (hnumbered.sublist List.erase_sublist) (hperm.erase _)]

theorem arrange_arrange {fuel : Nat} {clauses : List α} (hfuel : clauses.length ≤ fuel) :
    arrange types info fuel (arrange types info fuel clauses) =
      arrange types info fuel clauses := by
  induction fuel generalizing clauses with
  | zero => rfl
  | succ fuel ih =>
    cases clauses with
    | nil => rfl
    | cons x xs =>
      have hlength := length_erase_choice types info hfuel
      have hrest := arrange_perm types info fuel _ hlength
      have hperm := (hrest.cons _).trans (List.perm_cons_erase (choice_mem types info x xs)).symm
      rw [arrange, arrange, choice_arrange hperm, List.erase_cons_head, ih hlength]

theorem typed_order (clauses : List α) : typed info (order types info clauses) =
    arrange types info (typed info clauses).length (typed info clauses) := by
  have hplace := arrange_perm types info _ (typed info clauses) (Nat.le_refl _)
  have hall : typed info (arrange types info (typed info clauses).length (typed info clauses)) =
      arrange types info (typed info clauses).length (typed info clauses) := by
    refine List.filter_eq_self.mpr fun a ha => ?_
    rw [(mem_typed.mp (hplace.mem_iff.mp ha)).2]
    rfl
  have hnone : typed info (general info clauses) = [] := by
    refine List.filter_eq_nil_iff.mpr fun a ha => ?_
    simp [(mem_general.mp ha).2]
  rw [order_eq, typed, List.filter_append, ← typed, ← typed, hall, hnone, List.append_nil]

theorem general_order (clauses : List α) :
    general info (order types info clauses) = general info clauses := by
  have hplace := arrange_perm types info _ (typed info clauses) (Nat.le_refl _)
  have hnone : general info
      (arrange types info (typed info clauses).length (typed info clauses)) = [] := by
    refine List.filter_eq_nil_iff.mpr fun a ha => ?_
    simp [(mem_typed.mp (hplace.mem_iff.mp ha)).2]
  have hall : general info (general info clauses) = general info clauses :=
    List.filter_eq_self.mpr fun a ha => (mem_general.mp ha).2
  rw [order_eq, general, List.filter_append, ← general, ← general, hall, hnone, List.nil_append]

theorem order_order (clauses : List α) :
    order types info (order types info clauses) = order types info clauses := by
  have hlength := (arrange_perm types info _ (typed info clauses) (Nat.le_refl _)).length_eq
  rw [order_eq, typed_order, general_order, hlength, arrange_arrange types info (Nat.le_refl _),
    order_eq]

/-- Whatever the hierarchy, clauses that numbers tell apart come in one order only: given in another
order, those that name their classes are put in the same sequence, and with those that catch
everything as they were the whole result is the same. What is in catch order already stays so, also
if numbers are repeated. -/
theorem order_forgets_input_order :
    (∀ clauses clauses' : List α, Numbered info clauses → clauses.Perm clauses' →
      typed info (order types info clauses) = typed info (order types info clauses') ∧
      (general info clauses = general info clauses' →
        order types info clauses = order types info clauses')) ∧
      ∀ clauses : List α,
        order types info (order types info clauses) = order types info clauses := by
  refine ⟨fun clauses clauses' hnumbered hperm => ?_, order_order types info⟩
  have htyped : (typed info clauses).Perm (typed info clauses') := hperm.filter _
  have hdistinct : Numbered info (typed info clauses) := hnumbered.sublist List.filter_sublist
  have hplace := arrange_of_perm types info hdistinct htyped (typed info clauses).length
  constructor
  · rw [typed_order, typed_order, hplace, htyped.length_eq]
  · intro hgeneral
    rw [order_eq, order_eq, hplace, htyped.length_eq, hgeneral]

/-- The clauses of two classes that are above each other, of one below both and of one on its own
come in the same order when the list is read from its end. -/
theorem order_forgets_input_order_cyclic :
    Numbered cyclicClauses [0, 1, 2, 3, 4] ∧
      order cyclicTypes cyclicClauses [4, 3, 2, 1, 0] =
        order cyclicTypes cyclicClauses [0, 1, 2, 3, 4] ∧
      order cyclicTypes cyclicClauses [0, 1, 2, 3, 4] = [4, 3, 2, 0, 1] := by
  have hnumbered : Numbered cyclicClauses [0, 1, 2, 3, 4] := by decide
  have hperm : List.Perm [0, 1, 2, 3, 4] [4, 3, 2, 1, 0] := by decide
  refine ⟨hnumbered, Eq.symm ?_, by decide +kernel⟩
  exact ((order_forgets_input_order cyclicTypes cyclicClauses).1 _ _ hnumbered hperm).2 rfl

end ClauseOrder

end TryRegions
