import TryRegions.Proofs.ClassHierarchy
import TryRegions.Proofs.ClauseOrder.Placement

/-! Putting clauses in catch order loses none and adds none. A clause is placed only when no clause
for a class below is left; where there is no such clause, all that are left lie in cycles of the
hierarchy, and none of them is properly below another one. -/

open Relation

namespace TryRegions

namespace Handler

/-- The clause comes first by the bytes of its class, and by its number where the class is the
same; or neither of the two does. -/
def NoLater (a b : Handler) : Prop :=
  Text.bytes a.leadType < Text.bytes b.leadType ∨ a.leadType = b.leadType ∧ a.number ≤ b.number

theorem leadType_ne_throwable {k : Handler} (htyped : k.catchesAll = false) :
    k.leadType ≠ throwable := by
  rw [catchesAll, Bool.or_eq_false_iff] at htyped
  obtain ⟨hsome, hroot⟩ := htyped
  cases htypes : k.types with
  | nil => simp [htypes] at hsome
  | cons t ts =>
    rw [htypes] at hroot
    simp only [leadType, htypes, List.headD_cons]
    rintro rfl
    simp at hroot

end Handler

namespace ClauseOrder

variable {α : Type} (types : ClassHierarchy) (info : α → Handler)

/-- None of `rest` is for a class below that of `a`. -/
def Free (rest : List α) (a : α) : Prop :=
  ∀ b ∈ rest, types.isSubtype (info b).leadType (info a).leadType = false

section Choice

variable {types info}

theorem not_free_iff {rest : List α} {a : α} : ¬Free types info rest a ↔
    ∃ b ∈ rest, types.isSubtype (info b).leadType (info a).leadType = true := by
  simp [Free]

theorem Free.of_perm {rest rest' : List α} {a : α} (h : Free types info rest a)
    (hperm : rest.Perm rest') : Free types info rest' a :=
  fun b hb => h b (hperm.mem_iff.mpr hb)

theorem isReady_iff [DecidableEq α] {rest : List α} {a : α} :
    isReady types info rest a = true ↔ Free types info rest a := by
  rw [isReady, Bool.not_eq_true', List.any_eq_false]
  refine ⟨fun hnone b hb => Bool.eq_false_iff.mpr fun hsub => ?_,
    fun hfree b hb => Bool.eq_false_iff.mp (hfree b (List.mem_of_mem_erase hb))⟩
  -- No class is below itself, so `b` is one of the others.
  have hne : b ≠ a := by
    rintro rfl
    exact (ClassHierarchy.isSubtype_iff.mp hsub).1 rfl
  exact hnone b ((List.mem_erase_of_ne hne).mpr hb) hsub

end Choice

section Cycles

variable {types info} {rest : List α} (htyped : ∀ a ∈ rest, (info a).catchesAll = false)
include htyped

theorem transGen_of_isSubtype {a b : α} (ha : a ∈ rest)
    (hba : types.isSubtype (info b).leadType (info a).leadType = true) :
    TransGen types.Link (info b).leadType (info a).leadType :=
  (ClassHierarchy.isSubtype_iff.mp hba).2.resolve_left
    (Handler.leadType_ne_throwable (htyped a ha))

/-- Clauses none of which is free lie in cycles of the hierarchy. -/
theorem isSubtype_symm_of_not_free (hnone : ∀ a ∈ rest, ¬Free types info rest a) {a b : α}
    (ha : a ∈ rest) (hb : b ∈ rest)
    (hba : types.isSubtype (info b).leadType (info a).leadType = true) :
    types.isSubtype (info a).leadType (info b).leadType = true := by
  have hbelow : ∀ cls ∈ rest.map fun c => (info c).leadType,
      ∃ sub ∈ rest.map fun c => (info c).leadType, TransGen types.Link sub cls := by
    intro cls hcls
    obtain ⟨c, hc, rfl⟩ := List.mem_map.mp hcls
    obtain ⟨d, hd, hdc⟩ := not_free_iff.mp (hnone c hc)
    exact ⟨_, List.mem_map_of_mem hd, transGen_of_isSubtype htyped hc hdc⟩
  obtain ⟨cls, hcycle, hdown⟩ :=
    ClassHierarchy.exists_cycle_below hbelow (List.mem_map_of_mem hb)
  have hup := (transGen_of_isSubtype htyped ha hba).to_reflTransGen
  have hback := ClassHierarchy.reflTransGen_back hcycle (hdown.trans hup)
  have hne := (ClassHierarchy.isSubtype_iff.mp hba).1
  refine ClassHierarchy.isSubtype_iff.mpr ⟨hne.symm, Or.inr ?_⟩
  exact (reflTransGen_iff_eq_or_transGen.mp (hback.trans hdown)).resolve_left hne

end Cycles

/-- What a clause is like that is placed while `rest` is still to be placed: no class of `rest` is
properly below its own, and if a clause is free, it is the first one that is. -/
structure Placed (a : α) (rest : List α) : Prop where
  lowest : ∀ b ∈ rest, types.isSubtype (info b).leadType (info a).leadType = true →
    types.isSubtype (info a).leadType (info b).leadType = true
  first : (∃ b ∈ a :: rest, Free types info (a :: rest) b) → Free types info (a :: rest) a ∧
    ∀ b ∈ rest, Free types info (a :: rest) b → (info a).NoLater (info b)

variable [DecidableEq α]

/-- If a clause is free, the one that is placed next is so too, and it is the first of these by
class and number. -/
theorem choice_first (x : α) (xs : List α) (hfree : ∃ b ∈ x :: xs, Free types info (x :: xs) b) :
    Free types info (x :: xs) (choice types info x xs) ∧
      ∀ b ∈ x :: xs, Free types info (x :: xs) b →
        (info (choice types info x xs)).NoLater (info b) := by
  obtain ⟨-, hleast⟩ := choice_spec types info x xs
  generalize choice types info x xs = a at hleast ⊢
  have hready : Free types info (x :: xs) a := by
    obtain ⟨b, hb, hfree⟩ := hfree
    refine isReady_iff.mp (Bool.of_not_eq_false fun hwaits => ?_)
    refine Bool.eq_false_iff.mp (hleast b hb) ?_
    exact before_iff.mpr (Or.inl ⟨isReady_iff.mpr hfree, hwaits⟩)
  refine ⟨hready, fun b hb hfree => ?_⟩
  have hsame := (isReady_iff.mpr hfree).trans (isReady_iff.mpr hready).symm
  have hnot : ¬((info b).leadType < (info a).leadType ∨
      (info b).leadType = (info a).leadType ∧ (info b).number < (info a).number) := fun hkey =>
    Bool.eq_false_iff.mp (hleast b hb) (before_iff.mpr (Or.inr ⟨hsame, hkey⟩))
  rcases lt_trichotomy (info a).leadType (info b).leadType with hlt | heq | hgt
  · exact Or.inl (Text.lt_iff_bytes_lt.mp hlt)
  · refine Or.inr ⟨heq, Int.not_lt.mp fun hnumber => hnot (Or.inr ⟨heq.symm, hnumber⟩)⟩
  · exact absurd (Or.inl hgt) hnot

theorem placed_choice {x : α} {xs rest : List α}
    (htyped : ∀ a ∈ x :: xs, (info a).catchesAll = false)
    (hperm : (choice types info x xs :: rest).Perm (x :: xs)) :
    Placed types info (choice types info x xs) rest := by
  have hmem : ∀ b ∈ rest, b ∈ x :: xs := fun b hb => hperm.subset (List.mem_cons_of_mem _ hb)
  constructor
  · intro b hb hba
    by_cases hfree : ∃ c ∈ x :: xs, Free types info (x :: xs) c
    · rw [(choice_first types info x xs hfree).1 b (hmem b hb)] at hba
      cases hba
    · exact isSubtype_symm_of_not_free htyped (fun c hc hcfree => hfree ⟨c, hc, hcfree⟩)
        (choice_mem types info x xs) (hmem b hb) hba
  · rintro ⟨c, hc, hcfree⟩
    obtain ⟨hfree, hfirst⟩ :=
      choice_first types info x xs ⟨c, hperm.subset hc, hcfree.of_perm hperm⟩
    exact ⟨hfree.of_perm hperm.symm, fun b hb hbfree => hfirst b (hmem b hb) (hbfree.of_perm hperm)⟩

theorem placed_arrange {fuel : Nat} {clauses : List α} (hfuel : clauses.length ≤ fuel)
    (htyped : ∀ a ∈ clauses, (info a).catchesAll = false) {before : List α} {a : α}
    {rest : List α} (hat : arrange types info fuel clauses = before ++ a :: rest) :
    Placed types info a rest := by
  induction fuel generalizing clauses before with
  | zero => simp [arrange] at hat
  | succ fuel ih =>
    cases clauses with
    | nil => simp [arrange] at hat
    | cons x xs =>
      have hmem := choice_mem types info x xs
      have hlength := length_erase_choice types info hfuel
      rw [arrange] at hat
      cases before with
      | nil =>
        obtain ⟨rfl, rfl⟩ := List.cons_eq_cons.mp hat
        have hrest := arrange_perm types info fuel _ hlength
        exact placed_choice types info htyped
          ((hrest.cons _).trans (List.perm_cons_erase hmem).symm)
      | cons b before =>
        exact ih hlength (fun c hc => htyped c (List.mem_of_mem_erase hc))
          (List.cons_eq_cons.mp hat).2

/-- Catch order keeps all clauses. Those that catch everything come last, as they were; of the
others, one whose class is properly below that of another one comes first, in any hierarchy, and as
long as a clause has no clause below it among those that are left, the one placed next is the first
of these by class and number. -/
theorem order_puts_subtypes_first (clauses : List α) :
    (order types info clauses).Perm clauses ∧
      ∃ typed, typed.Perm (clauses.filter fun a => !(info a).catchesAll) ∧
        order types info clauses = typed ++ clauses.filter (fun a => (info a).catchesAll) ∧
        ∀ before a rest, typed = before ++ a :: rest → Placed types info a rest := by
  refine ⟨order_perm types info clauses, _, arrange_perm types info _ _ (Nat.le_refl _),
    order_eq types info clauses,
    fun before a rest hat => ?_⟩
  refine placed_arrange types info (Nat.le_refl _) (fun b hb => ?_) hat
  simpa using (List.mem_filter.mp hb).2

/-- `A` and `B` are above each other, `C` is below both, and `D` is on its own. -/
def cyclicTypes : ClassHierarchy := .ofList [("A", "B"), ("B", "A"), ("C", "A")]

def cyclicClauses (n : Nat) : Handler :=
  { number := n, offset := n
    types := [["B"], [], ["A"], ["D"], ["C"]].getD n [] }

/-- The clauses for `A` and `B` wait for that for `C`, and are then placed by name although neither
of them is free. -/
theorem order_puts_subtypes_first_cyclic :
    order cyclicTypes cyclicClauses [0, 1, 2, 3, 4] = [4, 3, 2, 0, 1] ∧
      Placed cyclicTypes cyclicClauses 4 [3, 2, 0] ∧
      cyclicTypes.isSubtype "C" "B" = true ∧ cyclicTypes.isSubtype "B" "C" = false ∧
      Placed cyclicTypes cyclicClauses 2 [0] ∧ ¬Free cyclicTypes cyclicClauses [2, 0] 2 := by
  have horder : order cyclicTypes cyclicClauses [0, 1, 2, 3, 4] = [4, 3, 2, 0] ++ [1] := by
    decide +kernel
  obtain ⟨-, typed, -, hsplit, hplaced⟩ :=
    order_puts_subtypes_first cyclicTypes cyclicClauses [0, 1, 2, 3, 4]
  have htyped : [4, 3, 2, 0] = typed := List.append_cancel_right (horder.symm.trans hsplit)
  refine ⟨horder, hplaced [] 4 [3, 2, 0] htyped.symm, by decide +kernel, by decide +kernel,
    hplaced [4, 3] 2 [0] htyped.symm, not_free_iff.mpr ⟨0, by simp, by decide +kernel⟩⟩

end ClauseOrder

end TryRegions
