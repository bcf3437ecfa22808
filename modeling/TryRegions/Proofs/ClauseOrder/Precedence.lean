import TryRegions.Proofs.ClauseOrder
import Mathlib.Data.Set.Finite.List
import Mathlib.Order.Preorder.Finite

/-! Which of two clauses comes first in catch order, said of the clauses themselves, for hierarchies
without cycles. A clause waits for those below its class, so that clauses of unrelated classes come
in the order of the last names that they and what they wait for have. Only the first class of a
clause counts, and from this it follows when a clause comes after one for a class above one of its
classes. -/

open Relation

namespace TryRegions

section Lists

variable {α : Type} {a b : α} {l : List α}

theorem pair_sublist_iff : [a, b].Sublist l ↔ ∃ pre rest, l = pre ++ a :: rest ∧ b ∈ rest := by
  rw [List.cons_sublist_iff]
  constructor
  · rintro ⟨front, rest, rfl, ha, hb⟩
    obtain ⟨pre, post, rfl⟩ := List.append_of_mem ha
    exact ⟨pre, post ++ rest, by simp, List.mem_append_right _ (List.singleton_sublist.mp hb)⟩
  · rintro ⟨pre, rest, rfl, hb⟩
    exact ⟨pre ++ [a], rest, by simp, by simp, List.singleton_sublist.mpr hb⟩

theorem pair_sublist_or (ha : a ∈ l) (hb : b ∈ l) (hne : a ≠ b) :
    [a, b].Sublist l ∨ [b, a].Sublist l := by
  rw [pair_sublist_iff, pair_sublist_iff]
  obtain ⟨pre, rest, rfl⟩ := List.append_of_mem ha
  rcases List.mem_append.mp hb with hb | hb
  · obtain ⟨front, back, rfl⟩ := List.append_of_mem hb
    exact Or.inr ⟨front, back ++ a :: rest, by simp, by simp⟩
  · exact Or.inl ⟨pre, rest, rfl, (List.mem_cons.mp hb).resolve_left hne.symm⟩

theorem pair_sublist_cons_of_ne {x : α} (hne : x ≠ a) :
    [a, b].Sublist (x :: l) ↔ [a, b].Sublist l :=
  ⟨fun h => h.of_cons_of_ne hne.symm, fun h => h.cons x⟩

theorem pair_sublist_append {pre : List α} (ha : a ∉ pre) (hb : b ∉ pre) :
    [a, b].Sublist (pre ++ l) ↔ [a, b].Sublist l := by
  refine ⟨fun h => h.of_sublist_append_right fun x hx => ?_,
    fun h => h.trans (List.sublist_append_right pre l)⟩
  rcases List.mem_pair.mp hx with rfl | rfl
  · exact ha
  · exact hb

/-- A pair does not change its order when an element is moved to the front, unless it is one of the
pair and the other one stands before it. -/
theorem pair_sublist_front [DecidableEq α] {x : α} {pre post rest : List α}
    (hmem : b ∈ rest ↔ b ∈ pre ++ post)
    (hrest : [a, b].Sublist rest ↔ [a, b].Sublist (pre ++ post))
    (hpre : x = a ∨ x = b → a ∉ pre ∧ b ∉ pre) :
    [a, b].Sublist (x :: rest) ↔ [a, b].Sublist (pre ++ x :: post) := by
  by_cases hxa : x = a
  · obtain ⟨ha, hb⟩ := hpre (Or.inl hxa)
    rw [hxa, pair_sublist_append ha hb, List.cons_sublist_cons, List.cons_sublist_cons,
      List.singleton_sublist, List.singleton_sublist, hmem, List.mem_append, or_iff_right hb]
  rw [pair_sublist_cons_of_ne hxa, hrest]
  by_cases hxb : x = b
  · obtain ⟨ha, hb⟩ := hpre (Or.inr hxb)
    rw [pair_sublist_append ha hb, pair_sublist_append ha hb, pair_sublist_cons_of_ne hxa]
  · refine ⟨fun h => h.trans ((List.sublist_cons_self x post).append_left pre), fun h => ?_⟩
    have hkept := h.filter fun y => decide (y ≠ x)
    have hpair : [a, b].filter (fun y => decide (y ≠ x)) = [a, b] := by
      simp [Ne.symm hxa, Ne.symm hxb]
    rw [hpair, List.filter_append, List.filter_cons_of_neg (by simp)] at hkept
    exact hkept.trans (List.filter_sublist.append List.filter_sublist)

end Lists

namespace Handler

/-- One of the classes of `b` is below one of those of `a`. -/
def Shadows (types : ClassHierarchy) (a b : Handler) : Prop :=
  ∃ t ∈ a.types, ∃ s ∈ b.types, types.isSubtype s t = true

instance (types : ClassHierarchy) (a b : Handler) : Decidable (a.Shadows types b) :=
  inferInstanceAs (Decidable (∃ t ∈ a.types, ∃ s ∈ b.types, types.isSubtype s t = true))

/-- The clauses have the same number and the same first class. -/
def Alike (a b : Handler) : Prop := a.leadType = b.leadType ∧ a.number = b.number

end Handler

namespace ClauseOrder

variable {α : Type} (types : ClassHierarchy) (info : α → Handler)

/-- The class of `x` is that of `a`, or parent links lead from it to that of `a`. -/
def AtOrBelow (x a : α) : Prop := ReflTransGen types.Link (info x).leadType (info a).leadType

/-- One of the clauses at or below `b` has a later name than all at or below `a`. -/
def NamedBefore (clauses : List α) (a b : α) : Prop :=
  ∃ m ∈ clauses, AtOrBelow types info m b ∧
    ∀ x ∈ clauses, AtOrBelow types info x a → (info x).leadType < (info m).leadType

/-- What puts `a` before `b`: its class is below that of `b`; or the last name at or below it comes
first; or it has the same class and a lower number, or the same number and stands first in the
list. -/
inductive Earlier (clauses : List α) (a b : α) : Prop
  | below (h : types.isSubtype (info a).leadType (info b).leadType = true)
  | named (h : NamedBefore types info clauses a b)
  | numbered (hlead : (info a).leadType = (info b).leadType) (h : (info a).number < (info b).number)
  | listed (halike : (info a).Alike (info b)) (h : [a, b].Sublist clauses)

section Ties

variable {types info}

theorem isReady_alike [DecidableEq α] {a b : α} (h : (info a).Alike (info b)) (rest : List α) :
    isReady types info rest a = isReady types info rest b := by
  rw [Bool.eq_iff_iff, isReady_iff, isReady_iff, Free, Free, h.1]

/-- No clause in front of the one that is placed next is like it. -/
theorem choice_split [DecidableEq α] (x : α) (xs : List α) : ∃ pre post,
    x :: xs = pre ++ choice types info x xs :: post ∧
      (x :: xs).erase (choice types info x xs) = pre ++ post ∧
      ∀ y ∈ pre, ¬(info (choice types info x xs)).Alike (info y) := by
  let mark := fun a => (a, isReady types info (x :: xs) a)
  obtain ⟨pre', post', hsplit, hpre⟩ :=
    leastBy_split (@before_trans α info) before_of_not_before (mark x) (xs.map mark)
  rw [← List.map_cons] at hsplit
  obtain ⟨pre, rest, hcons, rfl, hrest⟩ := List.map_eq_append_iff.mp hsplit
  obtain ⟨a, post, rfl, ha, -⟩ := List.map_eq_cons_iff.mp hrest
  have hchoice : choice types info x xs = a := congrArg Prod.fst ha.symm
  rw [← ha] at hpre
  have hapart : ∀ y ∈ pre, ¬(info a).Alike (info y) := by
    intro y hy halike
    have hbefore := hpre (mark y) (List.mem_map_of_mem hy)
    have hready : (mark a).2 = (mark y).2 := isReady_alike halike _
    rcases before_iff.mp hbefore with ⟨ha, hy⟩ | ⟨-, hlt | ⟨-, hlt⟩⟩
    · rw [hready, hy] at ha
      cases ha
    · exact absurd halike.1 (ne_of_lt hlt)
    · exact absurd halike.2 (Int.ne_of_lt hlt)
  have hmem : a ∉ pre := fun hmem => hapart a hmem ⟨rfl, rfl⟩
  rw [hchoice, hcons]
  exact ⟨pre, post, rfl, by rw [List.erase_append_right _ hmem, List.erase_cons_head], hapart⟩

/-- Clauses that are alike keep their order. -/
theorem pair_sublist_arrange [DecidableEq α] {fuel : Nat} {clauses : List α}
    (hfuel : clauses.length ≤ fuel) {a b : α} (halike : (info a).Alike (info b)) :
    [a, b].Sublist (arrange types info fuel clauses) ↔ [a, b].Sublist clauses := by
  induction fuel generalizing clauses with
  | zero => rw [List.length_eq_zero_iff.mp (Nat.le_zero.mp hfuel), arrange]
  | succ fuel ih =>
    cases clauses with
    | nil => rw [arrange]
    | cons x xs =>
      have hrest := arrange_perm types info fuel _ (length_erase_choice types info hfuel)
      have ih := ih (length_erase_choice types info hfuel)
      obtain ⟨pre, post, hsplit, herase, hpre⟩ := @choice_split α types info _ x xs
      rw [herase] at hrest ih
      rw [arrange, herase, hsplit]
      refine pair_sublist_front hrest.mem_iff ih fun hpair => ?_
      have hfirst : ∀ c, (info a).Alike (info c) →
          (info (choice types info x xs)).Alike (info c) := by
        intro c hc
        rcases hpair with heq | heq
        · rwa [heq]
        · rw [heq]
          exact ⟨halike.1.symm.trans hc.1, halike.2.symm.trans hc.2⟩
      exact ⟨fun ha => hpre a ha (hfirst a ⟨rfl, rfl⟩), fun hb => hpre b hb (hfirst b halike)⟩

end Ties

section Run

variable {types info}

/-- Of two clauses for unrelated classes, one has the last name at or below both of them. -/
theorem namedBefore_total {clauses : List α} {a b : α} (ha : a ∈ clauses) (hb : b ∈ clauses)
    (hab : ¬AtOrBelow types info a b) (hba : ¬AtOrBelow types info b a) :
    NamedBefore types info clauses a b ∨ NamedBefore types info clauses b a := by
  have hlast : ∀ c ∈ clauses, ∃ m ∈ clauses, AtOrBelow types info m c ∧
      ∀ x ∈ clauses, AtOrBelow types info x c → (info x).leadType ≤ (info m).leadType := by
    intro c hc
    obtain ⟨m, ⟨hm, hmc⟩, hlast⟩ := Set.Finite.exists_maximalFor (fun x => (info x).leadType)
      { x | x ∈ clauses ∧ AtOrBelow types info x c }
      ((List.finite_toSet clauses).subset fun x hx => hx.1) ⟨c, hc, ReflTransGen.refl⟩
    refine ⟨m, hm, hmc, fun x hx hxc => ?_⟩
    rcases le_total (info x).leadType (info m).leadType with hle | hle
    · exact hle
    · exact hlast ⟨hx, hxc⟩ hle
  obtain ⟨m, hm, hma, hlastA⟩ := hlast a ha
  obtain ⟨n, hn, hnb, hlastB⟩ := hlast b hb
  rcases lt_trichotomy (info m).leadType (info n).leadType with hlt | heq | hgt
  · exact Or.inl ⟨n, hn, hnb, fun x hx hxa => lt_of_le_of_lt (hlastA x hx hxa) hlt⟩
  · -- Each class has one parent at most, so no class is at or below two unrelated ones.
    have hunique : Relator.RightUnique types.Link := fun _ _ _ h h' => h.right_unique h'
    rw [AtOrBelow, heq] at hma
    rcases hma.total_of_right_unique hunique hnb with h | h
    · exact absurd h hab
    · exact absurd h hba
  · exact Or.inr ⟨m, hm, hma, fun x hx hxb => lt_of_le_of_lt (hlastB x hx hxb) hgt⟩

variable (hacyclic : types.Acyclic)
include hacyclic

theorem isSubtype_iff_transGen {a b : α} (hb : (info b).catchesAll = false) :
    types.isSubtype (info a).leadType (info b).leadType = true ↔
      TransGen types.Link (info a).leadType (info b).leadType := by
  rw [ClassHierarchy.isSubtype_iff]
  refine ⟨fun h => h.2.resolve_left (Handler.leadType_ne_throwable hb), fun h => ⟨?_, Or.inr h⟩⟩
  intro heq
  rw [heq] at h
  exact hacyclic _ h

/-- Among the clauses that are left there is one at or below each of them that is free. -/
theorem exists_free_atOrBelow {rest : List α} (htyped : ∀ a ∈ rest, (info a).catchesAll = false)
    {a : α} (ha : a ∈ rest) :
    ∃ x ∈ rest, Free types info rest x ∧ AtOrBelow types info x a := by
  by_contra hnone
  obtain ⟨classes, hclasses⟩ : ∃ classes : List TypeName, ∀ cls, cls ∈ classes ↔
      ∃ x ∈ rest, AtOrBelow types info x a ∧ (info x).leadType = cls := by
    classical
    exact ⟨(rest.filter fun x => decide (AtOrBelow types info x a)).map fun x => (info x).leadType,
      fun cls => by simp [and_assoc]⟩
  -- If none of the clauses at or below `a` were free, each would have another one below it.
  have hbelow : ∀ cls ∈ classes, ∃ sub ∈ classes, TransGen types.Link sub cls := by
    intro cls hcls
    obtain ⟨x, hx, hxa, rfl⟩ := (hclasses cls).mp hcls
    obtain ⟨y, hy, hyx⟩ := not_free_iff.mp fun hfree => hnone ⟨x, hx, hfree, hxa⟩
    have hyx := (isSubtype_iff_transGen hacyclic (htyped x hx)).mp hyx
    exact ⟨_, (hclasses _).mpr ⟨y, hy, hyx.to_reflTransGen.trans hxa, rfl⟩, hyx⟩
  obtain ⟨cls, hcycle, -⟩ := ClassHierarchy.exists_cycle_below hbelow
    ((hclasses _).mpr ⟨a, ha, ReflTransGen.refl, rfl⟩)
  exact hacyclic cls hcycle

variable [DecidableEq α] {fuel : Nat} {clauses : List α} (hfuel : clauses.length ≤ fuel)

omit hacyclic in
include hfuel in
theorem mem_of_arrange {pre rest : List α} (hat : arrange types info fuel clauses = pre ++ rest) :
    ∀ a ∈ rest, a ∈ clauses := by
  intro a ha
  refine (arrange_perm types info fuel clauses hfuel).subset ?_
  rw [hat]
  exact List.mem_append_right _ ha

variable (htyped : ∀ a ∈ clauses, (info a).catchesAll = false)
include hfuel htyped

/-- A clause is free when it is placed, and no clause that is free then has an earlier name. -/
theorem free_of_arrange {pre rest : List α} {a : α}
    (hat : arrange types info fuel clauses = pre ++ a :: rest) :
    Free types info (a :: rest) a ∧
      ∀ b ∈ rest, Free types info (a :: rest) b → (info a).NoLater (info b) := by
  obtain ⟨x, hx, hfree, -⟩ := exists_free_atOrBelow hacyclic
    (fun b hb => htyped b (mem_of_arrange hfuel hat b hb)) List.mem_cons_self
  exact (placed_arrange types info hfuel htyped hat).first ⟨x, hx, hfree⟩

variable {a b : α} (hfirst : [a, b].Sublist (arrange types info fuel clauses))
include hfirst

theorem not_isSubtype_of_first :
    types.isSubtype (info b).leadType (info a).leadType = false := by
  obtain ⟨pre, rest, hat, hb⟩ := pair_sublist_iff.mp hfirst
  exact (free_of_arrange hacyclic hfuel htyped hat).1 b (List.mem_cons_of_mem _ hb)

theorem number_le_of_first (hlead : (info a).leadType = (info b).leadType) :
    (info a).number ≤ (info b).number := by
  obtain ⟨pre, rest, hat, hb⟩ := pair_sublist_iff.mp hfirst
  obtain ⟨hfree, hleast⟩ := free_of_arrange hacyclic hfuel htyped hat
  have hfree' : Free types info (a :: rest) b := by
    intro c hc
    rw [← hlead]
    exact hfree c hc
  rcases hleast b hb hfree' with hlt | ⟨-, hle⟩
  · rw [hlead] at hlt
    exact absurd hlt (List.lt_irrefl _)
  · exact hle

/-- While `b` is left something at or below it is free, and what is placed has no later name. -/
theorem exists_not_before_of_first : ∃ x ∈ clauses, AtOrBelow types info x b ∧
    ¬(info x).leadType < (info a).leadType := by
  obtain ⟨pre, rest, hat, hb⟩ := pair_sublist_iff.mp hfirst
  have hleft := mem_of_arrange hfuel hat
  obtain ⟨x, hx, hfree, hxb⟩ := exists_free_atOrBelow hacyclic
    (fun c hc => htyped c (hleft c hc)) (List.mem_cons_of_mem _ hb)
  refine ⟨x, hleft x hx, hxb, fun hlt => ?_⟩
  rcases List.mem_cons.mp hx with rfl | hx
  · exact lt_irrefl _ hlt
  · rcases (free_of_arrange hacyclic hfuel htyped hat).2 x hx hfree with hgt | ⟨heq, -⟩
    · exact lt_asymm hlt (Text.lt_iff_bytes_lt.mpr hgt)
    · exact absurd heq (ne_of_gt hlt)

theorem not_namedBefore_of_first : ¬NamedBefore types info clauses b a := by
  rintro ⟨m, hm, hma, hlast⟩
  rcases reflTransGen_iff_eq_or_transGen.mp hma with heq | hbelow
  · obtain ⟨x, hx, hxb, hnot⟩ := exists_not_before_of_first hacyclic hfuel htyped hfirst
    rw [heq] at hnot
    exact hnot (hlast x hx hxb)
  · -- The clause with the last name is below `a`, so it was placed before it.
    obtain ⟨pre, rest, hat, hb⟩ := pair_sublist_iff.mp hfirst
    have hmem : m ∈ pre ++ a :: rest :=
      hat ▸ (arrange_perm types info fuel clauses hfuel).mem_iff.mpr hm
    have ha : a ∈ clauses := (arrange_perm types info fuel clauses hfuel).subset
      (hfirst.subset List.mem_cons_self)
    have hsub := (isSubtype_iff_transGen hacyclic (htyped a ha)).mpr hbelow
    rcases List.mem_append.mp hmem with hpre | hrest
    · have hm : [m, b].Sublist (arrange types info fuel clauses) := by
        rw [hat]
        exact (List.singleton_sublist.mpr hpre).append
          (List.singleton_sublist.mpr (List.mem_cons_of_mem _ hb))
      obtain ⟨x, hx, hxb, hnot⟩ := exists_not_before_of_first hacyclic hfuel htyped hm
      exact hnot (hlast x hx hxb)
    · rw [(free_of_arrange hacyclic hfuel htyped hat).1 m hrest] at hsub
      cases hsub

omit hfirst

/-- Which of two clauses is placed first. -/
theorem first_iff_earlier : [a, b].Sublist (arrange types info fuel clauses) ↔
    a ∈ clauses ∧ b ∈ clauses ∧ Earlier types info clauses a b := by
  have hperm := arrange_perm types info fuel clauses hfuel
  constructor
  · intro hfirst
    have ha : a ∈ clauses := hperm.subset (hfirst.subset List.mem_cons_self)
    have hb : b ∈ clauses := hperm.subset (hfirst.subset (List.mem_pair.mpr (Or.inr rfl)))
    refine ⟨ha, hb, ?_⟩
    by_cases hlead : (info a).leadType = (info b).leadType
    · rcases lt_or_eq_of_le (number_le_of_first hacyclic hfuel htyped hfirst hlead) with hlt | heq
      · exact .numbered hlead hlt
      · exact .listed ⟨hlead, heq⟩ ((pair_sublist_arrange hfuel ⟨hlead, heq⟩).mp hfirst)
    by_cases hab : AtOrBelow types info a b
    · have hab := (reflTransGen_iff_eq_or_transGen.mp hab).resolve_left (Ne.symm hlead)
      exact .below ((isSubtype_iff_transGen hacyclic (htyped b hb)).mpr hab)
    by_cases hba : AtOrBelow types info b a
    · have hba := (reflTransGen_iff_eq_or_transGen.mp hba).resolve_left hlead
      have hsub := (isSubtype_iff_transGen hacyclic (htyped a ha)).mpr hba
      rw [not_isSubtype_of_first hacyclic hfuel htyped hfirst] at hsub
      cases hsub
    · refine .named ((namedBefore_total ha hb hab hba).resolve_right ?_)
      exact not_namedBefore_of_first hacyclic hfuel htyped hfirst
  · rintro ⟨ha, hb, hearlier⟩
    have hor := pair_sublist_or (hperm.mem_iff.mpr ha) (hperm.mem_iff.mpr hb)
    cases hearlier with
    | below h =>
      have hne : a ≠ b := by
        rintro rfl
        exact (ClassHierarchy.isSubtype_iff.mp h).1 rfl
      refine (hor hne).resolve_right fun hlast => ?_
      rw [not_isSubtype_of_first hacyclic hfuel htyped hlast] at h
      cases h
    | named h =>
      have hne : a ≠ b := by
        rintro rfl
        obtain ⟨m, hm, hma, hlast⟩ := h
        exact lt_irrefl _ (hlast m hm hma)
      exact (hor hne).resolve_right fun hlast =>
        not_namedBefore_of_first hacyclic hfuel htyped hlast h
    | numbered hlead h =>
      have hne : a ≠ b := by
        rintro rfl
        exact lt_irrefl _ h
      exact (hor hne).resolve_right fun hlast =>
        not_lt_of_ge (number_le_of_first hacyclic hfuel htyped hlast hlead.symm) h
    | listed halike h => exact (pair_sublist_arrange hfuel halike).mpr h

end Run

/-- No clause that names its classes comes after one for a class above one of them. -/
def Unshadowed (clauses : List α) : Prop :=
  clauses.Pairwise fun a b => (info b).catchesAll = false → ¬(info a).Shadows types (info b)

instance (clauses : List α) : Decidable (Unshadowed types info clauses) :=
  inferInstanceAs (Decidable (List.Pairwise _ _))

theorem unshadowed_append_general {clauses rest : List α} :
    Unshadowed types info (clauses ++ general info rest) ↔ Unshadowed types info clauses := by
  have hgeneral : ∀ b ∈ general info rest, ∀ a : α,
      (info b).catchesAll = false → ¬(info a).Shadows types (info b) := by
    intro b hb a htyped
    rw [(mem_general.mp hb).2] at htyped
    cases htyped
  rw [Unshadowed, List.pairwise_append]
  refine ⟨And.left, fun h => ⟨h, ?_, fun a _ b hb => hgeneral b hb a⟩⟩
  exact List.pairwise_iff_forall_sublist.mpr fun hpair =>
    hgeneral _ (hpair.subset (List.mem_pair.mpr (Or.inr rfl))) _

variable [DecidableEq α]

/-- Catch order is unshadowed if no clause that is placed shadows one that is placed later. -/
theorem unshadowed_order_iff (clauses : List α) :
    Unshadowed types info (order types info clauses) ↔ ∀ a b,
      [a, b].Sublist (arrange types info (typed info clauses).length (typed info clauses)) →
        ¬(info a).Shadows types (info b) := by
  have hperm := arrange_perm types info _ (typed info clauses) (Nat.le_refl _)
  rw [order_eq, unshadowed_append_general, Unshadowed, List.pairwise_iff_forall_sublist]
  refine ⟨fun h a b hfirst => h hfirst ?_, fun h a b hfirst _ => h a b hfirst⟩
  have hb : b ∈ [a, b] := List.mem_pair.mpr (Or.inr rfl)
  exact (mem_typed.mp (hperm.subset (hfirst.subset hb))).2

/-- In a hierarchy without cycles, catch order leaves no clause behind one for a class above one of
its own classes if and only if there is no such pair that first classes, names and numbers put in
this order. In particular it leaves none there if first classes speak for all: whenever a clause has
a class below one of another clause, its first class is below the first one of the other. -/
theorem order_unshadowed_iff (hacyclic : types.Acyclic) (clauses : List α) :
    (Unshadowed types info (order types info clauses) ↔
      ∀ a ∈ typed info clauses, ∀ b ∈ typed info clauses, (info a).Shadows types (info b) →
        ¬Earlier types info (typed info clauses) a b) ∧
      ((∀ a ∈ typed info clauses, ∀ b ∈ typed info clauses, (info a).Shadows types (info b) →
          types.isSubtype (info b).leadType (info a).leadType = true) →
        Unshadowed types info (order types info clauses)) := by
  have htyped : ∀ a ∈ typed info clauses, (info a).catchesAll = false :=
    fun a ha => (mem_typed.mp ha).2
  rw [unshadowed_order_iff]
  refine ⟨⟨fun h a ha b hb hshadows hearlier => ?_, fun h a b hfirst hshadows => ?_⟩,
    fun hspeak a b hfirst hshadows => ?_⟩
  · have hfirst := (first_iff_earlier hacyclic (Nat.le_refl _) htyped).mpr ⟨ha, hb, hearlier⟩
    exact h a b hfirst hshadows
  · obtain ⟨ha, hb, hearlier⟩ := (first_iff_earlier hacyclic (Nat.le_refl _) htyped).mp hfirst
    exact h a ha b hb hshadows hearlier
  · obtain ⟨ha, hb, -⟩ := (first_iff_earlier hacyclic (Nat.le_refl _) htyped).mp hfirst
    have hsub := hspeak a ha b hb hshadows
    rw [not_isSubtype_of_first hacyclic (Nat.le_refl _) htyped hfirst] at hsub
    cases hsub

/-- `Z` is below `Y`. -/
def hiddenTypes : ClassHierarchy := .ofList [("Z", "Y")]

def hiddenClauses (n : Nat) : Handler :=
  { number := n, offset := n
    types := [["A", "Y"], ["Z"], ["Y"]].getD n [] }

theorem hiddenTypes_acyclic : hiddenTypes.Acyclic := by
  have hlink : ∀ {a b}, hiddenTypes.Link a b → a = "Z" ∧ b = "Y" := by
    intro a b hab
    obtain rfl : a = "Z" := List.mem_singleton.mp hab.mem_declared
    exact ⟨rfl, (Option.some.inj hab).symm⟩
  intro cls hcycle
  obtain ⟨_, hout, -⟩ := TransGen.head'_iff.mp hcycle
  obtain ⟨_, -, hin⟩ := TransGen.tail'_iff.mp hcycle
  have heq := (hlink hout).1.symm.trans (hlink hin).2
  exact absurd heq (by decide)

/-- A clause for `A` and `Y` comes before one for `Z`, by the name of its first class, although the
other way round neither would take what the other one is for. -/
theorem order_shadows_later_class :
    hiddenTypes.Acyclic ∧ List.Perm [1, 0] [0, 1] ∧
      List.Pairwise (fun a b => ¬(hiddenClauses a).Shadows hiddenTypes (hiddenClauses b)) [1, 0] ∧
      order hiddenTypes hiddenClauses [0, 1] = [0, 1] ∧
      ¬Unshadowed hiddenTypes hiddenClauses (order hiddenTypes hiddenClauses [0, 1]) := by
  exact ⟨hiddenTypes_acyclic, by decide, by decide +kernel, by decide +kernel, by decide +kernel⟩

theorem order_unshadowed_iff_hidden :
    hiddenTypes.Acyclic ∧
      (Unshadowed hiddenTypes hiddenClauses (order hiddenTypes hiddenClauses [0, 1]) ↔
        ∀ a ∈ typed hiddenClauses [0, 1], ∀ b ∈ typed hiddenClauses [0, 1],
          (hiddenClauses a).Shadows hiddenTypes (hiddenClauses b) →
            ¬Earlier hiddenTypes hiddenClauses (typed hiddenClauses [0, 1]) a b) ∧
      order hiddenTypes hiddenClauses [2, 1] = [1, 2] ∧
      Unshadowed hiddenTypes hiddenClauses (order hiddenTypes hiddenClauses [2, 1]) := by
  refine ⟨hiddenTypes_acyclic,
    (order_unshadowed_iff hiddenTypes hiddenClauses hiddenTypes_acyclic [0, 1]).1,
    by decide +kernel,
    (order_unshadowed_iff hiddenTypes hiddenClauses hiddenTypes_acyclic [2, 1]).2 ?_⟩
  decide +kernel

end ClauseOrder

end TryRegions
