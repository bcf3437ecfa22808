import TryRegions.ClassHierarchy
import Mathlib.Data.Fintype.EquivFin
import Mathlib.Logic.Relation

/-! Descent in a class hierarchy. A class descends from those that parent links lead to, and the
walk along the links finds all of them. Each class has one parent at most, so that links which come
back to a class form a cycle that nothing leaves. -/

open Relation

namespace TryRegions.ClassHierarchy

variable {h : ClassHierarchy} {a b c : TypeName}

/-- `b` is the declared parent of `a`. -/
def Link (h : ClassHierarchy) (a b : TypeName) : Prop := h.parent? a = some b

/-- No class descends from itself. -/
def Acyclic (h : ClassHierarchy) : Prop := ∀ cls, ¬TransGen h.Link cls cls

theorem Link.right_unique (hb : h.Link a b) (hc : h.Link a c) : b = c :=
  Option.some.inj (hb.symm.trans hc)

theorem Link.mem_declared (hlink : h.Link a b) : a ∈ h.links.map Prod.fst := by
  by_contra hnone
  have hlookup : h.links.lookup a = none := by
    refine List.lookup_eq_none_iff.mpr fun p hp => ?_
    have hne : a ≠ p.1 := fun heq => hnone (List.mem_map.mpr ⟨p, hp, heq.symm⟩)
    simpa using hne
  cases hlookup.symm.trans hlink

/-- What links lead to from a class on is seen, if they lead from each class seen to another one. -/
theorem mem_of_closed {seen : List TypeName} (hclosed : ∀ x ∈ seen, ∃ y ∈ seen, h.Link x y)
    (ha : a ∈ seen) (hab : ReflTransGen h.Link a b) : b ∈ seen := by
  induction hab with
  | refl => exact ha
  | tail _ hlink ih =>
    obtain ⟨y, hy, hy'⟩ := hclosed _ ih
    rwa [hlink.right_unique hy']

/-- The walk is right about what is above `a` if `b` is not among the classes that it has seen and
a link leads from each of these to another one, but for `a` itself, from which it goes on. -/
theorem climbs_iff {seen : List TypeName} (hnew : b ∉ seen)
    (hclosed : ∀ x ∈ seen, x ≠ a → ∃ y ∈ seen, h.Link x y) :
    h.climbs b seen a = true ↔ TransGen h.Link a b := by
  fun_induction climbs h b seen a with
  | case1 seen a hparent =>
    refine iff_of_false nofun fun hab => ?_
    obtain ⟨p, hp, -⟩ := TransGen.head'_iff.mp hab
    cases hparent.symm.trans hp
  | case2 seen a hparent => exact iff_of_true rfl (.single hparent)
  | case3 seen a p hparent hne hseen =>
    -- The walk is back at a class seen, so that all links from there on stay among those.
    refine iff_of_false nofun fun hab => hnew ?_
    obtain ⟨q, hq, hqb⟩ := TransGen.head'_iff.mp hab
    obtain rfl := Link.right_unique hparent hq
    refine mem_of_closed (fun x hx => ?_) hseen hqb
    by_cases hxa : x = a
    · exact ⟨p, hseen, hxa ▸ hparent⟩
    · exact hclosed x hx hxa
  | case4 seen a p hparent hne hseen _ ih =>
    have hrest : TransGen h.Link a b ↔ TransGen h.Link p b := by
      refine ⟨fun hab => ?_, .head hparent⟩
      obtain ⟨q, hq, hqb⟩ := TransGen.head'_iff.mp hab
      obtain rfl := Link.right_unique hparent hq
      exact (reflTransGen_iff_eq_or_transGen.mp hqb).resolve_left (Ne.symm hne)
    rw [hrest]
    refine ih (List.not_mem_cons_of_ne_of_not_mem (Ne.symm hne) hnew) fun x hx hxp => ?_
    have hx := (List.mem_cons.mp hx).resolve_left hxp
    by_cases hxa : x = a
    · exact ⟨p, List.mem_cons_self, hxa ▸ hparent⟩
    · obtain ⟨y, hy, hlink⟩ := hclosed x hx hxa
      exact ⟨y, List.mem_cons_of_mem _ hy, hlink⟩

/-- A class is below the others that parent links lead to, and below the root class. -/
theorem isSubtype_iff :
    h.isSubtype a b = true ↔ a ≠ b ∧ (b = throwable ∨ TransGen h.Link a b) := by
  rw [isSubtype, Bool.and_eq_true, decide_eq_true_iff, Bool.or_eq_true, decide_eq_true_iff,
    climbs_iff List.not_mem_nil (by simp)]

/-- The last of the declarations for `cls` gives it the parent `parent`. -/
def LastDeclared (pairs : List (TypeName × TypeName)) (cls parent : TypeName) : Prop :=
  ∃ older newer, pairs = older ++ (cls, parent) :: newer ∧ ∀ p ∈ newer, p.1 ≠ cls

theorem links_foldl_add (pairs : List (TypeName × TypeName)) (h : ClassHierarchy) :
    (pairs.foldl (fun h p => h.add p.1 p.2) h).links = pairs.reverse ++ h.links := by
  induction pairs generalizing h with
  | nil => rfl
  | cons p pairs ih =>
    rw [List.foldl_cons, ih, List.reverse_cons, List.append_assoc]
    rfl

theorem link_ofList_iff {pairs : List (TypeName × TypeName)} :
    (ofList pairs).Link a b ↔ LastDeclared pairs a b := by
  have hlinks : (ofList pairs).links = pairs.reverse :=
    (links_foldl_add pairs {}).trans (List.append_nil _)
  rw [Link, parent?, hlinks, List.lookup_eq_some_iff]
  -- The newest declaration stands first among the links and last among the pairs.
  constructor
  · rintro ⟨newer, older, hsplit, hnewer⟩
    refine ⟨older.reverse, newer.reverse, ?_, fun p hp => ?_⟩
    · rw [← List.reverse_reverse pairs, hsplit]
      simp
    · exact (bne_iff_ne.mp (hnewer p (List.mem_reverse.mp hp))).symm
  · rintro ⟨older, newer, rfl, hnewer⟩
    refine ⟨newer.reverse, older.reverse, by simp, fun p hp => ?_⟩
    exact bne_iff_ne.mpr (hnewer p (List.mem_reverse.mp hp)).symm

/-- In a hierarchy made by any declarations, repeated and cyclic ones included, a class is below
another one iff that is the root class or the last declarations lead to it. -/
theorem isSubtype_ofList_iff (pairs : List (TypeName × TypeName)) (sub super : TypeName) :
    (ofList pairs).isSubtype sub super = true ↔
      sub ≠ super ∧ (super = throwable ∨ TransGen (LastDeclared pairs) sub super) := by
  have hlink : (ofList pairs).Link = LastDeclared pairs :=
    funext fun _ => funext fun _ => propext link_ofList_iff
  rw [isSubtype_iff, hlink]

-- The links from `A` run into a cycle that `A` is not on, and its first parent is forgotten.
example : ["D", "C", "A", "E", throwable].map
    ((ofList [("A", "E"), ("B", "C"), ("C", "D"), ("D", "B"), ("A", "B")]).isSubtype "A") =
      [true, true, false, false, true] := by
  decide +kernel

/-- Links that start on a cycle lead back. -/
theorem reflTransGen_back (hcycle : TransGen h.Link a a) (hab : ReflTransGen h.Link a b) :
    ReflTransGen h.Link b a := by
  induction hab with
  | refl => exact .refl
  | tail _ hlink ih =>
    rcases ReflTransGen.cases_head ih with rfl | ⟨x, hx, hback⟩
    · obtain ⟨x, hx, hback⟩ := TransGen.head'_iff.mp hcycle
      rwa [hlink.right_unique hx]
    · rwa [hlink.right_unique hx]

/-- Below a class of finitely many, each of which has one of them below it, there is a cycle. -/
theorem exists_cycle_below {classes : List TypeName}
    (hbelow : ∀ x ∈ classes, ∃ y ∈ classes, TransGen h.Link y x) (hb : b ∈ classes) :
    ∃ a, TransGen h.Link a a ∧ ReflTransGen h.Link a b := by
  by_contra hnone
  let S := { x // x ∈ classes.toFinset ∧ ReflTransGen h.Link x b }
  let below (x y : S) : Prop := TransGen h.Link x.1 y.1
  have : Finite S := Finite.of_injective (fun x : S => (⟨x.1, x.2.1⟩ : classes.toFinset))
    fun x y hxy => Subtype.ext (congrArg (fun z => z.1) hxy)
  have : IsTrans S below := ⟨fun _ _ _ => .trans⟩
  have : Std.Irrefl below := ⟨fun x hx => hnone ⟨x.1, hx, x.2.2⟩⟩
  -- None of finitely many classes that lie in no cycle is the last one downwards.
  refine (Finite.wellFounded_of_trans_of_irrefl below).induction (C := fun _ => False)
    ⟨b, List.mem_toFinset.mpr hb, .refl⟩ fun x hlower => ?_
  obtain ⟨y, hy, hyx⟩ := hbelow x.1 (List.mem_toFinset.mp x.2.1)
  exact hlower ⟨y, List.mem_toFinset.mpr hy, hyx.to_reflTransGen.trans x.2.2⟩ hyx

end TryRegions.ClassHierarchy
