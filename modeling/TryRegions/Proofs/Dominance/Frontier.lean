import TryRegions.Proofs.Dominance.Queries

/-! Dominance frontiers. The dominance of a block ends at the blocks that it does not strictly
dominate although it dominates one that leads to them. The tree finds these by the ways up from the
blocks that lead to a join, where a join is a block that two reached blocks lead to. It misses the
enter block if only one of them does: there the paths that start at the enter block join those that
come back to it. -/

namespace TryRegions.Dominance

/-- The dominance of `x` ends at `y`. -/
def EndsAt (g : Graph) (root : BlockId → Prop) (x y : BlockId) : Prop :=
  (∃ p, y ∈ g.succs p ∧ Dominates g root x p) ∧ ¬StrictlyDominates g root x y

/-- Just one of the blocks that lead to `y` is reached. -/
def SingleEntry (g : Graph) (root : BlockId → Prop) (y : BlockId) : Prop :=
  ∃! p, y ∈ g.succs p ∧ Reached g root p

section Paths

variable {g : Graph} {root : BlockId → Prop} {x y p : BlockId}

theorem StrictlyDominates.of_preds (hreached : Reached g root y) (hroot : ¬root y) (hne : x ≠ y)
    (hpreds : ∀ p, y ∈ g.succs p → Reached g root p → Dominates g root x p) :
    StrictlyDominates g root x y := by
  refine ⟨⟨hreached, fun r hr blocks path => ?_⟩, hne⟩
  cases path with
  | start => exact absurd hr hroot
  | step path hy =>
    exact List.mem_append_left _ ((hpreds _ hy ⟨r, hr, _, path⟩).2 r hr _ path)

/-- The dominance of no block ends where just one block leads to, unless at a root. -/
theorem EndsAt.not_singleEntry {order : List BlockId} (ordered : Ordered g root order)
    (hends : EndsAt g root x y) (hroot : ¬root y) : ¬SingleEntry g root y := by
  rintro ⟨p, -, hunique⟩
  obtain ⟨⟨q, hq, hdom⟩, hnot⟩ := hends
  have hreached := hdom.1.step hq
  have hall : ∀ p, y ∈ g.succs p → Reached g root p → Dominates g root x p := by
    intro p' hp' hreached'
    rwa [hunique p' ⟨hp', hreached'⟩, ← hunique q ⟨hq, hdom.1⟩]
  refine hnot (.of_preds hreached hroot ?_ hall)
  rintro rfl
  obtain ⟨p', hp', hxp', hlt⟩ :=
    (ordered.exists_pred ((ordered.mem x).mpr hreached)).resolve_left hroot
  have hle := ordered.rankIn_le_of_dominates (hall p' hxp' ((ordered.mem p').mp hp'))
  exact absurd hlt (Nat.not_lt.mpr hle)

end Paths

section Tree

variable {g : Graph} (wf : g.WellFormed) (enter : Option BlockId) {x y p : BlockId}
include wf

/-- The parent of a block has above it the strict dominators of the block. -/
theorem aboveNode_parent_iff {n : Node}
    (hn : (DomTree.ofGraph g enter).parents[y]?.join = some n) :
    AboveNode (DomTree.ofGraph g enter).parents x n ↔
      StrictlyDominates g (IsRoot g enter) x y := by
  obtain ⟨_, _, sound, -⟩ := parents_sound wf enter
  rw [StrictlyDominates, ← above_iff_dominates wf enter (sound.upward.mem y n hn),
    aboveNode_of_parent hn]
  refine ⟨fun h => ⟨Or.inr h, ?_⟩, fun h => h.1.resolve_left h.2⟩
  rintro rfl
  cases n with
  | none => exact h
  | some d =>
    exact absurd (sound.upward.lower x d hn) (Nat.not_lt.mpr (Above.rankIn_le sound.upward h))

/-- The way up from a block that leads to `y` meets the blocks that dominate it, up to those that
strictly dominate `y`. -/
theorem mem_climb_pred (hy : y ∈ g.succs p) (hp : Reached g (IsRoot g enter) p) :
    x ∈ climb (DomTree.ofGraph g enter).parents
        ((DomTree.ofGraph g enter).parents[y]?.join) (g.size + 1) (some (some p)) ↔
      Dominates g (IsRoot g enter) x p ∧ ¬StrictlyDominates g (IsRoot g enter) x y := by
  have ordered := reversePostOrder_ordered wf enter
  obtain ⟨_, _, sound, hfound⟩ := parents_sound wf enter
  have hmem := (ordered.mem p).mpr hp
  obtain ⟨n, hn⟩ := hfound y ((ordered.mem y).mpr (hp.step hy))
  have hrank := rankIn_le_size wf enter p
  have hstop : ∀ d, (DomTree.ofGraph g enter).parents[y]?.join = some (some d) →
      Above (DomTree.ofGraph g enter).parents d p := by
    intro d hd
    have hstrict := (aboveNode_parent_iff wf enter hd).mp .self
    exact (above_iff_dominates wf enter hmem).mpr (hstrict.dominates_pred hy hp)
  rw [mem_climb sound.upward _ p (hfound p hmem) hstop (Nat.le_succ_of_le hrank),
    above_iff_dominates wf enter hmem, ← aboveNode_parent_iff wf enter hn, hn]
  simp

/-- The reached blocks that lead to `y`, as the tree looks at them. -/
theorem mem_reached_preds : p ∈ (g.preds y).filter (fun p =>
      decide (0 < rankOf (DomTree.ofGraph g enter).ranks (some p))) ↔
    y ∈ g.succs p ∧ Reached g (IsRoot g enter) p := by
  rw [List.mem_filter, ← wf.mirrored, ← isReachable_iff wf enter]
  rfl

theorem length_reached_preds_lt_two (hy : y ∈ g.succs p) (hp : Reached g (IsRoot g enter) p) :
    ((g.preds y).filter fun p =>
      decide (0 < rankOf (DomTree.ofGraph g enter).ranks (some p))).length < 2 ↔
    SingleEntry g (IsRoot g enter) y := by
  have hmem := (mem_reached_preds wf enter).mpr ⟨hy, hp⟩
  constructor
  · intro hlength
    have hone := Nat.le_antisymm (Nat.le_of_lt_succ hlength) (List.length_pos_of_mem hmem)
    obtain ⟨q, hq⟩ := List.length_eq_one_iff.mp hone
    rw [hq, List.mem_singleton] at hmem
    refine ⟨p, ⟨hy, hp⟩, fun p' hp' => ?_⟩
    have hmem' := (mem_reached_preds wf enter).mpr hp'
    rw [hq, List.mem_singleton] at hmem'
    exact hmem'.trans hmem.symm
  · rintro ⟨q, -, hunique⟩
    have hsub : ((g.preds y).filter fun p =>
        decide (0 < rankOf (DomTree.ofGraph g enter).ranks (some p))).Subperm [q] := by
      refine ((wf.preds_nodup y).filter _).subperm fun p' hp' => ?_
      exact List.mem_singleton.mpr (hunique p' ((mem_reached_preds wf enter).mp hp'))
    exact Nat.lt_succ_of_le hsub.length_le

/-- The tree holds `x` to be one of the blocks whose dominance ends at `y`. -/
theorem mem_frontierOf_iff : x ∈ frontierOf g (DomTree.ofGraph g enter).ranks
      (DomTree.ofGraph g enter).parents y ↔
    EndsAt g (IsRoot g enter) x y ∧ ¬SingleEntry g (IsRoot g enter) y := by
  rw [frontierOf]
  constructor
  · intro hx
    split at hx
    · cases hx
    · rename_i hjoin
      obtain ⟨p, hp, hclimb⟩ := List.mem_flatMap.mp hx
      obtain ⟨hy, hreached⟩ := (mem_reached_preds wf enter).mp hp
      obtain ⟨hdom, hnot⟩ := (mem_climb_pred wf enter hy hreached).mp hclimb
      refine ⟨⟨⟨p, hy, hdom⟩, hnot⟩, fun hsingle => hjoin ?_⟩
      exact (length_reached_preds_lt_two wf enter hy hreached).mpr hsingle
  · rintro ⟨⟨⟨p, hy, hdom⟩, hnot⟩, hjoin⟩
    have hlength := mt (length_reached_preds_lt_two wf enter hy hdom.1).mp hjoin
    rw [if_neg hlength]
    exact List.mem_flatMap.mpr ⟨p, (mem_reached_preds wf enter).mpr ⟨hy, hdom.1⟩,
      (mem_climb_pred wf enter hy hdom.1).mpr ⟨hdom, hnot⟩⟩

/-- The frontier of a block is where its dominance ends, but for an enter block that a single
reached block leads back to. -/
theorem mem_frontier_iff : y ∈ (DomTree.ofGraph g enter).frontier x ↔
    EndsAt g (IsRoot g enter) x y ∧
      ¬(enter = some y ∧ SingleEntry g (IsRoot g enter) y) := by
  have ordered := reversePostOrder_ordered wf enter
  rw [DomTree.mem_frontier, mem_frontierOf_iff wf enter]
  constructor
  · rintro ⟨-, -, -, -, hends, hjoin⟩
    exact ⟨hends, fun h => hjoin h.2⟩
  · rintro ⟨hends, hexcept⟩
    obtain ⟨p, hy, hdom⟩ := hends.1
    have hx := hdom.reached
    have hjoin : ¬SingleEntry g (IsRoot g enter) y := by
      by_cases hroot : IsRoot g enter y
      · -- A root that something leads to is the enter block.
        have hpreds : g.preds y ≠ [] := List.ne_nil_of_mem ((wf.mirrored p y).mp hy)
        exact fun hsingle => hexcept ⟨hroot.2.resolve_right hpreds, hsingle⟩
      · exact hends.not_singleEntry ordered hroot
    exact ⟨(isReachable_iff wf enter).mpr hx, order_lt wf enter x ((ordered.mem x).mpr hx),
      wf.succs_lt p y hy, (ordered.mem y).mpr (hdom.1.step hy), hends, hjoin⟩

end Tree

/-- A dominator tree is found for every well-formed graph, and its frontiers are where the dominance
of blocks ends, each block listed once in ascending order, roots and blocks that are not reached
included. The one exception is an enter block that a single reached block leads back to: no
frontier has it. -/
theorem build_frontier_exact (g : Graph) (wf : g.WellFormed) (enter : Option BlockId) :
    ∃ t, DomTree.build g enter = .ok t ∧ ∀ x, (t.frontier x).Pairwise (· < ·) ∧
      ∀ y, y ∈ t.frontier x ↔ EndsAt g (IsRoot g enter) x y ∧
        ¬(enter = some y ∧ SingleEntry g (IsRoot g enter) y) :=
  ⟨DomTree.ofGraph g enter, build_eq wf enter, fun x =>
    ⟨DomTree.frontier_ascending g enter x, fun _ => mem_frontier_iff wf enter⟩⟩

/-- Block 0 leads to block 1 and this one back to it. -/
def loopedBack : Graph :=
  (((({} : Graph).newBlock 0).newBlock 0).addEdge 0 1).addEdge 1 0

theorem loopedBack_wellFormed : loopedBack.WellFormed := by decide +kernel

/-- The dominance of block 1 ends at the enter block, which it leads back to, but its frontier is
empty. -/
theorem frontier_misses_enter :
    DomTree.build loopedBack (some 0) = .ok (DomTree.ofGraph loopedBack (some 0)) ∧
      EndsAt loopedBack (IsRoot loopedBack (some 0)) 1 0 ∧
      (DomTree.ofGraph loopedBack (some 0)).frontier 1 = [] := by
  have hself : Dominates loopedBack (IsRoot loopedBack (some 0)) 1 1 :=
    (dominates_iff loopedBack_wellFormed (some 0)).mp (by decide +kernel)
  refine ⟨build_eq loopedBack_wellFormed (some 0), ⟨⟨1, by decide +kernel, hself⟩, ?_⟩,
    by decide +kernel⟩
  exact fun hstrict => hstrict.not_root ⟨by decide +kernel, Or.inl rfl⟩

/-- The dominance of block 2 ends at block 1, with which it is on a cycle, and at block 5, which a
second root leads to. -/
theorem build_frontier_exact_crossing :
    crossing.WellFormed ∧ ∃ t, DomTree.build crossing (some 0) = .ok t ∧
      (∀ x, (t.frontier x).Pairwise (· < ·) ∧
        ∀ y, y ∈ t.frontier x ↔ EndsAt crossing (IsRoot crossing (some 0)) x y ∧
          ¬(some 0 = some y ∧ SingleEntry crossing (IsRoot crossing (some 0)) y)) ∧
      t.frontier 2 = [1, 5] ∧ EndsAt crossing (IsRoot crossing (some 0)) 2 1 ∧
      EndsAt crossing (IsRoot crossing (some 0)) 2 5 := by
  obtain ⟨t, ht, hall⟩ := build_frontier_exact crossing crossing_wellFormed (some 0)
  obtain rfl : DomTree.ofGraph crossing (some 0) = t :=
    Except.ok.inj ((build_eq crossing_wellFormed (some 0)).symm.trans ht)
  have hfrontier : (DomTree.ofGraph crossing (some 0)).frontier 2 = [1, 5] := by decide +kernel
  have hends : ∀ y ∈ [1, 5], EndsAt crossing (IsRoot crossing (some 0)) 2 y := fun y hy =>
    (((hall 2).2 y).mp (hfrontier ▸ hy)).1
  exact ⟨crossing_wellFormed, _, ht, hall, hfrontier, hends 1 (by simp), hends 5 (by simp)⟩

end TryRegions.Dominance
