import TryRegions.Proofs.Dominance.Termination
import TryRegions.Proofs.Graph.Edits

/-! The dominator tree of a well-formed graph is exact: what it answers about reachability,
dominance and immediate dominators is what the paths from the roots say. -/

namespace TryRegions.Dominance

theorem climb_top (parents : Parents) (stop : Option Node) (fuel : Nat) :
    climb parents stop fuel (some none) = [] := by
  cases fuel <;> rfl

/-- The way up from a block to a node above it, with fuel for its rank, is what is above the block
and not above that node. -/
theorem mem_climb {order : List BlockId} {parents : Parents} (upward : Upward order parents)
    {x : BlockId} {stop : Option Node} (fuel : Nat) (b : BlockId) (hb : Found parents (some b))
    (hstop : ∀ d, stop = some (some d) → Above parents d b) (hfuel : rankIn order b ≤ fuel) :
    x ∈ climb parents stop fuel (some (some b)) ↔
      Above parents x b ∧ ∀ n, stop = some n → ¬AboveNode parents x n := by
  induction fuel generalizing b with
  | zero =>
    obtain ⟨n, hn⟩ := hb
    have := rankIn_pos.mpr (upward.mem b n hn)
    omega
  | succ fuel ih =>
    rw [climb]
    by_cases hend : stop = some (some b)
    · rw [if_pos hend]
      exact iff_of_false List.not_mem_nil fun h => h.2 _ hend h.1
    obtain ⟨n, hn⟩ := hb
    have hparent : ∀ d, stop = some (some d) → AboveNode parents d n := by
      intro d hd
      refine ((aboveNode_of_parent hn).mp (hstop d hd)).resolve_left ?_
      rintro rfl
      exact hend hd
    have hself : ∀ m, stop = some m → ¬AboveNode parents b m := by
      intro m hm hb
      cases m with
      | none => exact hb
      | some d =>
        cases n with
        | none => exact hparent d hm
        | some p =>
          have hle := (Above.rankIn_le upward hb).trans (Above.rankIn_le upward (hparent d hm))
          exact absurd (upward.lower b p hn) (Nat.not_lt.mpr hle)
    have hrest : x ∈ climb parents stop fuel (some n) ↔
        AboveNode parents x n ∧ ∀ m, stop = some m → ¬AboveNode parents x m := by
      cases n with
      | none =>
        rw [climb_top]
        exact iff_of_false List.not_mem_nil And.left
      | some p =>
        have hlt := upward.lower b p hn
        exact ih p (upward.found b _ hn) hparent (by omega)
    rw [if_neg hend, hn, aboveNode_of_parent hn, List.mem_cons, hrest]
    constructor
    · rintro (rfl | ⟨habove, hnot⟩)
      · exact ⟨Or.inl rfl, hself⟩
      · exact ⟨Or.inr habove, hnot⟩
    · rintro ⟨heq | habove, hnot⟩
      · exact Or.inl heq
      · exact Or.inr ⟨habove, hnot⟩

theorem size_ranks (g : Graph) (enter : Option BlockId) :
    (DomTree.ofGraph g enter).ranks.size = g.size := by
  simp [DomTree.ofGraph, ranks]

section

variable {g : Graph} (wf : g.WellFormed) (enter : Option BlockId)
include wf

theorem order_lt : ∀ b ∈ reversePostOrder g (roots g enter), b < g.size :=
  order_lt_of_mirrored wf.mirrors enter

theorem rankIn_le_size (b : BlockId) : rankIn (DomTree.ofGraph g enter).order b ≤ g.size :=
  (rankIn_le_length _ b).trans (order_length_le_of_mirrored wf.mirrors enter)

/-- The parents of the tree account for all paths that meet no block twice. -/
theorem parents_sound :
    ∃ k, g.size < k ∧
      Sound g (IsRoot g enter) (DomTree.ofGraph g enter).order (fun _ => k)
        (DomTree.ofGraph g enter).parents ∧
      ∀ b ∈ (DomTree.ofGraph g enter).order, Found (DomTree.ofGraph g enter).parents (some b) := by
  refine ⟨g.size + 1, Nat.lt_succ_self _, ?_⟩
  obtain ⟨sound, hfound⟩ := iterate_looks_sound wf.mirrors enter (g.size + 1)
  rw [parents_eq wf.mirrors enter, ← iterate_looks_fixed wf.mirrors enter]
  exact ⟨sound, hfound (Nat.succ_pos _)⟩

theorem ranks_ofGraph :
    RanksOf (DomTree.ofGraph g enter).order (DomTree.ofGraph g enter).ranks :=
  ranksOf_of_mirrored wf.mirrors enter

/-- In the tree the blocks above a block are its dominators. -/
theorem above_iff_dominates {a b : BlockId} (hb : b ∈ (DomTree.ofGraph g enter).order) :
    Above (DomTree.ofGraph g enter).parents a b ↔ Dominates g (IsRoot g enter) a b := by
  obtain ⟨k, hk, sound, hfound⟩ := parents_sound wf enter
  exact sound.above_iff_dominates wf.mirrors (reversePostOrder_ordered wf enter)
    (fun _ hr => Graph.lt_of_isLive hr.1) (Nat.le_of_lt hk) (hfound b hb)

theorem strictlyDominates_of_parent {b p : BlockId}
    (hp : (DomTree.ofGraph g enter).parents[b]?.join = some (some p)) :
    StrictlyDominates g (IsRoot g enter) p b := by
  obtain ⟨k, hk, sound, -⟩ := parents_sound wf enter
  exact sound.strictlyDominates wf.mirrors (reversePostOrder_ordered wf enter)
    (fun _ hr => Graph.lt_of_isLive hr.1) (Nat.le_of_lt hk) hp

theorem isReachable_iff {b : BlockId} :
    (DomTree.ofGraph g enter).isReachable b = true ↔ Reached g (IsRoot g enter) b := by
  rw [DomTree.isReachable, decide_eq_true_eq, ranks_ofGraph wf enter, rankIn_pos]
  exact (reversePostOrder_ordered wf enter).mem b

theorem dominates_iff {a b : BlockId} :
    (DomTree.ofGraph g enter).dominates a b = true ↔ Dominates g (IsRoot g enter) a b := by
  rw [DomTree.dominates, decide_eq_true_eq, DomTree.dominators]
  by_cases hb : (DomTree.ofGraph g enter).isReachable b = true
  · have hmem : b ∈ (DomTree.ofGraph g enter).order :=
      ((reversePostOrder_ordered wf enter).mem b).mpr ((isReachable_iff wf enter).mp hb)
    obtain ⟨k, hk, sound, hfound⟩ := parents_sound wf enter
    have hrank := rankIn_le_size wf enter b
    rw [if_pos hb, size_ranks,
      mem_climb sound.upward _ b (hfound b hmem) (by simp) (Nat.le_succ_of_le hrank),
      above_iff_dominates wf enter hmem]
    simp
  · rw [if_neg hb]
    constructor
    · intro h
      cases h
    · intro h
      exact absurd ((isReachable_iff wf enter).mpr h.1) hb

theorem parent?_eq_some_iff {b d : BlockId} :
    (DomTree.ofGraph g enter).parent? b = some d ↔
      ImmediatelyDominates g (IsRoot g enter) d b := by
  obtain ⟨k, hk, sound, hfound⟩ := parents_sound wf enter
  rw [DomTree.parent?]
  constructor
  · intro h
    by_cases hb : (DomTree.ofGraph g enter).isReachable b = true
    · have hmem := ((reversePostOrder_ordered wf enter).mem b).mpr
        ((isReachable_iff wf enter).mp hb)
      obtain ⟨n, hn⟩ := hfound b hmem
      rw [if_pos hb, hn, Option.join_some] at h
      subst h
      refine ⟨strictlyDominates_of_parent wf enter hn, fun e he _ => ?_⟩
      obtain ⟨p, hp, hdom⟩ := sound.kept b _ e hn he
      cases hp
      exact hdom
    · rw [if_neg hb] at h
      cases h
  · rintro ⟨hd, himm⟩
    have hmem := ((reversePostOrder_ordered wf enter).mem b).mpr hd.1.1
    obtain ⟨n, hn⟩ := hfound b hmem
    obtain ⟨p, rfl, hdp⟩ := sound.kept b n d hn hd
    have hp := strictlyDominates_of_parent wf enter hn
    have hpd : p = d := by
      by_contra hne
      exact hne ((reversePostOrder_ordered wf enter).dominates_antisymm (himm p hp hne) hdp)
    rw [if_pos ((isReachable_iff wf enter).mpr hd.1.1), hn, hpd]
    rfl

theorem parent?_eq_none_iff {b : BlockId} :
    (DomTree.ofGraph g enter).parent? b = none ↔
      ¬Reached g (IsRoot g enter) b ∨ ¬∃ d, StrictlyDominates g (IsRoot g enter) d b := by
  obtain ⟨k, hk, sound, hfound⟩ := parents_sound wf enter
  rw [DomTree.parent?]
  by_cases hb : (DomTree.ofGraph g enter).isReachable b = true
  · have hreached := (isReachable_iff wf enter).mp hb
    have hmem := ((reversePostOrder_ordered wf enter).mem b).mpr hreached
    obtain ⟨n, hn⟩ := hfound b hmem
    rw [if_pos hb, hn, Option.join_some]
    constructor
    · rintro rfl
      refine Or.inr ?_
      rintro ⟨d, hd⟩
      obtain ⟨p, hp, _⟩ := sound.kept b _ d hn hd
      cases hp
    · rintro (h | h)
      · exact absurd hreached h
      · cases n with
        | none => rfl
        | some p => exact absurd ⟨p, strictlyDominates_of_parent wf enter hn⟩ h
  · rw [if_neg hb]
    exact ⟨fun _ => Or.inl fun h => hb ((isReachable_iff wf enter).mpr h), fun _ => rfl⟩

/-- No tree of a well-formed graph is refused. -/
theorem build_eq : DomTree.build g enter = .ok (DomTree.ofGraph g enter) := by
  obtain ⟨k, hk, sound, _⟩ := parents_sound wf enter
  have hfirst : (DomTree.ofGraph g enter).parentsFirst = true := by
    refine List.all_eq_true.mpr fun b _ => ?_
    split
    · rename_i p hp
      have hlt := sound.upward.lower b p hp
      rw [decide_eq_true_eq, ranks_ofGraph wf enter, ranks_ofGraph wf enter]
      exact hlt
    · rfl
  rw [DomTree.build, if_pos hfirst]

end

/-- A dominator tree is found for every well-formed graph, whatever its shape and its enter block,
and it is exact: it knows the blocks that paths lead to from the roots, which blocks lie on all
paths to another one, and which strict dominator of a block is dominated by all others. -/
theorem build_exact (g : Graph) (wf : g.WellFormed) (enter : Option BlockId) :
    ∃ t, DomTree.build g enter = .ok t ∧
      (∀ b, t.isReachable b = true ↔ Reached g (IsRoot g enter) b) ∧
      (∀ a b, t.dominates a b = true ↔ Dominates g (IsRoot g enter) a b) ∧
      (∀ b d, t.parent? b = some d ↔ ImmediatelyDominates g (IsRoot g enter) d b) ∧
      (∀ b, t.parent? b = none ↔
        ¬Reached g (IsRoot g enter) b ∨ ¬∃ d, StrictlyDominates g (IsRoot g enter) d b) :=
  ⟨DomTree.ofGraph g enter, build_eq wf enter, fun _ => isReachable_iff wf enter,
    fun _ _ => dominates_iff wf enter, fun _ _ => parent?_eq_some_iff wf enter,
    fun _ => parent?_eq_none_iff wf enter⟩

/-- Block 0 leads to the blocks 1 and 2, which lead to each other, so that neither dominates the
other. Block 5 is led to from block 2 and from block 3, which is a root as well; block 4 leads to
itself only and is reached from nowhere. -/
def crossing : Graph :=
  ((((((((((((({} : Graph).newBlock 0).newBlock 0).newBlock 0).newBlock 0).newBlock 0).newBlock
    0).addEdge 0 1).addEdge 0 2).addEdge 1 2).addEdge 2 1).addEdge 2 5).addEdge 3 5).addEdge 4 4

theorem crossing_wellFormed : crossing.WellFormed := by decide +kernel

/-- Block 0 is the parent of block 2, block 5 has none although it is reached, and block 4 is not
reached. -/
theorem build_exact_crossing :
    crossing.WellFormed ∧ ∃ t, DomTree.build crossing (some 0) = .ok t ∧
      t.parent? 2 = some 0 ∧ ImmediatelyDominates crossing (IsRoot crossing (some 0)) 0 2 ∧
      t.dominates 1 2 = false ∧ ¬Dominates crossing (IsRoot crossing (some 0)) 1 2 ∧
      t.parent? 5 = none ∧ Reached crossing (IsRoot crossing (some 0)) 5 ∧
      (¬∃ d, StrictlyDominates crossing (IsRoot crossing (some 0)) d 5) ∧
      t.isReachable 4 = false ∧ ¬Reached crossing (IsRoot crossing (some 0)) 4 := by
  obtain ⟨t, ht, hreachable, hdominates, hparent, hnone⟩ :=
    build_exact crossing crossing_wellFormed (some 0)
  obtain rfl : DomTree.ofGraph crossing (some 0) = t :=
    Except.ok.inj ((build_eq crossing_wellFormed (some 0)).symm.trans ht)
  have hidom : (DomTree.ofGraph crossing (some 0)).parent? 2 = some 0 := by decide +kernel
  have hside : (DomTree.ofGraph crossing (some 0)).dominates 1 2 = false := by decide +kernel
  have htop : (DomTree.ofGraph crossing (some 0)).parent? 5 = none := by decide +kernel
  have hreached : Reached crossing (IsRoot crossing (some 0)) 5 :=
    (hreachable 5).mp (by decide +kernel)
  have hlost : (DomTree.ofGraph crossing (some 0)).isReachable 4 = false := by decide +kernel
  refine ⟨crossing_wellFormed, _, ht, hidom, (hparent 2 0).mp hidom, hside, ?_, htop, hreached,
    ((hnone 5).mp htop).resolve_left (not_not_intro hreached), hlost, ?_⟩
  · rw [← hdominates 1 2, hside]
    exact Bool.false_ne_true
  · rw [← hreachable 4, hlost]
    exact Bool.false_ne_true

end TryRegions.Dominance
