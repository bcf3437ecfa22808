import TryRegions.Proofs.Dominance.Queries

/-! Lowest common dominators. The dominators of a block form a chain, met from the block upwards, so
the first one on the way that dominates other blocks too is dominated by all that do so. It is also
the last of them in reverse post-order. -/

namespace TryRegions.Dominance

/-- What comes later on the way up is above what comes before. -/
theorem pairwise_climb {order : List BlockId} {parents : Parents} (upward : Upward order parents)
    (fuel : Nat) (b : BlockId) (hb : Found parents (some b)) (hfuel : rankIn order b ≤ fuel) :
    (climb parents none fuel (some (some b))).Pairwise fun x y => Above parents y x := by
  induction fuel generalizing b with
  | zero => exact List.Pairwise.nil
  | succ fuel ih =>
    have habove : ∀ y ∈ climb parents none (fuel + 1) (some (some b)), Above parents y b :=
      fun y hy => ((mem_climb upward (fuel + 1) b hb (by simp) hfuel).mp hy).1
    obtain ⟨n, hn⟩ := hb
    rw [climb, if_neg (by simp), hn] at habove ⊢
    refine List.Pairwise.cons (fun y hy => habove y (List.mem_cons_of_mem _ hy)) ?_
    cases n with
    | none =>
      rw [climb_top]
      exact List.Pairwise.nil
    | some p =>
      have hlt := upward.lower b p hn
      exact ih p (upward.found b _ hn) (by omega)

section Tree

variable {g : Graph} (wf : g.WellFormed) (enter : Option BlockId) {blocks : List BlockId}
  {b c d : BlockId}
include wf

theorem mem_dominators_iff :
    d ∈ (DomTree.ofGraph g enter).dominators b ↔ Dominates g (IsRoot g enter) d b := by
  rw [← dominates_iff wf enter, DomTree.dominates, decide_eq_true_eq]

/-- The dominators of a block are listed so that each is dominated by those after it. -/
theorem pairwise_dominators : ((DomTree.ofGraph g enter).dominators b).Pairwise fun x y =>
    Dominates g (IsRoot g enter) y x := by
  have ordered := reversePostOrder_ordered wf enter
  obtain ⟨_, _, sound, hfound⟩ := parents_sound wf enter
  have hclimb : ((DomTree.ofGraph g enter).dominators b).Pairwise fun x y =>
      Above (DomTree.ofGraph g enter).parents y x := by
    rw [DomTree.dominators]
    split
    · rename_i hb
      have hmem := (ordered.mem b).mpr ((isReachable_iff wf enter).mp hb)
      rw [size_ranks]
      exact pairwise_climb sound.upward _ b (hfound b hmem)
        (Nat.le_succ_of_le (rankIn_le_size wf enter b))
    · exact List.Pairwise.nil
  refine hclimb.imp_of_mem fun hx _ habove => ?_
  have hreached := ((mem_dominators_iff wf enter).mp hx).reached
  exact (above_iff_dominates wf enter ((ordered.mem _).mpr hreached)).mp habove

/-- What is found dominates all blocks, and all that does so dominates it. -/
theorem of_commonDominator (hd : (DomTree.ofGraph g enter).commonDominator blocks = some d) :
    (∀ b ∈ blocks, Dominates g (IsRoot g enter) d b) ∧
      ∀ c, (∀ b ∈ blocks, Dominates g (IsRoot g enter) c b) →
        Dominates g (IsRoot g enter) c d := by
  cases blocks with
  | nil => cases hd
  | cons b bs =>
    obtain ⟨hall, before, after, hsplit, hbefore⟩ := List.find?_eq_some_iff_append.mp hd
    have hchain := pairwise_dominators wf enter (b := b)
    rw [hsplit] at hchain
    have hdb : Dominates g (IsRoot g enter) d b := by
      rw [← mem_dominators_iff wf enter, hsplit]
      exact List.mem_append_right _ List.mem_cons_self
    refine ⟨fun x hx => ?_, fun c hc => ?_⟩
    · rcases List.mem_cons.mp hx with rfl | hx
      · exact hdb
      · exact (dominates_iff wf enter).mp (List.all_eq_true.mp hall x hx)
    · have hmem : c ∈ before ++ d :: after := by
        rw [← hsplit]
        exact (mem_dominators_iff wf enter).mpr (hc b List.mem_cons_self)
      rcases List.mem_append.mp hmem with hmem | hmem
      · -- The blocks met before do not dominate all of the others.
        have hall : bs.all (fun x => (DomTree.ofGraph g enter).dominates c x) = true :=
          List.all_eq_true.mpr fun x hx =>
            (dominates_iff wf enter).mpr (hc x (List.mem_cons_of_mem _ hx))
        have hnot := hbefore c hmem
        rw [hall] at hnot
        cases hnot
      · rcases List.mem_cons.mp hmem with rfl | hmem
        · exact ⟨hdb.reached, fun _ _ _ path => path.target_mem⟩
        · exact (List.pairwise_cons.mp (List.pairwise_append.mp hchain).2.1).1 c hmem

theorem commonDominator_eq_none_iff (hblocks : blocks ≠ []) :
    (DomTree.ofGraph g enter).commonDominator blocks = none ↔
      ¬∃ d, ∀ b ∈ blocks, Dominates g (IsRoot g enter) d b := by
  obtain ⟨b, bs, rfl⟩ := List.exists_cons_of_ne_nil hblocks
  constructor
  · rintro hnone ⟨d, hd⟩
    have hmem := (mem_dominators_iff wf enter).mpr (hd b List.mem_cons_self)
    refine List.find?_eq_none.mp hnone d hmem (List.all_eq_true.mpr fun x hx => ?_)
    exact (dominates_iff wf enter).mpr (hd x (List.mem_cons_of_mem _ hx))
  · intro hnone
    refine Option.eq_none_iff_forall_ne_some.mpr fun d hd => hnone ⟨d, ?_⟩
    exact (of_commonDominator wf enter hd).1

end Tree

/-- A dominator tree is found for every well-formed graph, and the common dominator that it names is
the lowest one: none is named just if there are no blocks, or one of them is not reached, or no
block dominates all of them; otherwise the one named dominates all of them, and every block that
does so dominates it and comes no later in reverse post-order. -/
theorem build_commonDominator_lowest (g : Graph) (wf : g.WellFormed) (enter : Option BlockId) :
    ∃ t, DomTree.build g enter = .ok t ∧ ∀ blocks,
      (t.commonDominator blocks = none ↔ blocks = [] ∨
        (∃ b ∈ blocks, ¬Reached g (IsRoot g enter) b) ∨
          ¬∃ d, ∀ b ∈ blocks, Dominates g (IsRoot g enter) d b) ∧
      ∀ d, t.commonDominator blocks = some d →
        (∀ b ∈ blocks, Dominates g (IsRoot g enter) d b) ∧
          ∀ c, (∀ b ∈ blocks, Dominates g (IsRoot g enter) c b) →
            Dominates g (IsRoot g enter) c d ∧
              rankOf t.ranks (some c) ≤ rankOf t.ranks (some d) := by
  refine ⟨DomTree.ofGraph g enter, build_eq wf enter, fun blocks => ⟨?_, fun d hd => ?_⟩⟩
  · by_cases hblocks : blocks = []
    · subst hblocks
      exact ⟨fun _ => Or.inl rfl, fun _ => rfl⟩
    rw [commonDominator_eq_none_iff wf enter hblocks]
    refine ⟨fun h => Or.inr (Or.inr h), ?_⟩
    rintro (h | ⟨b, hb, hnot⟩ | h)
    · exact absurd h hblocks
    · exact fun ⟨d, hd⟩ => hnot (hd b hb).1
    · exact h
  · obtain ⟨hcommon, hlowest⟩ := of_commonDominator wf enter hd
    refine ⟨hcommon, fun c hc => ⟨hlowest c hc, ?_⟩⟩
    rw [ranks_ofGraph wf enter, ranks_ofGraph wf enter]
    exact (reversePostOrder_ordered wf enter).rankIn_le_of_dominates (hlowest c hc)

/-- Block 0 is the lowest block that dominates the blocks 1 and 2; none dominates both block 2 and
block 5, which a second root leads to. -/
theorem build_commonDominator_lowest_crossing :
    crossing.WellFormed ∧ ∃ t, DomTree.build crossing (some 0) = .ok t ∧
      t.commonDominator [1, 2] = some 0 ∧
      (∀ b ∈ [1, 2], Dominates crossing (IsRoot crossing (some 0)) 0 b) ∧
      (∀ c, (∀ b ∈ [1, 2], Dominates crossing (IsRoot crossing (some 0)) c b) →
        Dominates crossing (IsRoot crossing (some 0)) c 0) ∧
      t.commonDominator [2, 5] = none ∧
      ¬∃ d, ∀ b ∈ [2, 5], Dominates crossing (IsRoot crossing (some 0)) d b := by
  obtain ⟨t, ht, hall⟩ := build_commonDominator_lowest crossing crossing_wellFormed (some 0)
  obtain rfl : DomTree.ofGraph crossing (some 0) = t :=
    Except.ok.inj ((build_eq crossing_wellFormed (some 0)).symm.trans ht)
  have hsome : (DomTree.ofGraph crossing (some 0)).commonDominator [1, 2] = some 0 := by
    decide +kernel
  have hnone : (DomTree.ofGraph crossing (some 0)).commonDominator [2, 5] = none := by
    decide +kernel
  obtain ⟨hcommon, hlowest⟩ := (hall [1, 2]).2 0 hsome
  refine ⟨crossing_wellFormed, _, ht, hsome, hcommon, fun c hc => (hlowest c hc).1, hnone, ?_⟩
  rcases (hall [2, 5]).1.mp hnone with hempty | ⟨b, hb, hlost⟩ | hapart
  · cases hempty
  · exact fun ⟨d, hd⟩ => hlost (hd b hb).1
  · exact hapart

end TryRegions.Dominance
