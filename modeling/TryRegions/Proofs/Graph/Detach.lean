import TryRegions.Proofs.Graph.Live

/-! What is left when the marked blocks are detached: the lists of the other blocks without the
flagged ones, in their order, and nothing else is changed. Marked blocks may lead to each other and
to themselves. -/

namespace TryRegions.Graph

variable {g : Graph} {b : BlockId}

/-- The blocks of the list that are not flagged for removal, in their order. -/
def unflagged (g : Graph) (l : List BlockId) : List BlockId :=
  l.filter fun b => !(g.flags b).remove

/-- The clean successors of every block are some of its successors, in their order. -/
def CleanSublist (g : Graph) : Prop := ∀ b, (g.clean b).Sublist (g.succs b)

theorem cleanSublist_iff : g.CleanSublist ↔ ∀ b < g.size, (g.clean b).Sublist (g.succs b) := by
  refine ⟨fun h b _ => h b, fun h b => ?_⟩
  by_cases hb : b < g.size
  · exact h b hb
  · have hnil : g.clean b = [] := by
      apply List.eq_nil_iff_forall_not_mem.mpr
      intro c hc
      exact hb (lt_of_mem_clean hc)
    rw [hnil]
    exact List.nil_sublist _

instance (g : Graph) : Decidable g.CleanSublist := decidable_of_iff _ cleanSublist_iff.symm

/-- The version changes just if there is something to detach. -/
theorem version_detachMarked_iff (wf : g.WellFormed) :
    g.detachMarked.version ≠ g.version ↔ ∃ b, g.Marked b := by
  constructor
  · intro hversion
    by_contra hnone
    exact hversion (congrArg version (detachMarked_eq_self wf (not_exists.mp hnone)))
  · rintro ⟨b, hb⟩
    rcases g.detachMarked_version with hsame | hlt
    · have hnot := not_marked_detachMarked wf b
      rw [hsame] at hnot
      exact absurd hb hnot
    · exact Nat.ne_of_gt hlt

section Lists

variable (wf : g.WellFormed) (hedges : g.EdgesLive) (hclean : g.CleanSublist)
include wf hclean

theorem lists_detachMarked (b : BlockId) :
    g.detachMarked.preds b =
        (g.preds b).filter (fun a => decide (a ∉ g.marked) && decide (b ∉ g.marked)) ∧
      g.detachMarked.succs b =
        (g.succs b).filter (fun c => decide (b ∉ g.marked) && decide (c ∉ g.marked)) ∧
      g.detachMarked.clean b =
        (g.clean b).filter fun c => decide (b ∉ g.marked) && decide (c ∉ g.marked) := by
  obtain ⟨-, -, hstruck⟩ := g.struck_edges
  obtain ⟨hsuccs, hpreds, hclean'⟩ := hstruck b
  have cut := detachMarked_filtered wf
  have hsub : (g.struck.clean b).Sublist (g.struck.succs b) := by
    rw [hclean', hsuccs]
    exact hclean b
  exact ⟨hpreds ▸ cut.preds b, hsuccs ▸ cut.succs b, hclean' ▸ cut.clean b hsub⟩

theorem lists_of_marked (hb : g.Marked b) :
    g.detachMarked.preds b = [] ∧ g.detachMarked.succs b = [] ∧ g.detachMarked.clean b = [] := by
  obtain ⟨hpreds, hsuccs, hclean'⟩ := lists_detachMarked wf hclean b
  have hmem := wf.mem_marked.mpr hb
  rw [hpreds, hsuccs, hclean']
  simp [hmem]

include hedges in
/-- Blocks that an edge leads to or from are live, so they are marked if they are flagged. -/
theorem lists_of_not_marked (hb : ¬g.Marked b) :
    g.detachMarked.preds b = g.unflagged (g.preds b) ∧
      g.detachMarked.succs b = g.unflagged (g.succs b) ∧
      g.detachMarked.clean b = g.unflagged (g.clean b) := by
  obtain ⟨hpreds, hsuccs, hclean'⟩ := lists_detachMarked wf hclean b
  have hmem : b ∉ g.marked := mt wf.mem_marked.mp hb
  have hflagged : ∀ c, g.isLive c = true → (decide (c ∉ g.marked) = !(g.flags c).remove) := by
    intro c hc
    cases hflag : (g.flags c).remove <;> simp [wf.mem_marked, Marked, hc, hflag]
  rw [hpreds, hsuccs, hclean']
  refine ⟨List.filter_congr fun a ha => ?_, List.filter_congr fun c hc => ?_,
    List.filter_congr fun c hc => ?_⟩
  · have hlive := (hedges a b ((wf.mirrored a b).mpr ha)).1
    simp [hmem, ← hflagged a hlive]
  · have hlive := (hedges b c hc).2
    simp [hmem, ← hflagged c hlive]
  · have hlive := (hedges b c ((hclean b).subset hc)).2
    simp [hmem, ← hflagged c hlive]

end Lists

/-- Detaching takes the marked blocks away and nothing else, for a well-formed graph whose edges
join live blocks and whose clean edges are edges in their order. The live blocks are those of before
without the flagged ones. A marked block is live no more and has no edges left; the lists of any
other block are those of before without the flagged blocks, in their order. Besides the sign that
the marked blocks are detached, no block changes; the version changes just if some block was marked;
and to do it again changes nothing. -/
theorem detachMarked_exact (g : Graph) (wf : g.WellFormed) (hedges : g.EdgesLive)
    (hclean : g.CleanSublist) :
    g.detachMarked.live = g.unflagged g.live ∧
      (∀ b, g.Marked b → g.detachMarked.isLive b = false ∧ g.detachMarked.preds b = [] ∧
        g.detachMarked.succs b = [] ∧ g.detachMarked.clean b = []) ∧
      (∀ b, ¬g.Marked b → g.detachMarked.preds b = g.unflagged (g.preds b) ∧
        g.detachMarked.succs b = g.unflagged (g.succs b) ∧
        g.detachMarked.clean b = g.unflagged (g.clean b)) ∧
      g.detachMarked.size = g.size ∧
      (∀ b, ¬g.Marked b → g.detachMarked.core b = g.core b) ∧
      (∀ b, g.Marked b →
        g.detachMarked.core b = (g.core b).map fun k => { k with detached := true }) ∧
      (g.detachMarked.version ≠ g.version ↔ ∃ b, g.Marked b) ∧
      g.detachMarked.detachMarked = g.detachMarked := by
  have gone := detachMarked_detached wf
  have hlive := (detachMarked_filtered wf).live.trans g.struck_edges.2.1
  refine ⟨hlive, fun b hb => ⟨?_, lists_of_marked wf hclean hb⟩,
    fun b hb => lists_of_not_marked wf hedges hclean hb, gone.size, gone.core_kept,
    gone.core_gone, version_detachMarked_iff wf, ?_⟩
  · exact Bool.eq_false_iff.mpr (not_isLive_detachMarked wf hb)
  · exact detachMarked_eq_self gone.wellFormed (not_marked_detachMarked wf)

/-- Block 0 leads to the blocks 1, 3 and 2. The blocks 1 and 2 lead to each other and to block 3,
and block 1 to itself; both are flagged for removal after the clean edges were computed. -/
def doomed : Graph :=
  let wired := (((((((((((({} : Graph).newBlock 0).newBlock 0).newBlock 0).newBlock 0).addEdge 1
    3).addEdge 0 1).addEdge 0 3).addEdge 0 2).addEdge 1 1).addEdge 1 2).addEdge 2 1).addEdge 2 3
  (wired.refreshAll.modify 1 (·.addFlags { remove := true })).modify 2
    (·.addFlags { remove := true })

theorem detachMarked_exact_doomed :
    doomed.WellFormed ∧ doomed.EdgesLive ∧ doomed.CleanSublist ∧ doomed.Marked 1 ∧
      doomed.Marked 2 ∧ ¬doomed.Marked 0 ∧ doomed.clean 0 = [1, 3, 2] ∧
      doomed.detachMarked.live = [0, 3] ∧
      (doomed.detachMarked.isLive 1 = false ∧ doomed.detachMarked.preds 1 = [] ∧
        doomed.detachMarked.succs 1 = [] ∧ doomed.detachMarked.clean 1 = []) ∧
      doomed.detachMarked.clean 0 = [3] ∧ doomed.detachMarked.version ≠ doomed.version := by
  have wf : doomed.WellFormed := by decide +kernel
  have hedges : doomed.EdgesLive := by decide +kernel
  have hclean : doomed.CleanSublist := by decide +kernel
  have hmarked : doomed.Marked 1 := by decide +kernel
  have hkept : ¬doomed.Marked 0 := by decide +kernel
  obtain ⟨hlive, hgone, hlists, -, -, -, hversion, -⟩ := detachMarked_exact doomed wf hedges hclean
  exact ⟨wf, hedges, hclean, hmarked, by decide +kernel, hkept, by decide +kernel,
    hlive.trans (by decide +kernel), hgone 1 hmarked,
    (hlists 0 hkept).2.2.trans (by decide +kernel), hversion.mpr ⟨1, hmarked⟩⟩

end TryRegions.Graph
