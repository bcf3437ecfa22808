import TryRegions.Proofs.Dominance.Queries
import TryRegions.Proofs.Graph.Distance
import TryRegions.Proofs.Graph.Trace

/-! Graphs whose edges join live blocks. Edits keep them so, as long as what they join is live. What
edges and clean edges lead to is live then, and so is a block where paths join. -/

namespace TryRegions

open Relation

namespace Graph

variable {g g' : Graph} {a b : BlockId}

/-- Every edge joins two live blocks. -/
def EdgesLive (g : Graph) : Prop :=
  ∀ a, ∀ b ∈ g.succs a, g.isLive a = true ∧ g.isLive b = true

theorem edgesLive_iff :
    g.EdgesLive ↔ ∀ a < g.size, ∀ b ∈ g.succs a, g.isLive a = true ∧ g.isLive b = true :=
  ⟨fun h a _ => h a, fun h a b hb => h a (lt_of_mem_succs hb) b hb⟩

instance (g : Graph) : Decidable g.EdgesLive := decidable_of_iff _ edgesLive_iff.symm

theorem isLive_newBlock (offset : Int) (c : BlockId) :
    (g.newBlock offset).isLive c = true ↔ c = g.size ∨ g.isLive c = true := by
  rw [isLive_eq_core, core_newBlock, isLive_eq_core]
  split <;> simp [*]

theorem isLive_splitAbove (wf : g.WellFormed) (hb : b < g.size) (c : BlockId) :
    (g.splitAbove b).isLive c = true ↔ c = g.size ∨ g.isLive c = true := by
  rw [isLive_eq_core, core_splitAbove wf hb, isLive_eq_core]
  split <;> simp [*]

namespace EdgesLive

theorem of_preds (h : g.EdgesLive) (wf : g.WellFormed) (hb : g.preds b ≠ []) :
    g.isLive b = true := by
  obtain ⟨a, ha⟩ := List.exists_mem_of_ne_nil _ hb
  exact (h a b ((wf.mirrored a b).mpr ha)).2

/-- Every edge that is there was there, or joins live blocks. -/
theorem widen (h : g.EdgesLive) (hlive : ∀ a, g.isLive a = true → g'.isLive a = true)
    (hedge : ∀ a b, b ∈ g'.succs a →
      b ∈ g.succs a ∨ g'.isLive a = true ∧ g'.isLive b = true) : g'.EdgesLive := by
  intro a b hb
  rcases hedge a b hb with hold | hnew
  · exact ⟨hlive a (h a b hold).1, hlive b (h a b hold).2⟩
  · exact hnew

theorem sameFlow (h : g.EdgesLive) (same : g.SameFlow g') : g'.EdgesLive :=
  h.widen (fun a ha => (same.isLive a).trans ha) fun a _ hb => Or.inl (same.succs a ▸ hb)

theorem cut (h : g.EdgesLive) (wf : g.WellFormed) (hcut : Cut g g') : g'.EdgesLive := by
  cases hcut with
  | annotate hcut => exact h.sameFlow hcut.toSameFlow
  | disconnect hcut =>
    obtain ⟨-, rfl⟩ := disconnect_eq_ok.mp hcut
    refine h.widen (fun a ha => ?_) fun a b hb => Or.inl (wf.mem_succs_removeEdge.mp hb).1
    rwa [isLive_eq_core, core_removeEdge, ← isLive_eq_core]
  | detachMarked =>
    have gone := detachMarked_detached wf
    have hkept : ∀ a, ¬g.Marked a → g.isLive a = true → g.detachMarked.isLive a = true := by
      intro a hmarked ha
      rwa [isLive_eq_core, gone.core_kept a hmarked, ← isLive_eq_core]
    intro a b hb
    obtain ⟨hb, hamarked, hbmarked⟩ := (gone.mem_succs a b).mp hb
    exact ⟨hkept a hamarked (h a b hb).1, hkept b hbmarked (h a b hb).2⟩

theorem cuts (h : g.EdgesLive) (wf : g.WellFormed) (hcuts : ReflTransGen Cut g g') :
    g'.EdgesLive := by
  induction hcuts using ReflTransGen.head_induction_on with
  | refl => exact h
  | head hstep _ ih => exact ih (h.cut wf hstep) (hstep.wellFormed wf)

theorem addEdge (h : g.EdgesLive) (ha : g.isLive a = true) (hb : g.isLive b = true) :
    (g.addEdge a b).EdgesLive := by
  have hlive : ∀ c, (g.addEdge a b).isLive c = g.isLive c := by
    intro c
    rw [isLive_eq_core, core_addEdge, ← isLive_eq_core]
  refine h.widen (fun c hc => (hlive c).trans hc) fun c d hd => ?_
  rcases (mem_succs_addEdge (lt_of_isLive ha)).mp hd with hold | ⟨rfl, rfl⟩
  · exact Or.inl hold
  · exact Or.inr ⟨(hlive _).trans ha, (hlive _).trans hb⟩

theorem newBlock (h : g.EdgesLive) (offset : Int) : (g.newBlock offset).EdgesLive :=
  h.widen (fun a ha => (isLive_newBlock offset a).mpr (Or.inr ha)) fun a _ hb =>
    Or.inl (succs_newBlock g offset a ▸ hb)

theorem splitAbove (h : g.EdgesLive) (wf : g.WellFormed) (hb : g.isLive b = true) :
    (g.splitAbove b).EdgesLive := by
  have hlt := lt_of_isLive hb
  have hlive := isLive_splitAbove wf hlt
  refine h.widen (fun a ha => (hlive a).mpr (Or.inr ha)) fun a c hc => ?_
  rcases ((splitAbove_rewired wf hlt).mem_succs a c).mp hc with ⟨hold, -⟩ | ⟨ha, rfl⟩ | ⟨rfl, rfl⟩
  · exact Or.inl hold
  · exact Or.inr ⟨(hlive a).mpr (Or.inr (h a b ha).1), (hlive _).mpr (Or.inl rfl)⟩
  · exact Or.inr ⟨(hlive _).mpr (Or.inl rfl), (hlive c).mpr (Or.inr hb)⟩

theorem redirect (h : g.EdgesLive) (wf : g.WellFormed) {old new : BlockId}
    (hold : old ∈ g.succs a) (hne : old ≠ new) (hnew : g.isLive new = true) :
    (g.redirect a old new).EdgesLive := by
  have hlive : ∀ c, (g.redirect a old new).isLive c = g.isLive c := by
    intro c
    rw [isLive_eq_core, core_redirect, ← isLive_eq_core]
  refine h.widen (fun c hc => (hlive c).trans hc) fun c d hd => ?_
  rcases (wf.mem_succs_redirect hold hne).mp hd with ⟨hd, -⟩ | ⟨rfl, rfl⟩
  · exact Or.inl hd
  · exact Or.inr ⟨(hlive _).trans (h _ old hold).1, (hlive _).trans hnew⟩

/-- A path from a live block has only live blocks on it. -/
theorem of_path (h : g.EdgesLive) {blocks : List BlockId} (path : g.Path a b blocks)
    (ha : g.isLive a = true) : ∀ c ∈ blocks, g.isLive c = true := by
  induction path with
  | start =>
    intro c hc
    rwa [List.mem_singleton.mp hc]
  | step _ hb ih =>
    intro c hc
    rcases List.mem_append.mp hc with hc | hc
    · exact ih c hc
    · rw [List.mem_singleton.mp hc]
      exact (h _ _ hb).2

end EdgesLive

/-- The clean edges of live blocks are edges. -/
def CleanWithin (g : Graph) : Prop :=
  ∀ a, g.isLive a = true → ∀ b ∈ g.clean a, b ∈ g.succs a

theorem clean_refresh (g : Graph) (a c : BlockId) :
    (g.refresh a).clean c =
      if a = c then (g.succs c).filter fun s => !g.isExceptional s else g.clean c := by
  unfold refresh clean succs
  rw [block?_modify]
  split
  · cases g.block? c <;> rfl
  · rfl

/-- Which blocks are entered by exceptions does not depend on clean edges. -/
theorem isExceptional_refresh (g : Graph) (a b : BlockId) :
    (g.refresh a).isExceptional b = g.isExceptional b := by
  have hentry : ∀ s, (g.refresh a).isEntry s = g.isEntry s := fun s =>
    isEntry_congr (map_block?_modify Block.handler g a s _ fun _ => rfl)
  unfold isExceptional
  simp only [hentry]
  rw [refresh, block?_modify]
  split
  · exact Option.any_map
  · rfl

theorem isExceptional_refreshAll (g : Graph) (b : BlockId) :
    g.refreshAll.isExceptional b = g.isExceptional b := by
  suffices hfold : ∀ (l : List BlockId) (g : Graph),
      (l.foldl refresh g).isExceptional b = g.isExceptional b from hfold g.live g
  intro l
  induction l with
  | nil => exact fun _ => rfl
  | cons a l ih => exact fun g => (ih _).trans (g.isExceptional_refresh a b)

theorem clean_foldl_refresh (l : List BlockId) (g : Graph) (b : BlockId) :
    (l.foldl refresh g).clean b =
      if b ∈ l then (g.succs b).filter fun s => !g.isExceptional s else g.clean b := by
  induction l generalizing g with
  | nil => simp
  | cons a l ih =>
    have hexceptional : (g.refresh a).isExceptional = g.isExceptional :=
      funext (g.isExceptional_refresh a)
    rw [List.foldl_cons, ih, hexceptional, (SameFlow.refresh g a).succs, clean_refresh]
    by_cases hl : b ∈ l
    · simp [hl]
    · by_cases ha : a = b
      · simp [ha]
      · simp [hl, ha, Ne.symm ha]

theorem clean_refreshAll {b : BlockId} (hb : b ∈ g.live) :
    g.refreshAll.clean b = (g.succs b).filter fun s => !g.isExceptional s :=
  (clean_foldl_refresh g.live g b).trans (if_pos hb)

theorem cleanWithin_refreshAll (wf : g.WellFormed) : g.refreshAll.CleanWithin := by
  intro a ha b hb
  rw [(SameFlow.refreshAll g).isLive] at ha
  rw [clean_refreshAll ((wf.mem_live a).mpr ha)] at hb
  rw [(SameFlow.refreshAll g).succs]
  exact (List.mem_filter.mp hb).1

theorem refresh_eq_self {b : BlockId}
    (h : g.clean b = (g.succs b).filter fun s => !g.isExceptional s) : g.refresh b = g := by
  have hblocks : (g.refresh b).blocks = g.blocks := by
    refine Array.ext_getElem? fun c => ?_
    show (g.refresh b).block? c = g.block? c
    rw [refresh, block?_modify]
    split
    · rename_i hc
      subst hc
      rw [clean, succs] at h
      cases hk : g.block? b with
      | none => rfl
      | some k =>
        rw [hk] at h
        have hk : k.clean = k.succs.filter fun s => !g.isExceptional s := h
        rw [Option.map_some, ← hk]
    · rfl
  show { g with blocks := (g.refresh b).blocks } = g
  rw [hblocks]

/-- Clean edges that were computed anew stay as they are. -/
theorem refreshAll_refreshAll (g : Graph) : g.refreshAll.refreshAll = g.refreshAll := by
  have hstill : ∀ b ∈ g.refreshAll.live, g.refreshAll.refresh b = g.refreshAll := by
    intro b hb
    rw [(SameFlow.refreshAll g).live] at hb
    refine refresh_eq_self ?_
    rw [clean_refreshAll hb, (SameFlow.refreshAll g).succs, funext g.isExceptional_refreshAll]
  rw [refreshAll]
  generalize g.refreshAll.live = live at hstill
  induction live with
  | nil => rfl
  | cons b l ih =>
    rw [List.foldl_cons, hstill b List.mem_cons_self]
    exact ih fun c hc => hstill c (List.mem_cons_of_mem b hc)

/-- A search over clean edges from a live block meets only live ones. -/
theorem EdgesLive.of_lookup_cleanDistances {n : Nat} (h : g.EdgesLive) (hclean : g.CleanWithin)
    (ha : g.isLive a = true) (hb : (g.cleanDistances a).lookup b = some n) :
    g.isLive b = true := by
  have hstart : Survey.All (fun c => g.isLive c = true) { levels := [(a, 0)], queue := [a] } :=
    ⟨by simpa using ha, by simpa using ha⟩
  have hall := hstart.run (fun c hc d hd => (h c d (hclean c hc d hd)).2) g.searchFuel
  obtain ⟨before, after, hsplit, -⟩ := List.lookup_eq_some_iff.mp hb
  have hmem : (b, n) ∈ g.cleanDistances a := by simp [hsplit]
  exact hall _ (List.mem_filter.mp hmem).1

end Graph

namespace DomTree

variable {g : Graph} {blocks : List BlockId} {b : BlockId}

/-- Where the dominance of a block ends, something leads to. -/
theorem preds_of_mem_frontier {enter : Option BlockId} {x : BlockId}
    (h : b ∈ (ofGraph g enter).frontier x) : g.preds b ≠ [] := by
  obtain ⟨-, -, -, -, hx⟩ := mem_frontier.mp h
  intro hnone
  simp [Dominance.frontierOf, hnone] at hx

/-- What dominates a block lies on a path from a root, which is live. -/
theorem isLive_of_commonDominator {enter : Option BlockId} {d : BlockId} (wf : g.WellFormed)
    (hedges : g.EdgesLive) (h : (ofGraph g enter).commonDominator blocks = some d) :
    g.isLive d = true := by
  cases blocks with
  | nil => cases h
  | cons b bs =>
    have hmem := List.mem_of_find?_eq_some h
    obtain ⟨⟨r, hr, way, path⟩, hall⟩ := (Dominance.dominates_iff wf enter).mp (decide_eq_true hmem)
    exact hedges.of_path path hr.1 d (hall r hr way path)

theorem isLive_of_closestJoin {among : List BlockId} (hedges : g.EdgesLive)
    (hclean : g.CleanWithin) (hblocks : ∀ b ∈ blocks, g.isLive b = true) (hne : blocks ≠ [])
    (h : closestJoin g blocks among = some b) : g.isLive b = true := by
  obtain ⟨-, total, htotal⟩ := of_closestJoin h
  obtain ⟨a, rest, rfl⟩ := List.exists_cons_of_ne_nil hne
  obtain ⟨n, hn, -⟩ := Option.bind_eq_some_iff.mp htotal
  exact hedges.of_lookup_cleanDistances hclean (hblocks a List.mem_cons_self) hn

/-- Where paths from live blocks join is live. -/
theorem isLive_of_pathCross {enter : Option BlockId} (wf : g.WellFormed) (hedges : g.EdgesLive)
    (hclean : g.CleanWithin) (hblocks : ∀ b ∈ blocks, g.isLive b = true)
    (h : (ofGraph g enter).pathCross g blocks = .ok (some b)) : g.isLive b = true := by
  unfold pathCross at h
  split at h
  · cases h
  · rename_i hempty
    split at h
    · rename_i c hc
      cases h
      have hmem : b ∈ (ofGraph g enter).commonFrontier blocks := by
        rw [hc]
        exact List.mem_cons_self
      unfold commonFrontier at hmem
      split at hmem
      · cases hmem
      · exact hedges.of_preds wf (preds_of_mem_frontier (List.mem_filter.mp hmem).1)
    · split at h
      · refine isLive_of_closestJoin hedges hclean hblocks (fun hnil => ?_) (Except.ok.inj h)
        exact hempty (List.isEmpty_iff.mpr hnil)
      · cases h

end DomTree

end TryRegions
