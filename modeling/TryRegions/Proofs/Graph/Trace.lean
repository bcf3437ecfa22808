import Mathlib.Data.List.Sort
import Mathlib.Logic.Relation
import TryRegions.Proofs.Graph.Rewiring
import TryRegions.Proofs.Method.Edits

/-! Graphs that edits lead to. A graph begins empty; blocks and edges are added, turned and taken
away by edits that refuse numbers out of range. Every graph that comes about so is well-formed, and
an edit that leaves the version as it was leaves the flow as it was. -/

namespace TryRegions.Graph

open Relation

variable {g g' g'' : Graph}

/-- What is known of blocks changed, but no edge, no number and not the version. -/
structure Annotated (g g' : Graph) : Prop extends SameFlow g g' where
  version : g'.version = g.version

namespace Annotated

theorem refl (g : Graph) : g.Annotated g := ⟨.refl g, rfl⟩

theorem trans (h : g.Annotated g') (h' : g'.Annotated g'') : g.Annotated g'' :=
  ⟨h.toSameFlow.trans h'.toSameFlow, h'.version.trans h.version⟩

theorem modify (g : Graph) (b : BlockId) {f : Block → Block}
    (hf : ∀ k, (f k).succs = k.succs ∧ (f k).preds = k.preds ∧ (f k).detached = k.detached) :
    g.Annotated (g.modify b f) :=
  ⟨.modify g b f (fun k => (hf k).1) (fun k => (hf k).2.1) fun k => (hf k).2.2, rfl⟩

theorem foldl {α : Type} {step : Graph → α → Graph}
    (hstep : ∀ (g : Graph) a, g.Annotated (step g a)) (l : List α) (g : Graph) :
    g.Annotated (l.foldl step g) := by
  induction l generalizing g with
  | nil => exact refl g
  | cons a l ih => exact (hstep g a).trans (ih (step g a))

theorem mapLive (g : Graph) {f : Block → Block}
    (hf : ∀ k, (f k).succs = k.succs ∧ (f k).preds = k.preds ∧ (f k).detached = k.detached) :
    g.Annotated (g.mapLive f) :=
  foldl (fun g b => modify g b hf) g.live g

theorem mapBlocks (g : Graph) {f : Block → Block}
    (hf : ∀ k, (f k).succs = k.succs ∧ (f k).preds = k.preds ∧ (f k).detached = k.detached) :
    g.Annotated (g.mapBlocks f) :=
  ⟨.mapBlocks g f (fun k => (hf k).1) (fun k => (hf k).2.1) fun k => (hf k).2.2, rfl⟩

theorem refresh (g : Graph) (b : BlockId) : g.Annotated (g.refresh b) :=
  modify g b fun _ => ⟨rfl, rfl, rfl⟩

theorem refreshAll (g : Graph) : g.Annotated g.refreshAll := foldl refresh g.live g

end Annotated

section Checked

variable {α : Type} {a b c : BlockId}

theorem check_bind_eq_ok {x : Except Fault α} {y : α} :
    (g.check b >>= fun _ => x) = .ok y ↔ b < g.size ∧ x = .ok y := by
  unfold check
  split
  · rename_i hb
    exact ⟨fun h => ⟨hb, h⟩, fun h => h.2⟩
  · rename_i hb
    exact ⟨nofun, fun h => absurd h.1 hb⟩

theorem pure_eq_ok {x y : α} : (pure x : Except Fault α) = .ok y ↔ y = x :=
  ⟨fun h => (Except.ok.inj h).symm, fun h => congrArg Except.ok h.symm⟩

theorem connect_eq_ok :
    g.connect a b = .ok g' ↔ (a < g.size ∧ b < g.size) ∧ g' = g.addEdge a b := by
  rw [connect, check_bind_eq_ok, check_bind_eq_ok, and_assoc]
  exact and_congr_right fun _ => and_congr_right fun _ => pure_eq_ok

theorem disconnect_eq_ok :
    g.disconnect a b = .ok g' ↔ (a < g.size ∧ b < g.size) ∧ g' = g.removeEdge a b := by
  rw [disconnect, check_bind_eq_ok, check_bind_eq_ok, and_assoc]
  exact and_congr_right fun _ => and_congr_right fun _ => pure_eq_ok

theorem reconnect_eq_ok : g.reconnect a b c = .ok g' ↔
    (a < g.size ∧ b < g.size ∧ c < g.size) ∧ g' = g.redirect a b c := by
  rw [reconnect, check_bind_eq_ok, check_bind_eq_ok, check_bind_eq_ok, and_assoc, and_assoc]
  exact and_congr_right fun _ => and_congr_right fun _ => and_congr_right fun _ => pure_eq_ok

theorem splitTop_eq_ok : g.splitTop b = .ok g' ↔ b < g.size ∧ g' = g.splitAbove b := by
  rw [splitTop, check_bind_eq_ok]
  exact and_congr_right fun _ => pure_eq_ok

theorem refreshClean_eq_ok : g.refreshClean b = .ok g' ↔ b < g.size ∧ g' = g.refresh b := by
  rw [refreshClean, check_bind_eq_ok]
  exact and_congr_right fun _ => pure_eq_ok

end Checked

/-- An edit that adds nothing. -/
inductive Cut : Graph → Graph → Prop where
  | annotate {g g' : Graph} (h : g.Annotated g') : Cut g g'
  | disconnect {g g' : Graph} {a b : BlockId} (h : g.disconnect a b = .ok g') : Cut g g'
  | detachMarked {g : Graph} : Cut g g.detachMarked

/-- The edits of a graph. An edge is turned only if it is there, and to another block. -/
inductive Edit : Graph → Graph → Prop where
  | cut {g g' : Graph} (h : Cut g g') : Edit g g'
  | newBlock {g : Graph} {offset : Int} : Edit g (g.newBlock offset)
  | connect {g g' : Graph} {a b : BlockId} (h : g.connect a b = .ok g') : Edit g g'
  | splitTop {g g' : Graph} {b : BlockId} (h : g.splitTop b = .ok g') : Edit g g'
  | reconnect {g g' : Graph} {a old new : BlockId} (hold : old ∈ g.succs a) (hne : old ≠ new)
      (h : g.reconnect a old new = .ok g') : Edit g g'

/-- Made from the empty graph by edits. -/
def Built (g : Graph) : Prop := ReflTransGen Edit {} g

section WellFormed

theorem Cut.wellFormed (h : Cut g g') (wf : g.WellFormed) : g'.WellFormed := by
  cases h with
  | annotate h => exact h.wellFormed wf
  | disconnect h =>
    obtain ⟨-, rfl⟩ := disconnect_eq_ok.mp h
    exact wf.removeEdge _ _
  | detachMarked => exact (detachMarked_detached wf).wellFormed

theorem Cut.mem_succs (h : Cut g g') (wf : g.WellFormed) {a b : BlockId} (hb : b ∈ g'.succs a) :
    b ∈ g.succs a := by
  cases h with
  | annotate h => rwa [← h.succs]
  | disconnect h =>
    obtain ⟨-, rfl⟩ := disconnect_eq_ok.mp h
    exact (wf.mem_succs_removeEdge.mp hb).1
  | detachMarked => exact (((detachMarked_detached wf).mem_succs a b).mp hb).1

theorem mem_succs_of_cuts (h : ReflTransGen Cut g g') (wf : g.WellFormed) {a b : BlockId}
    (hb : b ∈ g'.succs a) : b ∈ g.succs a := by
  induction h using ReflTransGen.head_induction_on with
  | refl => exact hb
  | head hstep _ ih => exact hstep.mem_succs wf (ih (hstep.wellFormed wf))

theorem Edit.wellFormed (h : Edit g g') (wf : g.WellFormed) : g'.WellFormed := by
  cases h with
  | cut h => exact h.wellFormed wf
  | newBlock => exact wf.newBlock _
  | connect h =>
    obtain ⟨⟨ha, hb⟩, rfl⟩ := connect_eq_ok.mp h
    exact wf.addEdge ha hb
  | splitTop h =>
    obtain ⟨hb, rfl⟩ := splitTop_eq_ok.mp h
    exact (splitAbove_rewired wf hb).wellFormed
  | reconnect hold hne h =>
    obtain ⟨⟨-, -, hnew⟩, rfl⟩ := reconnect_eq_ok.mp h
    exact wf.redirect hold hne hnew

theorem wellFormed_of_edits (h : ReflTransGen Edit g g') (wf : g.WellFormed) : g'.WellFormed := by
  induction h with
  | refl => exact wf
  | tail _ hstep ih => exact hstep.wellFormed ih

/-- No block is taken out of the list of blocks. -/
theorem Edit.size_le (h : Edit g g') (wf : g.WellFormed) : g.size ≤ g'.size := by
  cases h with
  | cut h =>
    cases h with
    | annotate h => exact Nat.le_of_eq h.size.symm
    | disconnect h =>
      obtain ⟨-, rfl⟩ := disconnect_eq_ok.mp h
      exact Nat.le_of_eq (size_removeEdge ..).symm
    | detachMarked => exact Nat.le_of_eq (detachMarked_detached wf).size.symm
  | newBlock =>
    rw [size_newBlock]
    exact Nat.le_succ _
  | connect h =>
    obtain ⟨-, rfl⟩ := connect_eq_ok.mp h
    exact Nat.le_of_eq (size_addEdge ..).symm
  | splitTop h =>
    obtain ⟨hb, rfl⟩ := splitTop_eq_ok.mp h
    rw [size_splitAbove wf hb]
    exact Nat.le_succ _
  | reconnect hold hne h =>
    obtain ⟨-, rfl⟩ := reconnect_eq_ok.mp h
    exact Nat.le_of_eq (size_redirect ..).symm

theorem size_le_of_edits (h : ReflTransGen Edit g g') (wf : g.WellFormed) : g.size ≤ g'.size := by
  induction h with
  | refl => exact Nat.le_refl _
  | tail hsteps hstep ih =>
    exact Nat.le_trans ih (hstep.size_le (wellFormed_of_edits hsteps wf))

theorem Built.wellFormed (h : Built g) : g.WellFormed := wellFormed_of_edits h (by decide)

/-- How a graph is kept: both ends of an edge know it, once each, by a number in range, and the live
blocks are those that are not detached, in ascending order. -/
structure Represented (g : Graph) : Prop extends g.WellFormed where
  preds_lt : ∀ b, ∀ a ∈ g.preds b, a < g.size
  live_eq : g.live = (List.range g.size).filter fun b => g.isLive b

theorem WellFormed.represented (wf : g.WellFormed) : g.Represented where
  toWellFormed := wf
  preds_lt _ _ ha := wf.preds_lt ha
  live_eq := by
    refine wf.live_ascending.eq_of_mem_iff (List.pairwise_lt_range.filter _) fun b => ?_
    rw [wf.mem_live, List.mem_filter, List.mem_range]
    exact ⟨fun hb => ⟨lt_of_isLive hb, hb⟩, fun hb => hb.2⟩

end WellFormed

section Version

theorem version_le_foldl {α : Type} (step : Graph → α → Graph)
    (hstep : ∀ (g : Graph) a, g.version ≤ (step g a).version) (l : List α) (g : Graph) :
    g.version ≤ (l.foldl step g).version := by
  induction l generalizing g with
  | nil => exact Nat.le_refl _
  | cons a l ih => exact Nat.le_trans (hstep g a) (ih (step g a))

theorem version_le_isolate (g : Graph) (b : BlockId) : g.version ≤ (g.isolate b).version := by
  refine Nat.le_trans ?_ (version_le_foldl _ (fun g _ => Nat.le_succ g.version) _ _)
  exact version_le_foldl _ (fun g _ => Nat.le_succ g.version) _ g

theorem version_lt_splitAbove (g : Graph) (b : BlockId) :
    g.version < (g.splitAbove b).version := by
  have hnew : g.version < (g.newBlock ((g.block? b).elim 0 Block.offset)).version :=
    Nat.lt_succ_self _
  have hturned := version_le_foldl (fun h p => h.redirect p b g.size)
    (fun g _ => Nat.le_succ g.version) (g.preds b) (g.newBlock ((g.block? b).elim 0 Block.offset))
  exact Nat.lt_succ_of_lt (Nat.lt_of_lt_of_le hnew hturned)

theorem detachMarked_version (g : Graph) :
    g.detachMarked = g ∨ g.version < g.detachMarked.version := by
  unfold detachMarked
  dsimp only
  split
  · exact Or.inl rfl
  · refine Or.inr (Nat.lt_succ_of_le ?_)
    refine Nat.le_trans ?_ (version_le_foldl _ version_le_isolate _ _)
    exact version_le_foldl (fun h b => h.modify b fun k => { k with detached := true })
      (fun g _ => Nat.le_refl g.version) _
      { g with live := g.live.filter fun b => !(g.flags b).remove }

/-- An edit that changes the flow changes the version. -/
theorem Edit.version (h : Edit g g') : g.Annotated g' ∨ g.version < g'.version := by
  cases h with
  | cut h =>
    cases h with
    | annotate h => exact Or.inl h
    | disconnect h =>
      obtain ⟨-, rfl⟩ := disconnect_eq_ok.mp h
      exact Or.inr (Nat.lt_succ_self _)
    | detachMarked =>
      rcases g.detachMarked_version with heq | hlt
      · exact Or.inl (by rw [heq]; exact .refl g)
      · exact Or.inr hlt
  | newBlock => exact Or.inr (Nat.lt_succ_self _)
  | connect h =>
    obtain ⟨-, rfl⟩ := connect_eq_ok.mp h
    exact Or.inr (Nat.lt_succ_self _)
  | splitTop h =>
    obtain ⟨-, rfl⟩ := splitTop_eq_ok.mp h
    exact Or.inr (version_lt_splitAbove g _)
  | reconnect hold hne h =>
    obtain ⟨-, rfl⟩ := reconnect_eq_ok.mp h
    exact Or.inr (Nat.lt_succ_self _)

/-- Where every step keeps the flow or raises the version, so does every sequence of steps. -/
theorem version_of_steps {E : Graph → Graph → Prop}
    (hE : ∀ g g', E g g' → g.Annotated g' ∨ g.version < g'.version) (h : ReflTransGen E g g') :
    g.Annotated g' ∨ g.version < g'.version := by
  induction h with
  | refl => exact Or.inl (.refl g)
  | tail _ hstep ih =>
    rcases ih with hsame | hlt
    · rcases hE _ _ hstep with hsame' | hlt
      · exact Or.inl (hsame.trans hsame')
      · exact Or.inr (hsame.version ▸ hlt)
    · rcases hE _ _ hstep with hsame' | hlt'
      · exact Or.inr (hsame'.version.symm ▸ hlt)
      · exact Or.inr (Nat.lt_trans hlt hlt')

theorem version_of_edits (h : ReflTransGen Edit g g') :
    g.Annotated g' ∨ g.version < g'.version :=
  version_of_steps (fun _ _ => Edit.version) h

end Version

end TryRegions.Graph
