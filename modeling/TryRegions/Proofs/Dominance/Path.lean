import TryRegions.Graph.Basic
import Mathlib.Data.List.Nodup

/-! Paths over the edges of a graph, and what they say of dominance: a block dominates another one
if it lies on every path to it from a root. Nothing here refers to how dominators are computed. -/

namespace TryRegions

/-- `blocks` are the blocks on a path over edges from `source` to `target`, both included. -/
inductive Graph.Path (g : Graph) (source : BlockId) : BlockId → List BlockId → Prop
  | start : Graph.Path g source source [source]
  | step {b c : BlockId} {blocks : List BlockId} :
      Graph.Path g source b blocks → c ∈ g.succs b → Graph.Path g source c (blocks ++ [c])

namespace Graph.Path

variable {g : Graph} {source target : BlockId} {blocks : List BlockId}

theorem target_mem (path : g.Path source target blocks) : target ∈ blocks := by
  cases path <;> simp

theorem length_pos (path : g.Path source target blocks) : 0 < blocks.length :=
  List.length_pos_of_mem path.target_mem

/-- The part of a path up to a block on it. -/
theorem upTo (path : g.Path source target blocks) {b : BlockId} (hb : b ∈ blocks) :
    ∃ first, g.Path source b first ∧ first <+: blocks ∧
      (b ≠ target → first.length < blocks.length) := by
  induction path with
  | start =>
    obtain rfl : b = source := by simpa using hb
    exact ⟨[b], .start, List.prefix_rfl, fun h => absurd rfl h⟩
  | @step p c blocks path hc ih =>
    by_cases hbc : b = c
    · subst hbc
      exact ⟨_, path.step hc, List.prefix_rfl, fun h => absurd rfl h⟩
    · have hmem : b ∈ blocks := by simpa [hbc] using hb
      obtain ⟨first, hpath, hpre, _⟩ := ih hmem
      refine ⟨first, hpath, hpre.trans (List.prefix_append _ _), fun _ => ?_⟩
      have := hpre.length_le
      simp
      omega

/-- A path can be cut short so that it meets no block twice. -/
theorem exists_nodup (path : g.Path source target blocks) :
    ∃ short, g.Path source target short ∧ short ⊆ blocks ∧ short.Nodup := by
  induction path with
  | start => exact ⟨[source], .start, List.Subset.refl _, List.nodup_singleton _⟩
  | @step p c blocks path hc ih =>
    obtain ⟨short, hpath, hsub, hnodup⟩ := ih
    by_cases hmem : c ∈ short
    · obtain ⟨first, hfirst, hpre, _⟩ := hpath.upTo hmem
      refine ⟨first, hfirst, fun x hx => ?_, hnodup.sublist hpre.sublist⟩
      exact List.mem_append_left _ (hsub (hpre.subset hx))
    · refine ⟨short ++ [c], hpath.step hc, fun x hx => ?_, ?_⟩
      · rcases List.mem_append.mp hx with h | h
        · exact List.mem_append_left _ (hsub h)
        · exact List.mem_append_right _ h
      · exact List.nodup_append.mpr ⟨hnodup, List.nodup_singleton _, fun a ha b hb => by
          rw [List.mem_singleton] at hb
          rintro rfl
          exact hmem (hb ▸ ha)⟩

/-- If all targets of edges and the source are below `size`, so are the blocks on a path. -/
theorem lt_of_mem {size : Nat} (path : g.Path source target blocks) (hsource : source < size)
    (hsuccs : ∀ a, ∀ b ∈ g.succs a, b < size) : ∀ b ∈ blocks, b < size := by
  induction path with
  | start => simpa using hsource
  | step path hc ih =>
    intro b hb
    rcases List.mem_append.mp hb with h | h
    · exact ih b h
    · rw [List.mem_singleton.mp h]
      exact hsuccs _ _ hc

end Graph.Path

namespace Dominance

/-- A path leads from a root to `b`. -/
def Reached (g : Graph) (root : BlockId → Prop) (b : BlockId) : Prop :=
  ∃ r, root r ∧ ∃ blocks, g.Path r b blocks

/-- Some path leads from a root to `b`, and all of them go through `a`. -/
def Dominates (g : Graph) (root : BlockId → Prop) (a b : BlockId) : Prop :=
  Reached g root b ∧ ∀ r, root r → ∀ blocks, g.Path r b blocks → a ∈ blocks

def StrictlyDominates (g : Graph) (root : BlockId → Prop) (a b : BlockId) : Prop :=
  Dominates g root a b ∧ a ≠ b

/-- `a` is the strict dominator of `b` that every other strict dominator of `b` dominates. -/
def ImmediatelyDominates (g : Graph) (root : BlockId → Prop) (a b : BlockId) : Prop :=
  StrictlyDominates g root a b ∧
    ∀ d, StrictlyDominates g root d b → d ≠ a → Dominates g root d a

section

variable {g : Graph} {root : BlockId → Prop} {a b c : BlockId}

theorem Reached.of_root (hb : root b) : Reached g root b := ⟨b, hb, [b], .start⟩

theorem Reached.step (hb : Reached g root b) (hc : c ∈ g.succs b) : Reached g root c := by
  obtain ⟨r, hr, blocks, path⟩ := hb
  exact ⟨r, hr, _, path.step hc⟩

/-- A dominator lies on a path, so it is reached too. -/
theorem Dominates.reached (h : Dominates g root a b) : Reached g root a := by
  obtain ⟨r, hr, blocks, path⟩ := h.1
  obtain ⟨first, hfirst, -⟩ := path.upTo (h.2 r hr blocks path)
  exact ⟨r, hr, first, hfirst⟩

/-- A root has no dominator but itself. -/
theorem StrictlyDominates.not_root (h : StrictlyDominates g root a b) : ¬root b := by
  intro hb
  have := h.1.2 b hb _ .start
  exact h.2 (by simpa using this)

/-- What strictly dominates a block dominates the blocks that lead to it, as far as these are
reached. -/
theorem StrictlyDominates.dominates_pred (h : StrictlyDominates g root a c) (hc : c ∈ g.succs b)
    (hb : Reached g root b) : Dominates g root a b := by
  refine ⟨hb, fun r hr blocks path => ?_⟩
  have hmem := h.1.2 r hr _ (path.step hc)
  rcases List.mem_append.mp hmem with hmem | hmem
  · exact hmem
  · exact absurd (List.mem_singleton.mp hmem) h.2

end

end Dominance

end TryRegions
