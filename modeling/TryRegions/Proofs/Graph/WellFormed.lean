import TryRegions.Graph.Basic
import Mathlib.Data.List.Nodup

/-! Well-formed flow graphs: every edge is known at both of its ends, once at each, and the live
blocks are the ones that are not detached, in ascending order. -/

namespace TryRegions

structure Graph.WellFormed (g : Graph) : Prop where
  mirrored : ∀ a b, b ∈ g.succs a ↔ a ∈ g.preds b
  succs_nodup : ∀ a, (g.succs a).Nodup
  preds_nodup : ∀ b, (g.preds b).Nodup
  succs_lt : ∀ a, ∀ b ∈ g.succs a, b < g.size
  mem_live : ∀ b, b ∈ g.live ↔ g.isLive b = true
  live_ascending : g.live.Pairwise (· < ·)

/-- Every edge is known at both of its ends, perhaps more than once, and leads to a block that
exists, and the live blocks are the ones that are not detached. -/
structure Graph.Mirrored (g : Graph) : Prop where
  mirrored : ∀ a b, b ∈ g.succs a ↔ a ∈ g.preds b
  succs_lt : ∀ a, ∀ b ∈ g.succs a, b < g.size
  mem_live : ∀ b, b ∈ g.live ↔ g.isLive b = true

namespace Graph

theorem block?_eq_none {g : Graph} {b : BlockId} : g.block? b = none ↔ g.size ≤ b :=
  Array.getElem?_eq_none_iff

theorem exists_block {g : Graph} {b : BlockId} (hb : b < g.size) : ∃ k, g.block? b = some k :=
  ⟨g.blocks[b], Array.getElem?_eq_getElem hb⟩

theorem lt_of_block? {g : Graph} {b : BlockId} {k : Block} (h : g.block? b = some k) :
    b < g.size := by
  by_contra hb
  rw [block?_eq_none.mpr (Nat.le_of_not_lt hb)] at h
  cases h

theorem lt_of_isLive {g : Graph} {b : BlockId} (h : g.isLive b = true) : b < g.size := by
  by_contra hb
  simp [isLive, block?_eq_none.mpr (Nat.le_of_not_lt hb)] at h

theorem lt_of_mem_succs {g : Graph} {a b : BlockId} (h : b ∈ g.succs a) : a < g.size := by
  by_contra ha
  simp [succs, block?_eq_none.mpr (Nat.le_of_not_lt ha)] at h

theorem lt_of_mem_preds {g : Graph} {a b : BlockId} (h : a ∈ g.preds b) : b < g.size := by
  by_contra hb
  simp [preds, block?_eq_none.mpr (Nat.le_of_not_lt hb)] at h

theorem lt_of_mem_clean {g : Graph} {a b : BlockId} (h : b ∈ g.clean a) : a < g.size := by
  by_contra ha
  simp [clean, block?_eq_none.mpr (Nat.le_of_not_lt ha)] at h

section

variable {g : Graph} {b : BlockId} {k : Block} (h : g.block? b = some k)
include h

theorem succs_eq : g.succs b = k.succs := by rw [succs, h]; rfl

theorem preds_eq : g.preds b = k.preds := by rw [preds, h]; rfl

theorem clean_eq : g.clean b = k.clean := by rw [clean, h]; rfl

end

namespace WellFormed

variable {g : Graph} (wf : g.WellFormed)
include wf

theorem preds_lt {a b : BlockId} (h : a ∈ g.preds b) : a < g.size :=
  lt_of_mem_succs ((wf.mirrored a b).mpr h)

theorem live_lt {b : BlockId} (h : b ∈ g.live) : b < g.size :=
  lt_of_isLive ((wf.mem_live b).mp h)

theorem mirrors : g.Mirrored := ⟨wf.mirrored, wf.succs_lt, wf.mem_live⟩

end WellFormed

/-- Blocks that were never made have no edges, so the blocks of the graph are all there is to look
at. -/
theorem wellFormed_iff {g : Graph} : g.WellFormed ↔
    (∀ a < g.size, (g.succs a).Nodup ∧ ∀ b ∈ g.succs a, b < g.size ∧ a ∈ g.preds b) ∧
      (∀ b < g.size, (g.preds b).Nodup ∧ ∀ a ∈ g.preds b, b ∈ g.succs a) ∧
      (∀ b < g.size, b ∈ g.live ↔ g.isLive b = true) ∧ (∀ b ∈ g.live, b < g.size) ∧
      g.live.Pairwise (· < ·) := by
  constructor
  · intro wf
    exact ⟨fun a _ => ⟨wf.succs_nodup a, fun b hb => ⟨wf.succs_lt a b hb, (wf.mirrored a b).mp hb⟩⟩,
      fun b _ => ⟨wf.preds_nodup b, fun a ha => (wf.mirrored a b).mpr ha⟩,
      fun b _ => wf.mem_live b, fun b hb => wf.live_lt hb, wf.live_ascending⟩
  · rintro ⟨hsuccs, hpreds, hlive, hlt, hascending⟩
    constructor
    case mirrored =>
      intro a b
      constructor
      · exact fun h => ((hsuccs a (lt_of_mem_succs h)).2 b h).2
      · exact fun h => (hpreds b (lt_of_mem_preds h)).2 a h
    case succs_nodup =>
      intro a
      by_cases ha : a < g.size
      · exact (hsuccs a ha).1
      · rw [succs, block?_eq_none.mpr (Nat.le_of_not_lt ha)]
        exact List.nodup_nil
    case preds_nodup =>
      intro b
      by_cases hb : b < g.size
      · exact (hpreds b hb).1
      · rw [preds, block?_eq_none.mpr (Nat.le_of_not_lt hb)]
        exact List.nodup_nil
    case succs_lt => exact fun a b h => ((hsuccs a (lt_of_mem_succs h)).2 b h).1
    case mem_live =>
      intro b
      by_cases hb : b < g.size
      · exact hlive b hb
      · exact ⟨fun h => absurd (hlt b h) hb, fun h => absurd (lt_of_isLive h) hb⟩
    case live_ascending => exact hascending

instance (g : Graph) : Decidable g.WellFormed := decidable_of_iff _ wellFormed_iff.symm

end Graph

end TryRegions
