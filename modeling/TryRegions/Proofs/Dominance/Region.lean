import TryRegions.Proofs.Dominance.Queries

/-! The region that a block dominates. Its blocks are reached from the block without leaving the
region: the last time that a path to one of them comes by the block that dominates it, it is inside
and stays there. So a walk that turns back at the border meets the whole region. -/

namespace TryRegions.Dominance

/-- A path leads from `start` to `b`, and `d` dominates all blocks on it after `start`. -/
def ReachedWithin (g : Graph) (root : BlockId → Prop) (d start b : BlockId) : Prop :=
  ∃ blocks, g.Path start b blocks ∧ ∀ x ∈ blocks.tail, Dominates g root d x

section

variable {g : Graph} {root : BlockId → Prop} {d start b c : BlockId}

theorem mem_tail_step {blocks : List BlockId} (path : g.Path start b blocks) {x : BlockId} :
    x ∈ (blocks ++ [c]).tail ↔ x ∈ blocks.tail ∨ x = c := by
  rw [List.tail_append_of_ne_nil (List.ne_nil_of_mem path.target_mem), List.mem_append,
    List.mem_singleton]

theorem ReachedWithin.refl (g : Graph) (root : BlockId → Prop) (d start : BlockId) :
    ReachedWithin g root d start start :=
  ⟨[start], .start, fun _ hx => nomatch hx⟩

theorem ReachedWithin.step (hb : ReachedWithin g root d start b) (hc : c ∈ g.succs b)
    (hdom : Dominates g root d c) : ReachedWithin g root d start c := by
  obtain ⟨blocks, path, hblocks⟩ := hb
  refine ⟨blocks ++ [c], path.step hc, fun x hx => ?_⟩
  rcases (mem_tail_step path).mp hx with hx | rfl
  · exact hblocks x hx
  · exact hdom

theorem reachedWithin_iff : ReachedWithin g root d start b ↔
    Relation.ReflTransGen (fun a c => c ∈ g.succs a ∧ Dominates g root d c) start b := by
  constructor
  · rintro ⟨blocks, path, hblocks⟩
    induction path with
    | start => exact .refl
    | step path hc ih =>
      have hbefore := ih fun x hx => hblocks x ((mem_tail_step path).mpr (Or.inl hx))
      exact hbefore.tail ⟨hc, hblocks _ ((mem_tail_step path).mpr (Or.inr rfl))⟩
  · intro h
    induction h with
    | refl => exact .refl g root d start
    | tail _ hc ih => exact ih.step hc.1 hc.2

/-- What `d` dominates is reached from `d` without leaving what `d` dominates. -/
theorem Dominates.reachedWithin (h : Dominates g root d b) : ReachedWithin g root d d b := by
  obtain ⟨r, hr, blocks, path⟩ := h.1
  induction path with
  | start =>
    obtain rfl : d = r := List.mem_singleton.mp (h.2 r hr _ .start)
    exact .refl g root d d
  | @step p c blocks path hc ih =>
    by_cases hdc : d = c
    · subst hdc
      exact .refl g root d d
    · have hstrict : StrictlyDominates g root d c := ⟨h, hdc⟩
      exact (ih (hstrict.dominates_pred hc ⟨r, hr, _, path⟩)).step hc h

theorem ReachedWithin.dominates (h : ReachedWithin g root d start b) (hne : b ≠ start) :
    Dominates g root d b := by
  obtain ⟨p, -, -, hdom⟩ := (reachedWithin_iff.mp h).cases_tail.resolve_left hne
  exact hdom

end

/-- A dominator tree is found for every well-formed graph, and the region that it collects is exact,
each block listed once: from any start it lists what is reached over blocks that `d` dominates, and
from a reached block itself it lists all the others that the block dominates. -/
theorem build_dominatedFrom_exact (g : Graph) (wf : g.WellFormed) (enter : Option BlockId) :
    ∃ t, DomTree.build g enter = .ok t ∧
      (∀ d start, start < g.size → ∃ l, t.dominatedFrom g d start = .ok l ∧ l.Nodup ∧
        ∀ b, b ∈ l ↔ b ≠ start ∧ ReachedWithin g (IsRoot g enter) d start b) ∧
      ∀ d, Reached g (IsRoot g enter) d → ∃ l, t.dominatedFrom g d d = .ok l ∧ l.Nodup ∧
        ∀ b, b ∈ l ↔ b ≠ d ∧ Dominates g (IsRoot g enter) d b := by
  have hwithin : ∀ d start, start < g.size →
      ∃ l, (DomTree.ofGraph g enter).dominatedFrom g d start = .ok l ∧ l.Nodup ∧
        ∀ b, b ∈ l ↔ b ≠ start ∧ ReachedWithin g (IsRoot g enter) d start b := by
    intro d start hstart
    obtain ⟨l, hl, hnodup, hmem⟩ := DomTree.dominatedFrom_eq wf (DomTree.ofGraph g enter) d hstart
    refine ⟨l, hl, hnodup, fun b => ?_⟩
    simp only [hmem, reachedWithin_iff, dominates_iff wf enter]
  refine ⟨DomTree.ofGraph g enter, build_eq wf enter, hwithin, fun d hd => ?_⟩
  have hmem := (reversePostOrder_ordered wf enter).mem d |>.mpr hd
  obtain ⟨l, hl, hnodup, hmem⟩ := hwithin d d (order_lt wf enter d hmem)
  refine ⟨l, hl, hnodup, fun b => (hmem b).trans ⟨fun h => ?_, fun h => ?_⟩⟩
  · exact ⟨h.1, h.2.dominates h.1⟩
  · exact ⟨h.1, h.2.reachedWithin⟩

/-- Block 0 leads into a loop of the blocks 1, 2 and 3, and block 2 leads out of it to block 4, as
does block 0. -/
def looped : Graph :=
  (((((((((({} : Graph).newBlock 0).newBlock 0).newBlock 0).newBlock 0).newBlock 0).addEdge 0
    1).addEdge 1 2).addEdge 2 3).addEdge 3 1 |>.addEdge 2 4).addEdge 0 4

theorem looped_wellFormed : looped.WellFormed := by decide +kernel

theorem build_dominatedFrom_exact_looped :
    looped.WellFormed ∧ Reached looped (IsRoot looped (some 0)) 1 ∧ 0 < looped.size ∧
      ∃ t, DomTree.build looped (some 0) = .ok t ∧
        (∃ l, t.dominatedFrom looped 1 0 = .ok l ∧ l.Nodup ∧
          ∀ b, b ∈ l ↔ b ≠ 0 ∧ ReachedWithin looped (IsRoot looped (some 0)) 1 0 b) ∧
        ∃ l, t.dominatedFrom looped 1 1 = .ok l ∧ l.Nodup ∧
          ∀ b, b ∈ l ↔ b ≠ 1 ∧ Dominates looped (IsRoot looped (some 0)) 1 b := by
  have hroot : IsRoot looped (some 0) 0 := ⟨by decide +kernel, Or.inl rfl⟩
  have hreached : Reached looped (IsRoot looped (some 0)) 1 :=
    (Reached.of_root hroot).step (by decide +kernel)
  obtain ⟨t, ht, hwithin, hregion⟩ := build_dominatedFrom_exact looped looped_wellFormed (some 0)
  exact ⟨looped_wellFormed, hreached, by decide +kernel, t, ht, hwithin 1 0 (by decide +kernel),
    hregion 1 hreached⟩

end TryRegions.Dominance
