import TryRegions.Proofs.Recovery.Wrapping

/-! Which region a block belongs to when all regions are wired. A block goes from region to region
while the queue is worked off, each time to one under the last, and so ends in a region that lists
it and has no other such region under it. Neither the order of the queue nor which regions have to
wait matters. -/

open Relation

namespace TryRegions.Recovery

open RecoverM TryRegions.Graph

variable {n : Nat} {regions : List RegionId} {tidy : Prop} {s t : State}

/-- Blocks belong to listed regions only, and to such as list them. -/
def State.Placed (regions : List RegionId) (s : State) : Prop :=
  ∀ b o, s.method.graph.home b = some o → o ∈ regions ∧ b ∈ (s.method.region o).blocks

theorem State.Placed.step (hs : s.Placed regions) (ready : Ready n regions tidy s)
    (h : Joining n regions tidy s t) : t.Placed regions := by
  intro b o ho
  rw [Method.region, (h.joined ready.wellFormed).content.blocks]
  rcases h.home ready.wellFormed b with hsame | ⟨r, hr, hb, hnew, -⟩
  · apply hs b o
    rw [← hsame, ho]
  · rw [hnew] at ho
    cases ho
    exact ⟨hr, hb⟩

/-- When regions are wired, in whatever order, every block that one of them lists ends in one that
lists it and lies around no other that does. Blocks that none of them lists end in none. -/
theorem wire_attaches_innermost (factor : Int) {regions : List RegionId} {s t : State}
    (wf : s.method.graph.WellFormed) (hforest : s.method.forest.WellFormed)
    (hfree : ∀ b, s.method.graph.home b = none)
    (hok : exec (wire factor regions) s = (.ok (), t)) :
    (∀ r, (t.method.region r).blocks = (s.method.region r).blocks ∧
      (t.method.region r).outer = (s.method.region r).outer) ∧
    ∀ b,
      ((∃ r ∈ regions, b ∈ (s.method.region r).blocks) →
        ∃ o ∈ regions, t.method.graph.home b = some o ∧ b ∈ (s.method.region o).blocks ∧
          ∀ r ∈ regions, b ∈ (s.method.region r).blocks →
            ¬TransGen s.method.forest.Under r o) ∧
      ((∀ r ∈ regions, b ∉ (s.method.region r).blocks) → t.method.graph.home b = none) := by
  have ready : Ready 0 regions False s := .of_zero wf False.elim
  obtain ⟨hjoins, hfinished⟩ := (joins_wire ready factor).ok hok
  have joined := ready.joined hjoins
  have hblocks : ∀ r, (t.method.region r).blocks = (s.method.region r).blocks :=
    joined.content.blocks
  have placed : t.Placed regions := by
    apply ready.keeps (I := State.Placed regions) State.Placed.step hjoins
    intro b o ho
    rw [hfree] at ho
    cases ho
  refine ⟨fun r => ⟨hblocks r, joined.nesting.outer r⟩, fun b => ⟨?_, fun hnone => ?_⟩⟩
  · rintro ⟨r, hr, hb⟩
    rw [← hblocks] at hb
    obtain ⟨o, ho, -⟩ := (hfinished r hr).claimed b hb
    obtain ⟨hlisted, hmem⟩ := placed b o ho
    refine ⟨o, hlisted, ho, hblocks o ▸ hmem, fun q hq hbq => ?_⟩
    -- Region `q` was wired too, and has not found `b` in a region around it.
    rw [← hblocks] at hbq
    obtain ⟨o', ho', hout⟩ := (hfinished q hq).claimed b hbq
    rw [ho] at ho'
    cases ho'
    rw [← joined.nesting.under]
    exact hout (hforest.sameNesting joined.nesting)
  · cases ho : t.method.graph.home b with
    | none => rfl
    | some o =>
      obtain ⟨hlisted, hmem⟩ := placed b o ho
      rw [hblocks] at hmem
      exact absurd hmem (hnone o hlisted)

/-- Regions 0, 1 and 2 lie in one another and list block 1; region 3 lists the code of the handler
of region 0, to which nothing leads before region 0 is wired. -/
def nestedRegions : State where
  method :=
    { name := "m"
      graph :=
        { blocks := #[
            { offset := 0, succs := [1] },
            { offset := 2, instrs := [{ opcode := .invoke, offset := 2 }], preds := [0],
              succs := [2], catches := some ⟨[0, 1, 2]⟩ },
            { offset := 4, preds := [1] },
            { offset := 16, handler := some 0, catches := some ⟨[3]⟩ },
            { offset := 32, handler := some 1 },
            { offset := 48, handler := some 2 },
            { offset := 64, handler := some 3 }]
          live := [0, 1, 2, 3, 4, 5, 6] }
      enter := some 0
      handlers := #[
        { number := 0, offset := 16, entry := some 3, body := [3] },
        { number := 1, offset := 32, entry := some 4, body := [4] },
        { number := 2, offset := 48, entry := some 5, body := [5] },
        { number := 3, offset := 64, entry := some 6, body := [6] }]
      registered := [0, 1, 2, 3]
      forest := ⟨#[
        { number := 0, handlers := [0], blocks := [1], inner := [1] },
        { number := 1, handlers := [1], blocks := [1], outer := some 0, inner := [2] },
        { number := 2, handlers := [2], blocks := [1], outer := some 1 },
        { number := 3, handlers := [3], blocks := [3] }]⟩ }

def nestedWired : State := (exec (wire 10 [3, 0, 2, 1]) nestedRegions).2

/-- Region 3 has to wait, and region 2 keeps block 1 although region 1 comes after it. -/
theorem wire_attaches_innermost_nestedRegions :
    nestedRegions.method.graph.WellFormed ∧ nestedRegions.method.forest.WellFormed ∧
      (∀ b, nestedRegions.method.graph.home b = none) ∧
      exec (wire 10 [3, 0, 2, 1]) nestedRegions = (.ok (), nestedWired) ∧
      nestedWired.method.graph.home 1 = some 2 ∧
      (∀ r ∈ [3, 0, 2, 1], 1 ∈ (nestedRegions.method.region r).blocks →
        ¬TransGen nestedRegions.method.forest.Under r 2) ∧
      nestedWired.method.graph.home 2 = none := by
  have wf : nestedRegions.method.graph.WellFormed := by decide +kernel
  have hforest : nestedRegions.method.forest.WellFormed := by
    apply Forest.WellFormed.of_earlier
    have hall : ∀ r < 4, ∀ o ∈ (nestedRegions.method.forest.get r).outer, o < r := by
      decide +kernel
    intro r o hro
    exact hall r hro.lt o hro
  have hfree : ∀ b, nestedRegions.method.graph.home b = none := by
    have hall : ∀ b < 7, nestedRegions.method.graph.home b = none := by decide +kernel
    intro b
    by_cases hb : b < 7
    · exact hall b hb
    · rw [home, block?_eq_none.mpr (Nat.le_of_not_lt hb), Option.bind_none]
  have hok : exec (wire 10 [3, 0, 2, 1]) nestedRegions = (.ok (), nestedWired) :=
    Prod.ext (by decide +kernel) (by rw [nestedWired])
  have hhome : nestedWired.method.graph.home 1 = some 2 := by decide +kernel
  have hattached := (wire_attaches_innermost 10 wf hforest hfree hok).2
  obtain ⟨o, -, ho, -, hout⟩ := (hattached 1).1 ⟨0, by decide, by decide +kernel⟩
  rw [hhome] at ho
  cases ho
  exact ⟨wf, hforest, hfree, hok, hhome, hout, (hattached 2).2 (by decide +kernel)⟩

end TryRegions.Recovery
