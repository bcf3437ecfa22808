import TryRegions.Proofs.Recovery.Intake

/-! Inner regions and the blocks of those around them. A region that goes under another one brings
its blocks there, so it is contained in it then. A region that takes in blocks when it is under
another one already keeps them to itself. -/

open Relation

namespace TryRegions.Recovery

open RecoverM Forest

namespace Combining

/-- A block that a region with clause `h` has taken in while it was under another region. -/
def Late (past : List Combining) (h : HandlerId) (b : BlockId) : Prop :=
  ∃ q ∈ past, ∃ outer inner, q.Takes outer inner ∧ (∃ o, q.forest.Under outer o) ∧
    h ∈ (q.forest.get outer).handlers ∧ b ∈ (q.forest.get inner).blocks

/-- A region holds the blocks of those under it, except for what these have taken in late. -/
def Contained (past : List Combining) (p : Combining) : Prop :=
  ∀ r ∈ p.regions, ∀ o, p.forest.Under r o → ∀ b ∈ (p.forest.get r).blocks,
    b ∈ (p.forest.get o).blocks ∨ ∃ h ∈ (p.forest.get r).handlers, Late past h b

variable {base : Nat} {hs : List HandlerId} {past : List Combining} {p q : Combining}
  {h : HandlerId} {b : BlockId}

theorem Late.append (hlate : Late past h b) (more : List Combining) : Late (past ++ more) h b := by
  obtain ⟨q, hq, hlate⟩ := hlate
  exact ⟨q, List.mem_append_left _ hq, hlate⟩

theorem Contained.takeIn (hc : p.Contained past) (hp : p.Shared hs) (hn : q.InOrder base)
    {outer inner : RegionId} (hin : TakesIn p q outer inner) : q.Contained (past ++ [p]) := by
  intro r hr o hro b hheld
  have hmem := hin.mem r hr
  have ho := (hn.nested.listed r o (hn.nested.bounds r hr).1 hro).2
  have hkeep : ∀ b ∈ (p.forest.get o).blocks, b ∈ (q.forest.get o).blocks :=
    fun b hb => (hin.blocks o ho b).mpr (Or.inl hb)
  have htaken : ∀ b ∈ (p.forest.get inner).blocks, b ∈ (q.forest.get outer).blocks :=
    fun b hb => (hin.blocks outer hin.outer_mem b).mpr (Or.inr ⟨rfl, hb⟩)
  rw [hin.handlers r hr]
  have hold : (∃ h ∈ (p.forest.get r).handlers, Late past h b) →
      ∃ h ∈ (p.forest.get r).handlers, Late (past ++ [p]) h b :=
    fun ⟨h, hh, hlate⟩ => ⟨h, hh, hlate.append _⟩
  rcases (hin.blocks r hr b).mp hheld with hb | ⟨rfl, hb⟩
  · -- The region has held the block before.
    rcases hin.under r hr o hro with hro | ⟨rfl, rfl | hri⟩
    · exact (hc r hmem o hro b hb).imp (hkeep b) hold
    · exact Or.inl (htaken b hb)
    · exact (hc r hmem inner hri b hb).imp (htaken b) hold
  · -- The block comes with the inner region: late, if there is a region around already.
    rcases hin.under r hr o hro with hro | ⟨rfl, -⟩
    · obtain ⟨h, hh⟩ := List.exists_mem_of_ne_nil _ (hp.covering.handlers_ne_nil r hmem)
      exact Or.inr ⟨h, hh, p, by simp, r, inner, hin.takes, ⟨o, hro⟩, hh, hb⟩
    · exact Or.inl (htaken b hb)

theorem Contained.merge (hc : p.Contained past) {outer inner merged : RegionId}
    (hmerge : Merges p q outer inner merged) : q.Contained past := by
  intro r hr o hro b hb
  rcases hmerge.under r hr o hro with ⟨hr', ho', hro⟩ | ⟨hr', rfl, hro⟩ | ⟨rfl, ho', hro⟩
  · have hmem := ((hmerge.mem r hr).resolve_left hr').2
    rw [hmerge.blocks r hr'] at hb
    rw [hmerge.blocks o ho', hmerge.handlers r hr']
    exact hc r hmem o hro b hb
  · have hmem := ((hmerge.mem r hr).resolve_left hr').2
    rw [hmerge.blocks r hr'] at hb
    rw [hmerge.blocks_merged, hmerge.handlers r hr']
    rcases hro with hro | hro
    · exact hc r hmem outer hro b hb
    · rw [hmerge.same]
      exact hc r hmem inner hro b hb
  · rw [hmerge.blocks_merged] at hb
    rw [hmerge.blocks o ho']
    rcases hro with hro | hro
    · refine (hc outer hmerge.outer_mem o hro b hb).imp id fun ⟨h, hh, hlate⟩ => ?_
      exact ⟨h, (hmerge.handlers_merged h).mpr (Or.inl hh), hlate⟩
    · rw [hmerge.same] at hb
      refine (hc inner hmerge.inner_mem o hro b hb).imp id fun ⟨h, hh, hlate⟩ => ?_
      exact ⟨h, (hmerge.handlers_merged h).mpr (Or.inr hh), hlate⟩

theorem Contained.append (hc : p.Contained past) (more : List Combining) :
    p.Contained (past ++ more) := by
  intro r hr o hro b hb
  exact (hc r hr o hro b hb).imp id fun ⟨h, hh, hlate⟩ => ⟨h, hh, hlate.append _⟩

theorem Contained.step (hc : p.Contained past) (hp : p.Shared hs) (hn : p.InOrder base)
    (hstep : Step p q) : q.Contained (past ++ [p]) := by
  cases hp.effect hn hstep with
  | idle hnone hstate hregions =>
    obtain ⟨s, regions, pairs⟩ := q
    cases hstate
    cases hregions
    exact hc.append [p]
  | takeIn hin => exact hc.takeIn hp (hn.step hstep) hin
  | merge hnone hmerge => exact (hc.merge hmerge).append [p]

/-- Containment along a trail from a point where no region is under another one. -/
theorem Contained.run (hfree : ∀ r ∈ p.regions, (p.forest.get r).outer = none) (hp : p.Shared hs)
    (hn : p.InOrder base) (htrail : Trail p past q) : q.Contained past := by
  induction htrail with
  | refl =>
    intro r hr o hro
    rw [Under, hfree r hr] at hro
    cases hro
  | tail htrail hstep ih =>
    obtain ⟨hs', hshared⟩ := hp.at_run htrail.run
    exact ih.step hshared (hn.run htrail.run) hstep

end Combining

namespace Stages

open Combining

variable {c : Config} {m : Method} {r o : RegionId} {b : BlockId}

/-- The region came by the block: one of its clauses was given the block, or took it in. -/
def Gained (st : Stages c m) (r : RegionId) (b : BlockId) : Prop :=
  ∃ h ∈ (st.joined.method.region r).handlers, st.Given h b ∨ Took st.past h b

theorem mem_iff_gained (st : Stages c m) (hm : m.Fresh) (hr : r ∈ st.combined) :
    b ∈ (st.joined.method.region r).blocks ↔ st.Gained r b := by
  have hsource := st.sourced hm
  constructor
  · intro hb
    obtain ⟨hs, hend⟩ := (st.opened_shared hm).1.at_run st.trail.run
    obtain ⟨h, hh⟩ := List.exists_mem_of_ne_nil _ (hend.covering.handlers_ne_nil r hr)
    exact ⟨h, hh, (hsource r hr h hh b).mp hb⟩
  · rintro ⟨h, hh, hgained⟩
    exact (hsource r hr h hh b).mpr hgained

/-- When the combination is done, `r` or a region between `r` and `o` has taken in the block
late. -/
def LateBelow (st : Stages c m) (r o : RegionId) (b : BlockId) : Prop :=
  ∃ d, ReflTransGen st.joined.method.forest.Under r d ∧
    TransGen st.joined.method.forest.Under d o ∧
    ∃ h ∈ (st.joined.method.region d).handlers, Late st.past h b

/-- A region holds the blocks of all regions inside it, except for those taken in late. -/
theorem mem_outer_or_late (st : Stages c m) (hm : m.Fresh)
    (hr : r ∈ st.combined) (hway : TransGen st.joined.method.forest.Under r o)
    (hb : b ∈ (st.joined.method.region r).blocks) :
    b ∈ (st.joined.method.region o).blocks ∨ st.LateBelow r o b := by
  obtain ⟨hshared, base, horder⟩ := st.opened_shared hm
  have hcontained := Contained.run (p := .start st.opened st.made)
    (fun r hr => (st.opened_apart.2 r hr).1) hshared horder st.trail
  have hnested := (horder.run st.trail.run).nested
  induction hway using TransGen.head_induction_on with
  | single hro =>
    refine (hcontained _ hr o hro b hb).imp id fun ⟨h, hh, hlate⟩ => ?_
    exact ⟨_, .refl, .single hro, h, hh, hlate⟩
  | head hrd hway ih =>
    rcases hcontained _ hr _ hrd b hb with hb | ⟨h, hh, hlate⟩
    · have hd := (hnested.listed _ _ (hnested.bounds _ hr).1 hrd).2
      refine (ih hd hb).imp id fun ⟨d, hd, hlate⟩ => ?_
      exact ⟨d, .head hrd hd, hlate⟩
    · exact Or.inr ⟨_, .refl, .head hrd hway, h, hh, hlate⟩

/-- The regions that are wired are contained in those around them but for what was taken in late: a
block that no region on the way out has taken in late is in the outer region. -/
theorem mem_outer_of_not_late (st : Stages c m) (hm : m.Fresh) (hr : r ∈ st.regions)
    (hro : st.settled.method.forest.Under r o) (hb : b ∈ (st.settled.method.region r).blocks)
    (hlate : ¬st.LateBelow r o b) : b ∈ (st.settled.method.region o).blocks := by
  have hsettles := st.settles hm
  obtain ⟨ho, hway⟩ := hsettles.under r hr o hro
  obtain ⟨hheld, hstay⟩ := (hsettles.blocks r hr b).mp hb
  have hheld' := (st.mem_outer_or_late hm (hsettles.mem r hr) hway hheld).resolve_right hlate
  exact (hsettles.blocks o ho b).mpr ⟨hheld', hstay⟩

end Stages

/-- Which blocks of an inner region are in the one around it. For a fresh method the regions are
found, the recovery goes on with them, and a region that is under another one is under a listed one.
That one holds each of its blocks, except for those that were taken in late and that it did not come
by in another way. -/
theorem outer_holds_inner_iff (c : Config) {m : Method} (hm : m.Fresh) :
    Nonempty (Stages c m) ∧ ∀ st : Stages c m,
      (m.registered ≠ [] →
        exec (recover c) { method := m } = exec (ending c st.regions) st.settled) ∧
      ∀ r ∈ st.regions, ∀ o, st.settled.method.forest.Under r o → o ∈ st.regions ∧
        ∀ b ∈ (st.settled.method.region r).blocks,
          b ∈ (st.settled.method.region o).blocks ↔ (st.LateBelow r o b → st.Gained o b) := by
  refine ⟨Stages.nonempty c hm, fun st => ⟨st.exec_recover, fun r hr o hro => ?_⟩⟩
  have hsettles := st.settles hm
  have ho := (hsettles.under r hr o hro).1
  refine ⟨ho, fun b hb => ?_⟩
  have hstay := ((hsettles.blocks r hr b).mp hb).2
  have hgained : b ∈ (st.settled.method.region o).blocks ↔ st.Gained o b := by
    rw [hsettles.blocks o ho, and_iff_left hstay, st.mem_iff_gained hm (hsettles.mem o ho)]
  constructor
  · exact fun hheld _ => hgained.mp hheld
  · intro hlate
    by_cases hbelow : st.LateBelow r o b
    · exact hgained.mpr (hlate hbelow)
    · exact st.mem_outer_of_not_late hm hr hro hb hbelow

/-- Three handlers, each of which covers the code of the next one. -/
def guardChain : Method where
  name := "m"
  graph :=
    { blocks := #[
        { offset := 0, succs := [1] },
        { offset := 2, instrs := [{ opcode := .invoke, offset := 2, catches := some ⟨[0]⟩ }],
          preds := [0], succs := [2, 5] },
        { offset := 4, instrs := [{ opcode := .invoke, offset := 4, catches := some ⟨[1]⟩ }],
          preds := [1], succs := [3, 6] },
        { offset := 6, instrs := [{ opcode := .invoke, offset := 6, catches := some ⟨[2]⟩ }],
          preds := [2], succs := [4, 7] },
        { offset := 8, preds := [3] },
        { offset := 10, instrs := [{ opcode := .moveException, offset := 10, entry := some 0 }],
          preds := [1], tmpEdge := some 1 },
        { offset := 12, instrs := [
            { opcode := .moveException, offset := 12, entry := some 1 },
            { opcode := .invoke, offset := 13, catches := some ⟨[0]⟩ }],
          preds := [2], tmpEdge := some 2 },
        { offset := 14, instrs := [
            { opcode := .moveException, offset := 14, entry := some 2 },
            { opcode := .invoke, offset := 15, catches := some ⟨[1]⟩ }],
          preds := [3], tmpEdge := some 3 }]
      live := [0, 1, 2, 3, 4, 5, 6, 7] }
  enter := some 0
  handlers := #[{ number := 0, offset := 10, types := ["A"] },
    { number := 1, offset := 12, types := ["B"] }, { number := 2, offset := 14, types := ["C"] }]
  registered := [0, 1, 2]

def chainPrepared : State := (exec (preparing {} guardChain) { method := guardChain }).2

theorem guardChain_fresh : guardChain.Fresh := by decide +kernel

theorem exec_preparing_guardChain :
    exec (preparing {} guardChain) { method := guardChain } = (.ok [0, 1, 2], chainPrepared) :=
  Prod.ext (by decide +kernel) (by rw [chainPrepared])

/-- An inner region may hold a block that the outer one does not hold: block 3. -/
theorem preparing_inner_exceeds_outer :
    guardChain.Fresh ∧
      exec (preparing {} guardChain) { method := guardChain } = (.ok [0, 1, 2], chainPrepared) ∧
      (chainPrepared.method.region 1).outer = some 0 ∧
      (chainPrepared.method.region 1).blocks = [2, 7, 3] ∧
      (chainPrepared.method.region 0).blocks = [1, 6, 2, 7] :=
  ⟨guardChain_fresh, exec_preparing_guardChain, by decide +kernel, by decide +kernel,
    by decide +kernel⟩

/-- Block 3 came with region 2, which went under region 1 when that one was under region 0. -/
theorem outer_holds_inner_iff_guardChain :
    guardChain.Fresh ∧ ∃ st : Stages {} guardChain, st.regions = [0, 1, 2] ∧
      3 ∈ (st.settled.method.region 1).blocks ∧ 3 ∉ (st.settled.method.region 0).blocks ∧
      st.LateBelow 1 0 3 ∧ ¬st.Gained 0 3 := by
  have hunder : chainPrepared.method.forest.Under 1 0 := by
    show (chainPrepared.method.region 1).outer = some 0
    decide +kernel
  have hheld : 3 ∈ (chainPrepared.method.region 1).blocks := by decide +kernel
  have hmissing : 3 ∉ (chainPrepared.method.region 0).blocks := by decide +kernel
  obtain ⟨⟨st⟩, hall⟩ := outer_holds_inner_iff {} guardChain_fresh
  obtain ⟨hregions, hsettled⟩ := st.eq_of_prepares exec_preparing_guardChain
  have hiff := (hall st).2
  rw [hregions, hsettled] at hiff
  refine ⟨guardChain_fresh, st, hregions, hsettled ▸ hheld, hsettled ▸ hmissing, ?_⟩
  rw [← Classical.not_imp, ← (hiff 1 (by decide) 0 hunder).2 3 hheld]
  exact hmissing

end TryRegions.Recovery
