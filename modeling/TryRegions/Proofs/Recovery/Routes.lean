import TryRegions.Proofs.Recovery.Joining

/-! What wiring does to ways over new blocks. A step of wiring ties an edge to a splitter, puts a
block in front of another, or leads an edge around such a block. Ways that lead from a splitter over
new blocks stay, and no way to a block that was there leads past all splitters, unless one did
before. -/

namespace TryRegions

namespace Graph

variable {n : Nat} {g g' : Graph} {u v : BlockId}

/-- The ways of the graph on which all blocks between the two ends satisfy `through`. -/
abbrev Ways (g : Graph) (through : BlockId → Prop) : BlockId → BlockId → Prop :=
  Route (fun a b => b ∈ g.succs a) through

/-- What a step of wiring does to edges. -/
inductive Redraws (n : Nat) (g g' : Graph) : Prop where
  | same (hsuccs : ∀ a c, c ∈ g'.succs a ↔ c ∈ g.succs a)
  | connect {x y : BlockId} (htied : g.IsSplitter x ∨ g.IsSplitter y)
      (hsuccs : ∀ a c, c ∈ g'.succs a ↔ c ∈ g.succs a ∨ a = x ∧ c = y)
  | split {b : BlockId} (hb : b < g.size)
      (hsuccs : ∀ a c, c ∈ g'.succs a ↔
        c ∈ g.succs a ∧ c ≠ b ∨ b ∈ g.succs a ∧ c = g.size ∨ a = g.size ∧ c = b)
  | turn {x old new : BlockId} (hold : old ∈ g.succs x) (hne : old ≠ new) (hnew : n ≤ old)
      (hplain : ¬g.IsSplitter old) (hout : ∀ c, c ∈ g.succs old ↔ c = new)
      (hsuccs : ∀ a c, c ∈ g'.succs a ↔
        c ∈ g.succs a ∧ ¬(a = x ∧ c = old) ∨ a = x ∧ c = new)

namespace Redraws

/-- A way from a splitter over new blocks may get longer or shorter, but it stays one. -/
theorem way (h : g.Redraws n g') (hn : n ≤ g.size) (hu : g.IsSplitter u) (hv : v < n)
    (hway : g.Ways (n ≤ ·) u v) : g'.Ways (n ≤ ·) u v := by
  cases h with
  | same hsuccs =>
    apply hway.replace fun _ hw => hw
    intro a c hac
    exact .edge ((hsuccs a c).mpr hac)
  | connect htied hsuccs =>
    apply hway.replace fun _ hw => hw
    intro a c hac
    exact .edge ((hsuccs a c).mpr (Or.inl hac))
  | @split b hb hsuccs =>
    apply hway.replace fun _ hw => hw
    intro a c hac
    by_cases hc : c = b
    · subst hc
      have hfirst : g.size ∈ g'.succs a := (hsuccs a g.size).mpr (Or.inr (Or.inl ⟨hac, rfl⟩))
      have hsecond : c ∈ g'.succs g.size := (hsuccs g.size c).mpr (Or.inr (Or.inr ⟨rfl, rfl⟩))
      exact .via hfirst hn (.edge hsecond)
    · exact .edge ((hsuccs a c).mpr (Or.inl ⟨hac, hc⟩))
  | @turn x old new hold hne hnew hplain hout hsuccs =>
    -- The block that is led around is no splitter and not the end, so the way can do without it.
    have hu' : u ≠ old := fun h => hplain (h ▸ hu)
    have hv' : v ≠ old := fun h => absurd hv (Nat.not_lt.mpr (h ▸ hnew))
    have hskip := (Route.iff_skipping hnew hout hne.symm hu' hv').mp hway
    apply hskip.replace fun _ hw => hw
    rintro a c ⟨-, hc, hac | ⟨hac, rfl⟩⟩
    · exact .edge ((hsuccs a c).mpr (Or.inl ⟨hac, fun h => hc h.2⟩))
    · by_cases ha : a = x
      · exact .edge ((hsuccs a c).mpr (Or.inr ⟨ha, rfl⟩))
      · have hfirst : old ∈ g'.succs a := (hsuccs a old).mpr (Or.inl ⟨hac, fun h => ha h.1⟩)
        have hsecond : c ∈ g'.succs old :=
          (hsuccs old c).mpr (Or.inl ⟨(hout c).mpr rfl, fun h => hc h.2⟩)
        exact .via hfirst hnew (.edge hsecond)

/-- A way between blocks that were there, over new blocks and past all splitters, was there
before. -/
theorem way_past (h : g.Redraws n g') (wf : g.WellFormed) (hn : n ≤ g.size)
    (hsplitters : ∀ w, g.IsSplitter w → n ≤ w) (hkept : ∀ w, g.IsSplitter w → g'.IsSplitter w)
    (hu : u < n) (hv : v < n) (hway : g'.Ways (fun w => n ≤ w ∧ ¬g'.IsSplitter w) u v) :
    g.Ways (fun w => n ≤ w ∧ ¬g.IsSplitter w) u v := by
  have hold : ∀ w < n, ¬g.IsSplitter w := fun w hw hs =>
    absurd hw (Nat.not_lt.mpr (hsplitters w hs))
  have hthrough : ∀ w, n ≤ w ∧ ¬g'.IsSplitter w →
      (n ≤ w ∧ ¬g.IsSplitter w) ∧ ¬g.IsSplitter w := fun w hw =>
    ⟨⟨hw.1, fun hs => hw.2 (hkept w hs)⟩, fun hs => hw.2 (hkept w hs)⟩
  cases h with
  | same hsuccs =>
    apply hway.translate hthrough _ (hold u hu) (hold v hv)
    intro a c _ _ hac
    exact .edge ((hsuccs a c).mp hac)
  | connect htied hsuccs =>
    apply hway.translate hthrough _ (hold u hu) (hold v hv)
    intro a c ha hc hac
    rcases (hsuccs a c).mp hac with hac | ⟨rfl, rfl⟩
    · exact .edge hac
    · exact absurd htied (not_or.mpr ⟨ha, hc⟩)
  | @split b hb hsuccs =>
    have hout : ∀ c, c ∈ g'.succs g.size ↔ c = b := by
      intro c
      have hnone : ∀ x, x ∉ g.succs g.size := fun x hx =>
        Nat.lt_irrefl _ (lt_of_mem_succs hx)
      rw [hsuccs]
      simp [hnone]
    have hmid : n ≤ g.size ∧ ¬g.IsSplitter g.size :=
      ⟨hn, fun hs => Nat.lt_irrefl _ hs.lt⟩
    have hway' : g'.Ways (fun w => n ≤ w ∧ ¬g.IsSplitter w) u v :=
      hway.translate hthrough (fun _ _ _ _ hac => .edge hac) (hold u hu) (hold v hv)
    -- Without the new block the ways are those of before.
    have hskip := (Route.iff_skipping hmid hout (Nat.ne_of_lt hb)
      (Nat.ne_of_lt (Nat.lt_of_lt_of_le hu hn)) (Nat.ne_of_lt (Nat.lt_of_lt_of_le hv hn))).mp hway'
    apply hskip.replace fun _ hw => hw
    rintro a c ⟨ha, hc, hac | ⟨hac, rfl⟩⟩
    · rcases (hsuccs a c).mp hac with hac | hac | hac
      · exact .edge hac.1
      · exact absurd hac.2 hc
      · exact absurd hac.1 ha
    · rcases (hsuccs a g.size).mp hac with hac | hac | hac
      · exact absurd (wf.succs_lt a _ hac.1) (Nat.lt_irrefl _)
      · exact .edge hac.1
      · exact absurd hac.1 ha
  | @turn x old new hedge hne hnew hplain hout hsuccs =>
    apply hway.translate hthrough _ (hold u hu) (hold v hv)
    intro a c _ _ hac
    rcases (hsuccs a c).mp hac with hac | ⟨rfl, rfl⟩
    · exact .edge hac.1
    · exact .via hedge ⟨hnew, hplain⟩ (.edge ((hout c).mpr rfl))

end Redraws

end Graph

namespace Recovery

open TryRegions.Graph

variable {n : Nat} {regions : List RegionId} {tidy : Prop} {s t : State}

theorem Joining.redraws (h : Joining n regions tidy s t) (wf : s.method.graph.WellFormed) :
    s.method.graph.Redraws n t.method.graph := by
  cases h with
  | note h => exact .same fun a c => by rw [h.annotated.succs]
  | @flag b flags hnew =>
    have noted : s.method.graph.Annotated (s.method.graph.modify b (·.addFlags flags)) :=
      .modify _ b fun _ => ⟨rfl, rfl, rfl⟩
    exact .same fun a c => by rw [State.graph_withGraph, noted.succs]
  | newBlock => exact .same fun a c => by rw [State.graph_withGraph, succs_newBlock]
  | connect hedit htied hlive =>
    obtain ⟨⟨hlt, -⟩, rfl⟩ := connect_eq_ok.mp hedit
    exact .connect htied fun a c => mem_succs_addEdge hlt
  | split hedit hlive =>
    obtain ⟨hlt, rfl⟩ := splitTop_eq_ok.mp hedit
    exact .split hlt (splitAbove_rewired wf hlt).mem_succs
  | turn hold hne hedit hnew hplain hout hlive =>
    obtain ⟨-, rfl⟩ := reconnect_eq_ok.mp hedit
    exact .turn hold hne hnew hplain hout fun a c => WellFormed.mem_succs_redirect wf hold hne
  | @attach r b hr hb hlt hhome =>
    have noted : s.method.graph.Annotated
        (s.method.graph.modify b fun k => { k with region := some r }) :=
      .modify _ b fun _ => ⟨rfl, rfl, rfl⟩
    exact .same fun a c => by rw [State.graph_withGraph, noted.succs]
  | tie hsynthetic htop hclauses => exact .same fun _ _ => Iff.rfl

end Recovery

end TryRegions
