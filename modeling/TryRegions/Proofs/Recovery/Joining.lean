import TryRegions.Proofs.Graph.Live
import TryRegions.Proofs.Recovery.Trace

/-! The steps that regions are wired in. Blocks are added, edges are added or turned, blocks get
flags and regions, and nothing is taken away. As long as the blocks of the regions and the entries
of their handlers are live, all that wiring joins is live too. -/

open Relation

namespace TryRegions

/-- What `f` tells about splitters, `g` tells too. -/
structure BlockFlags.KeptIn (f g : BlockFlags) : Prop where
  synthetic : f.synthetic = true → g.synthetic = true
  topSplitter : f.topSplitter = true → g.topSplitter = true
  bottomSplitter : f.bottomSplitter = true → g.bottomSplitter = true

namespace BlockFlags.KeptIn

variable {f g h : BlockFlags}

theorem refl (f : BlockFlags) : KeptIn f f := ⟨id, id, id⟩

theorem trans (hfg : KeptIn f g) (hgh : KeptIn g h) : KeptIn f h :=
  ⟨fun hf => hgh.synthetic (hfg.synthetic hf), fun hf => hgh.topSplitter (hfg.topSplitter hf),
    fun hf => hgh.bottomSplitter (hfg.bottomSplitter hf)⟩

theorem union_left (f g : BlockFlags) : KeptIn f (f.union g) := by
  constructor <;> intro hf <;> simp [union, hf]

theorem union_right (f g : BlockFlags) : KeptIn g (f.union g) := by
  constructor <;> intro hg <;> simp [union, hg]

theorem of_hasAll (h : f.hasAll g = true) : KeptIn g f := by
  have hunion : f.union g = f := of_decide_eq_true h
  exact hunion ▸ union_right f g

end BlockFlags.KeptIn

namespace Graph

variable {g g' : Graph} {b c : BlockId}

theorem IsSplitter.kept (h : g.IsSplitter b) (hkept : (g.flags b).KeptIn (g'.flags b)) :
    g'.IsSplitter b :=
  h.imp hkept.topSplitter hkept.bottomSplitter

theorem flags_newBlock (offset : Int) (c : BlockId) : (g.newBlock offset).flags c = g.flags c := by
  rw [flags_eq_core, core_newBlock, flags_eq_core]
  split
  · rename_i hc
    rw [hc, core, block?_eq_none.mpr (Nat.le_refl _)]
    rfl
  · rfl

theorem keptIn_addFlags (hb : b < g.size) (flags : BlockFlags) :
    flags.KeptIn ((g.modify b (·.addFlags flags)).flags b) := by
  rw [flags_modify g b b _ (BlockFlags.union · flags) fun _ => rfl, if_pos ⟨rfl, hb⟩]
  exact .union_right _ _

theorem home_congr (h : g'.core b = g.core b) : g'.home b = g.home b := by
  rw [home_eq_label, label, h, ← label, ← home_eq_label]

theorem home_modify (g : Graph) (b c : BlockId) {f : Block → Block}
    (hf : ∀ k, (f k).region = k.region) : (g.modify b f).home c = g.home c := by
  rw [home, home, block?_modify]
  split
  · cases g.block? c with
    | none => rfl
    | some k => exact hf k
  · rfl

theorem home_newBlock (offset : Int) (c : BlockId) : (g.newBlock offset).home c = g.home c := by
  rw [home_eq_label, label, core_newBlock, home_eq_label, label]
  split
  · rename_i hc
    rw [hc, core, block?_eq_none.mpr (Nat.le_refl _)]
    rfl
  · rfl

theorem flags_splitAbove (wf : g.WellFormed) (hb : b < g.size) (c : BlockId) :
    (g.splitAbove b).flags c = g.flags c := by
  rw [flags_eq_core, (splitAbove_rewired wf hb).core, ← flags_eq_core, flags_newBlock]

theorem home_splitAbove (wf : g.WellFormed) (hb : b < g.size) (c : BlockId) :
    (g.splitAbove b).home c = g.home c := by
  rw [home_congr ((splitAbove_rewired wf hb).core c), home_newBlock]

theorem home_modify_region (hb : b < g.size) (r : RegionId) (c : BlockId) :
    (g.modify b fun k => { k with region := some r }).home c =
      if c = b then some r else g.home c := by
  obtain ⟨k, hk⟩ := exists_block hb
  rw [home, block?_modify, home]
  by_cases hc : c = b
  · subst hc
    simp [hk]
  · simp [hc, Ne.symm hc]

end Graph

namespace Recovery

open RecoverM TryRegions.Graph

/-- Block `e` is the entry of a clause of the region `r` or of one around it. -/
def State.Clause (s : State) (r : RegionId) (e : BlockId) : Prop :=
  ∃ o ∈ s.method.forest.chain r, ∃ h ∈ (s.method.region o).handlers,
    (s.method.handler h).entry = some e

variable {n : Nat} {regions : List RegionId} {tidy : Prop} {s t u : State}

/-- A step of wiring. Splitters are blocks from `n` on; an edge that is added starts or ends at one,
and one that is turned leads past a block from `n` on which is none. If `tidy`, the blocks that the
step joins are live. -/
inductive Joining (n : Nat) (regions : List RegionId) (tidy : Prop) : State → State → Prop where
  | note {s t : State} (h : Resting s t) : Joining n regions tidy s t
  | flag {s : State} {b : BlockId} {flags : BlockFlags}
      (hnew : flags.topSplitter = true ∨ flags.bottomSplitter = true → n ≤ b) :
      Joining n regions tidy s (s.withGraph (s.method.graph.modify b (·.addFlags flags)))
  | newBlock {s : State} {offset : Int} :
      Joining n regions tidy s (s.withGraph (s.method.graph.newBlock offset))
  | connect {s : State} {a b : BlockId} {g : Graph} (hedit : s.method.graph.connect a b = .ok g)
      (htied : s.method.graph.IsSplitter a ∨ s.method.graph.IsSplitter b)
      (hlive : tidy → s.method.graph.isLive a = true ∧ s.method.graph.isLive b = true) :
      Joining n regions tidy s (s.withGraph g)
  | split {s : State} {b : BlockId} {g : Graph} (hedit : s.method.graph.splitTop b = .ok g)
      (hlive : tidy → s.method.graph.isLive b = true) : Joining n regions tidy s (s.withGraph g)
  | turn {s : State} {a old new : BlockId} {g : Graph} (hold : old ∈ s.method.graph.succs a)
      (hne : old ≠ new) (hedit : s.method.graph.reconnect a old new = .ok g)
      (hnew : n ≤ old) (hplain : ¬s.method.graph.IsSplitter old)
      (hout : ∀ x, x ∈ s.method.graph.succs old ↔ x = new)
      (hlive : tidy → s.method.graph.isLive new = true) : Joining n regions tidy s (s.withGraph g)
  | attach {s : State} {r : RegionId} {b : BlockId} (hr : r ∈ regions)
      (hb : b ∈ (s.method.region r).blocks) (hlt : b < s.method.graph.size)
      (hhome : ∀ o, s.method.graph.home b = some o → s.method.forest.hasAncestor r o = true) :
      Joining n regions tidy s
        (s.withGraph (s.method.graph.modify b fun k => { k with region := some r }))
  | tie {s : State} {r : RegionId} {b : BlockId}
      (hsynthetic : (s.method.graph.flags b).synthetic = true)
      (htop : (s.method.graph.flags b).topSplitter = true)
      (hclauses : ∀ e, s.Clause r e → e ∈ s.method.graph.succs b) :
      Joining n regions tidy s { s with
        method := s.method.modifyRegion r fun k => { k with topSplitter := some b } }

/-- Wiring, step by step. -/
abbrev Joins (n : Nat) (regions : List RegionId) (tidy : Prop) : State → State → Prop :=
  ReflTransGen (Joining n regions tidy)

/-- Blocks stay, live ones live and splitters splitters, and handlers and regions keep what they
own. -/
structure Joined (s t : State) : Prop extends Quiet Edit s t where
  size_le : s.method.graph.size ≤ t.method.graph.size
  isLive : ∀ b, s.method.graph.isLive b = true → t.method.graph.isLive b = true
  flags : ∀ b, (s.method.graph.flags b).KeptIn (t.method.graph.flags b)
  extent : ∀ h, (t.method.handler h).extent = (s.method.handler h).extent
  content : s.method.forest.SameContent t.method.forest

namespace Joined

theorem refl (s : State) : Joined s s :=
  ⟨.refl s, Nat.le_refl _, fun _ hb => hb, fun _ => .refl _, fun _ => rfl, .refl _⟩

theorem trans (h : Joined s t) (h' : Joined t u) : Joined s u where
  toQuiet := h.toQuiet.trans h'.toQuiet
  size_le := Nat.le_trans h.size_le h'.size_le
  isLive b hb := h'.isLive b (h.isLive b hb)
  flags b := (h.flags b).trans (h'.flags b)
  extent k := (h'.extent k).trans (h.extent k)
  content := h.content.trans h'.content

theorem wellFormed (h : Joined s t) (wf : s.method.graph.WellFormed) :
    t.method.graph.WellFormed :=
  wellFormed_of_edits h.graph wf

theorem entry (h : Joined s t) (k : HandlerId) :
    (t.method.handler k).entry = (s.method.handler k).entry :=
  congrArg Prod.fst (h.extent k)

theorem clause (h : Joined s t) (r : RegionId) (e : BlockId) : t.Clause r e ↔ s.Clause r e := by
  unfold State.Clause Method.region
  simp only [h.nesting.chain, h.content.handlers, h.entry]

theorem isSplitter (h : Joined s t) {b : BlockId} (hb : s.method.graph.IsSplitter b) :
    t.method.graph.IsSplitter b :=
  hb.kept (h.flags b)

theorem withGraph {g : Graph} (hedit : Edit s.method.graph g)
    (hsize : s.method.graph.size ≤ g.size)
    (hlive : ∀ b, s.method.graph.isLive b = true → g.isLive b = true)
    (hflags : ∀ b, (s.method.graph.flags b).KeptIn (g.flags b)) : Joined s (s.withGraph g) :=
  ⟨.withGraph hedit, hsize, hlive, hflags, fun _ => rfl, .refl _⟩

/-- A change of what is noted on blocks. -/
theorem annotated {g : Graph} (hgraph : s.method.graph.Annotated g)
    (hflags : ∀ b, (s.method.graph.flags b).KeptIn (g.flags b)) : Joined s (s.withGraph g) :=
  .withGraph (.cut (.annotate hgraph)) (Nat.le_of_eq hgraph.size.symm)
    (fun b hb => (hgraph.isLive b).trans hb) hflags

end Joined

/-- Flags are only added, and those of a splitter to blocks from `n` on. -/
theorem Joining.flags (h : Joining n regions tidy s t) (wf : s.method.graph.WellFormed)
    (b : BlockId) :
    t.method.graph.flags b = s.method.graph.flags b ∨
      ∃ flags : BlockFlags, (flags.topSplitter = true ∨ flags.bottomSplitter = true → n ≤ b) ∧
        t.method.graph.flags b = (s.method.graph.flags b).union flags := by
  cases h with
  | note h => exact .inl (h.flags b)
  | @flag c flags hnew =>
    rw [State.graph_withGraph, flags_modify _ c b _ (BlockFlags.union · flags) fun _ => rfl]
    split
    · rename_i hc
      obtain ⟨rfl, -⟩ := hc
      exact .inr ⟨flags, hnew, rfl⟩
    · exact .inl rfl
  | newBlock => exact .inl (flags_newBlock _ b)
  | connect hedit htied hlive =>
    obtain ⟨-, rfl⟩ := connect_eq_ok.mp hedit
    left
    rw [State.graph_withGraph, flags_eq_core, core_addEdge, ← flags_eq_core]
  | split hedit hlive =>
    obtain ⟨hlt, rfl⟩ := splitTop_eq_ok.mp hedit
    exact .inl (flags_splitAbove wf hlt b)
  | turn hold hne hedit hnew hplain hout hlive =>
    obtain ⟨-, rfl⟩ := reconnect_eq_ok.mp hedit
    left
    rw [State.graph_withGraph, flags_eq_core, core_redirect, ← flags_eq_core]
  | attach hr hb hlt hhome =>
    exact .inl (flags_congr (map_block?_modify _ s.method.graph _ b _ fun _ => rfl))
  | tie hsynthetic htop hclauses => exact .inl rfl

theorem Joining.keptIn (h : Joining n regions tidy s t) (wf : s.method.graph.WellFormed)
    (b : BlockId) : (s.method.graph.flags b).KeptIn (t.method.graph.flags b) := by
  rcases h.flags wf b with hsame | ⟨flags, -, hunion⟩
  · rw [hsame]
    exact .refl _
  · rw [hunion]
    exact .union_left _ _

/-- Only blocks from `n` on become splitters. -/
theorem Joining.isSplitter (h : Joining n regions tidy s t) (wf : s.method.graph.WellFormed)
    {b : BlockId} (hb : t.method.graph.IsSplitter b) :
    s.method.graph.IsSplitter b ∨ n ≤ b := by
  rcases h.flags wf b with hsame | ⟨flags, hnew, hunion⟩
  · exact .inl ((isSplitter_congr hsame).mp hb)
  · rw [IsSplitter, hunion] at hb
    simp only [BlockFlags.union, Bool.or_eq_true] at hb
    rcases hb with (hb | hb) | hb | hb
    · exact .inl (.inl hb)
    · exact .inr (hnew (.inl hb))
    · exact .inl (.inr hb)
    · exact .inr (hnew (.inr hb))

theorem Joining.joined (h : Joining n regions tidy s t) (wf : s.method.graph.WellFormed) :
    Joined s t := by
  have hflags := h.keptIn wf
  cases h with
  | note h =>
    exact ⟨h.toQuiet.mono fun _ _ => .cut, Nat.le_of_eq h.annotated.size.symm,
      fun b hb => (h.annotated.isLive b).trans hb, hflags, h.extent, h.forest ▸ .refl _⟩
  | @flag b flags hnew => exact .annotated (.modify _ b fun _ => ⟨rfl, rfl, rfl⟩) hflags
  | newBlock =>
    refine .withGraph .newBlock ?_ (fun b hb => (isLive_newBlock _ b).mpr (Or.inr hb)) hflags
    rw [size_newBlock]
    exact Nat.le_succ _
  | connect hedit htied hlive =>
    obtain ⟨-, rfl⟩ := connect_eq_ok.mp hedit
    refine .withGraph (.connect hedit) (Nat.le_of_eq (size_addEdge ..).symm) (fun b hb => ?_) hflags
    rwa [isLive_eq_core, core_addEdge, ← isLive_eq_core]
  | split hedit hlive =>
    obtain ⟨hlt, rfl⟩ := splitTop_eq_ok.mp hedit
    refine .withGraph (.splitTop hedit) ?_ (fun b hb => ?_) hflags
    · rw [size_splitAbove wf hlt]
      exact Nat.le_succ _
    · exact (isLive_splitAbove wf hlt b).mpr (Or.inr hb)
  | turn hold hne hedit hnew hplain hout hlive =>
    obtain ⟨-, rfl⟩ := reconnect_eq_ok.mp hedit
    refine .withGraph (.reconnect hold hne hedit) (Nat.le_of_eq (size_redirect ..).symm)
      (fun b hb => ?_) hflags
    rwa [isLive_eq_core, core_redirect, ← isLive_eq_core]
  | @attach r b hr hb hlt hhome => exact .annotated (.modify _ b fun _ => ⟨rfl, rfl, rfl⟩) hflags
  | @tie r b hsynthetic htop hclauses =>
    exact ⟨.of_same rfl rfl rfl (.modify _ r fun _ => ⟨rfl, rfl⟩), Nat.le_refl _, fun _ hb => hb,
      hflags, fun _ => rfl, .modify _ r _ (fun _ => rfl) (fun _ => rfl) fun _ => rfl⟩

theorem joined_of_joins (h : Joins n regions tidy s t)
    (wf : s.method.graph.WellFormed) : Joined s t := by
  induction h with
  | refl => exact .refl s
  | tail _ hstep ih => exact ih.trans (hstep.joined (ih.wellFormed wf))

/-- Wiring changes no instruction, and blocks that it makes have none. -/
theorem Joining.instrs (h : Joining n regions tidy s t) (b : BlockId) :
    t.method.graph.instrs b = s.method.graph.instrs b := by
  cases h with
  | note h => exact h.instrs b
  | @flag c flags hnew => exact instrs_modify _ c (fun _ => by rfl) b
  | newBlock => exact instrs_newBlock _ _ b
  | connect hedit htied hlive =>
    obtain ⟨-, rfl⟩ := connect_eq_ok.mp hedit
    exact instrs_of_core (core_addEdge b)
  | split hedit hlive =>
    obtain ⟨-, rfl⟩ := splitTop_eq_ok.mp hedit
    exact instrs_splitAbove _ _ b
  | turn hold hne hedit hnew hplain hout hlive =>
    obtain ⟨-, rfl⟩ := reconnect_eq_ok.mp hedit
    exact instrs_of_core (core_redirect b)
  | @attach r c hr hb hlt hhome => exact instrs_modify _ c (fun _ => by rfl) b
  | tie hsynthetic htop hclauses => rfl

/-- A block keeps its region, unless one that lists the block and lies under that region takes its
place. -/
theorem Joining.home (h : Joining n regions tidy s t) (wf : s.method.graph.WellFormed)
    (b : BlockId) :
    t.method.graph.home b = s.method.graph.home b ∨
      ∃ r ∈ regions, b ∈ (s.method.region r).blocks ∧ t.method.graph.home b = some r ∧
        ∀ o, s.method.graph.home b = some o → s.method.forest.hasAncestor r o = true := by
  cases h with
  | note h => exact .inl (h.home b)
  | @flag c flags hnew =>
    refine .inl ?_
    exact home_modify _ c b fun _ => rfl
  | newBlock => exact .inl (home_newBlock _ b)
  | connect hedit htied hlive =>
    obtain ⟨-, rfl⟩ := connect_eq_ok.mp hedit
    exact .inl (home_congr (core_addEdge ..))
  | split hedit hlive =>
    obtain ⟨hlt, rfl⟩ := splitTop_eq_ok.mp hedit
    exact .inl (home_splitAbove wf hlt b)
  | turn hold hne hedit hnew hplain hout hlive =>
    obtain ⟨-, rfl⟩ := reconnect_eq_ok.mp hedit
    exact .inl (home_congr (core_redirect ..))
  | @attach r c hr hc hlt hhome =>
    rw [State.graph_withGraph, home_modify_region hlt]
    by_cases hb : b = c
    · subst hb
      exact .inr ⟨r, hr, hc, if_pos rfl, hhome⟩
    · exact .inl (if_neg hb)
  | tie hsynthetic htop hclauses => exact .inl rfl

/-- A region keeps its splitter, unless it is tied to one that leads to all its clauses. -/
theorem Joining.topSplitter (h : Joining n regions tidy s t) (r : RegionId) :
    (t.method.region r).topSplitter = (s.method.region r).topSplitter ∨
      ∃ b, (t.method.region r).topSplitter = some b ∧
        (s.method.graph.flags b).synthetic = true ∧
        (s.method.graph.flags b).topSplitter = true ∧
        ∀ e, s.Clause r e → e ∈ s.method.graph.succs b := by
  cases h with
  | note h => exact .inl (by rw [h.region])
  | @tie q b hsynthetic htop hclauses =>
    rw [Method.region, Method.modifyRegion, Forest.get_modify]
    split
    · rename_i hq
      obtain ⟨rfl, -⟩ := hq
      exact .inr ⟨b, rfl, hsynthetic, htop, hclauses⟩
    · exact .inl rfl
  | _ => exact .inl rfl

theorem Joining.edgesLive (h : Joining n regions tidy s t) (htidy : tidy)
    (wf : s.method.graph.WellFormed) (hs : s.method.graph.EdgesLive) :
    t.method.graph.EdgesLive := by
  cases h with
  | note h => exact hs.sameFlow h.annotated.toSameFlow
  | @flag b flags hnew =>
    exact hs.sameFlow (.modify _ b _ (fun _ => rfl) (fun _ => rfl) fun _ => rfl)
  | newBlock => exact hs.newBlock _
  | connect hedit htied hlive =>
    obtain ⟨-, rfl⟩ := connect_eq_ok.mp hedit
    exact hs.addEdge (hlive htidy).1 (hlive htidy).2
  | split hedit hlive =>
    obtain ⟨-, rfl⟩ := splitTop_eq_ok.mp hedit
    exact hs.splitAbove wf (hlive htidy)
  | turn hold hne hedit hnew hplain hout hlive =>
    obtain ⟨-, rfl⟩ := reconnect_eq_ok.mp hedit
    exact hs.redirect wf hold hne (hlive htidy)
  | @attach r b hr hb hlt hhome =>
    exact hs.sameFlow (.modify _ b _ (fun _ => rfl) (fun _ => rfl) fun _ => rfl)
  | tie hsynthetic htop hclauses => exact hs

/-- Nothing that the regions need was taken away: their blocks and the entries of their handlers are
live, and all edges join live blocks. -/
structure State.Settled (regions : List RegionId) (s : State) : Prop where
  current : s.Current
  edges : s.method.graph.EdgesLive
  nested : ∃ base, s.method.forest.Nested base regions
  blocks : ∀ r ∈ regions, ∀ b ∈ (s.method.region r).blocks, s.method.graph.isLive b = true
  entries : ∀ r ∈ regions, ∀ h ∈ (s.method.region r).handlers,
    ∃ e, (s.method.handler h).entry = some e ∧ s.method.graph.isLive e = true

theorem State.Settled.joined (hs : s.Settled regions) (h : Joined s t)
    (hedges : t.method.graph.EdgesLive) : t.Settled regions where
  current := h.current hs.current
  edges := hedges
  nested := hs.nested.imp fun _ hnested => hnested.sameNesting h.nesting
  blocks r hr b hb := by
    rw [Method.region, h.content.blocks] at hb
    exact h.isLive b (hs.blocks r hr b hb)
  entries r hr k hk := by
    rw [Method.region, h.content.handlers] at hk
    obtain ⟨e, he, hlive⟩ := hs.entries r hr k hk
    exact ⟨e, (h.entry k).trans he, h.isLive e hlive⟩

/-- What wiring starts from: blocks before `n` are no splitters and, if `tidy`, the regions are
settled. -/
structure Ready (n : Nat) (regions : List RegionId) (tidy : Prop) (s : State) : Prop where
  wellFormed : s.method.graph.WellFormed
  le_size : n ≤ s.method.graph.size
  splitters : ∀ b, s.method.graph.IsSplitter b → n ≤ b
  settled : tidy → s.Settled regions

namespace Ready

/-- Where all blocks count as new, nothing is asked of splitters. -/
theorem of_zero (wf : s.method.graph.WellFormed) (hs : tidy → s.Settled regions) :
    Ready 0 regions tidy s :=
  ⟨wf, Nat.zero_le _, fun _ _ => Nat.zero_le _, hs⟩

theorem step (hs : Ready n regions tidy s) (h : Joining n regions tidy s t) :
    Ready n regions tidy t where
  wellFormed := (h.joined hs.wellFormed).wellFormed hs.wellFormed
  le_size := Nat.le_trans hs.le_size (h.joined hs.wellFormed).size_le
  splitters b hb := (h.isSplitter hs.wellFormed hb).elim (hs.splitters b) id
  settled htidy := (hs.settled htidy).joined (h.joined hs.wellFormed)
    (h.edgesLive htidy hs.wellFormed (hs.settled htidy).edges)

theorem run (hs : Ready n regions tidy s) (h : Joins n regions tidy s t) :
    Ready n regions tidy t := by
  induction h with
  | refl => exact hs
  | tail _ hstep ih => exact ih.step hstep

/-- What every step keeps, a run keeps. -/
theorem keeps {I : State → Prop} (hs : Ready n regions tidy s)
    (step : ∀ {u v}, I u → Ready n regions tidy u → Joining n regions tidy u v → I v)
    (h : Joins n regions tidy s t) (hI : I s) : I t := by
  induction h with
  | refl => exact hI
  | tail hrun hstep ih => exact step ih (hs.run hrun) hstep

theorem joined (hs : Ready n regions tidy s) (h : Joins n regions tidy s t) :
    Joined s t :=
  joined_of_joins h hs.wellFormed

theorem isLive (hs : Ready n regions tidy s) (h : Joins n regions tidy s t)
    {b : BlockId} (hb : tidy → s.method.graph.isLive b = true) :
    tidy → t.method.graph.isLive b = true :=
  fun htidy => (hs.joined h).isLive b (hb htidy)

end Ready

end Recovery

end TryRegions
