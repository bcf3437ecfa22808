import TryRegions.Proofs.Recovery.Routes

/-! The wiring of regions, sweep by sweep. Every sweep goes by steps of wiring. A region that was
wired is tied to a splitter, and its blocks belong to it or to regions that do not lie around it; it
stays so while others are wired. The queue is worked off before its fuel runs out. -/

open Relation

namespace TryRegions.Recovery

open RecoverM TryRegions.Graph

variable {n : Nat} {regions : List RegionId} {tidy : Prop} {s t : State}

/-- The block has a region, and one that does not lie around `r`. -/
def State.Claimed (s : State) (r : RegionId) (b : BlockId) : Prop :=
  ∃ o, s.method.graph.home b = some o ∧
    (s.method.forest.WellFormed → ¬TransGen s.method.forest.Under r o)

/-- A block leaves its region only for one under it, and so for none around `r`. -/
theorem State.Claimed.step {r : RegionId} {b : BlockId} (hs : s.Claimed r b)
    (ready : Ready n regions tidy s) (h : Joining n regions tidy s t) : t.Claimed r b := by
  have joined := h.joined ready.wellFormed
  obtain ⟨o, ho, hout⟩ := hs
  rcases h.home ready.wellFormed b with hsame | ⟨q, -, -, hq, hunder⟩
  · refine ⟨o, hsame.trans ho, fun hforest => ?_⟩
    rw [joined.nesting.under]
    exact hout (hforest.sameNesting joined.nesting.symm)
  · refine ⟨q, hq, fun hforest hrq => ?_⟩
    rw [joined.nesting.under] at hrq
    have hforest := hforest.sameNesting joined.nesting.symm
    exact hout hforest (hrq.trans (hforest.hasAncestor_iff.mp (hunder o ho)))

/-- The region is tied to `b`, a splitter from which ways over new blocks lead to the entries of all
clauses of the region and of those around it. -/
structure State.TiedTo (n : Nat) (s : State) (r : RegionId) (b : BlockId) : Prop where
  topSplitter : (s.method.region r).topSplitter = some b
  synthetic : (s.method.graph.flags b).synthetic = true
  isTop : (s.method.graph.flags b).topSplitter = true
  clauses : ∀ e < n, s.Clause r e → s.method.graph.Ways (n ≤ ·) b e

/-- What is tied to the region stays tied to it, unless it is tied anew. -/
theorem State.TiedTo.step {r : RegionId} {b : BlockId} (hs : s.TiedTo n r b)
    (ready : Ready n regions tidy s) (h : Joining n regions tidy s t) : ∃ c, t.TiedTo n r c := by
  have joined := h.joined ready.wellFormed
  have hways : ∀ {c e}, s.method.graph.IsSplitter c → e < n → s.method.graph.Ways (n ≤ ·) c e →
      t.method.graph.Ways (n ≤ ·) c e :=
    (h.redraws ready.wellFormed).way ready.le_size
  rcases h.topSplitter r with hsame | ⟨c, hc, hsynthetic, htop, hclauses⟩
  · refine ⟨b, hsame.trans hs.topSplitter, (joined.flags b).synthetic hs.synthetic,
      (joined.flags b).topSplitter hs.isTop, fun e he hclause => ?_⟩
    exact hways (Or.inl hs.isTop) he (hs.clauses e he ((joined.clause r e).mp hclause))
  · refine ⟨c, hc, (joined.flags c).synthetic hsynthetic, (joined.flags c).topSplitter htop,
      fun e he hclause => ?_⟩
    exact hways (Or.inl htop) he (.edge (hclauses e ((joined.clause r e).mp hclause)))

/-- The region is tied to a splitter, and its blocks are in regions that do not lie around it. -/
structure State.Finished (n : Nat) (s : State) (r : RegionId) : Prop where
  tied : r < s.method.forest.size → ∃ b, s.TiedTo n r b
  claimed : ∀ b ∈ (s.method.region r).blocks, s.Claimed r b

theorem State.Finished.step {r : RegionId} (hs : s.Finished n r) (ready : Ready n regions tidy s)
    (h : Joining n regions tidy s t) : t.Finished n r := by
  have joined := h.joined ready.wellFormed
  constructor
  · intro hr
    rw [joined.content.size] at hr
    obtain ⟨b, hb⟩ := hs.tied hr
    exact hb.step ready h
  · intro b hb
    rw [Method.region, joined.content.blocks] at hb
    exact (hs.claimed b hb).step ready h

theorem Ready.claimed (hs : Ready n regions tidy s) (h : Joins n regions tidy s t) {r : RegionId}
    {b : BlockId} (hb : s.Claimed r b) : t.Claimed r b :=
  hs.keeps (I := fun s => s.Claimed r b) State.Claimed.step h hb

theorem Ready.finished (hs : Ready n regions tidy s) (h : Joins n regions tidy s t) {r : RegionId}
    (hr : s.Finished n r) : t.Finished n r :=
  hs.keeps (I := fun s => s.Finished n r) State.Finished.step h hr

section Primitive

theorem joins_modify {f : State → State} (h : Resting s (f s)) :
    Moves (Joins n regions tidy) (modify f) s fun _ t => t = f s :=
  .modify (.single (.note h)) rfl

theorem joins_edit {f : Graph → Except Fault Graph}
    (h : ∀ g, f s.method.graph = .ok g → Joining n regions tidy s (s.withGraph g)) :
    Moves (Joins n regions tidy) (edit f) s fun _ t =>
      ∃ g, f s.method.graph = .ok g ∧ t = s.withGraph g :=
  .of_ask fun g hg => .modify (.single (h g hg)) ⟨g, hg, rfl⟩

theorem joins_connect {a b : BlockId}
    (htied : s.method.graph.IsSplitter a ∨ s.method.graph.IsSplitter b)
    (ha : tidy → s.method.graph.isLive a = true) (hb : tidy → s.method.graph.isLive b = true) :
    Moves (Joins n regions tidy) (edit fun g => g.connect a b) s fun _ t =>
      b ∈ t.method.graph.succs a ∧
        ∀ x y, y ∈ s.method.graph.succs x → y ∈ t.method.graph.succs x := by
  refine (joins_edit fun _ hg => .connect hg htied fun htidy => ⟨ha htidy, hb htidy⟩).mono ?_
  rintro _ _ - ⟨g, hg, rfl⟩
  obtain ⟨⟨hlt, -⟩, rfl⟩ := connect_eq_ok.mp hg
  rw [State.graph_withGraph]
  exact ⟨(mem_succs_addEdge hlt).mpr (Or.inr ⟨rfl, rfl⟩), fun x y hy =>
    (mem_succs_addEdge hlt).mpr (Or.inl hy)⟩

theorem joins_refreshClean (b : BlockId) :
    Moves (Joins n regions tidy) (edit fun g => g.refreshClean b) s fun _ _ => True := by
  refine (joins_edit fun g hg => .note ?_).weaken
  obtain ⟨-, rfl⟩ := refreshClean_eq_ok.mp hg
  exact .modify s b (fun _ => ⟨rfl, rfl, rfl⟩) (fun _ => rfl) fun _ => rfl

theorem joins_addFlags {b : BlockId} {flags : BlockFlags}
    (hnew : flags.topSplitter = true ∨ flags.bottomSplitter = true → n ≤ b) :
    Moves (Joins n regions tidy) (modifyGraph fun g => g.modify b (·.addFlags flags)) s
      fun _ t => t = s.withGraph (s.method.graph.modify b (·.addFlags flags)) :=
  .modify (.single (.flag hnew)) rfl

theorem joins_newBlock (offset : Int) :
    Moves (Joins n regions tidy) (newBlock offset) s fun b t =>
      b = s.method.graph.size ∧ t = s.withGraph (s.method.graph.newBlock offset) := by
  refine .of_graph (Moves.bind (Q := fun _ t => t = s.withGraph (s.method.graph.newBlock offset))
    (.modify (.single .newBlock) rfl) ?_)
  rintro _ t - rfl
  exact .pure ⟨rfl, rfl⟩

theorem joins_splitTop {b : BlockId} (hb : tidy → s.method.graph.isLive b = true) :
    Moves (Joins n regions tidy) (splitTop b) s fun c t =>
      c = s.method.graph.size ∧ b < s.method.graph.size ∧
        t = s.withGraph (s.method.graph.splitAbove b) := by
  refine .of_graph (Moves.bind (joins_edit fun g hg => .split hg hb) fun _ t _ ht =>
    .pure ⟨rfl, ?_⟩)
  obtain ⟨g, hg, rfl⟩ := ht
  obtain ⟨hlt, rfl⟩ := splitTop_eq_ok.mp hg
  exact ⟨hlt, rfl⟩

theorem joins_splitTop_new (hs : Ready n regions tidy s) {b : BlockId}
    (hb : tidy → s.method.graph.isLive b = true) :
    Moves (Joins n regions tidy) (splitTop b) s fun c t =>
      n ≤ c ∧ c < t.method.graph.size ∧ (tidy → t.method.graph.isLive c = true) := by
  refine (joins_splitTop hb).mono ?_
  rintro _ _ - ⟨rfl, hlt, rfl⟩
  have hlive := (isLive_splitAbove hs.wellFormed hlt s.method.graph.size).mpr (Or.inl rfl)
  exact ⟨hs.le_size, lt_of_isLive hlive, fun _ => hlive⟩

theorem joins_domTree :
    Moves (Joins n regions tidy) domTree s fun tree t =>
      (t.Current → tree = DomTree.ofGraph t.method.graph t.method.enter) ∧
        (t.method = s.method ∨
          t.method = { s.method with graph := s.method.graph.refreshAll }) :=
  moves_domTree.relax fun _ h => .single (.note h)

end Primitive

section Search

theorem joins_adjustTop (hs : Ready n regions tidy s) {top : BlockId}
    (htop : tidy → s.method.graph.isLive top = true) :
    Moves (Joins n regions tidy) (adjustTop top) s fun b t =>
      t = s ∧ (tidy → t.method.graph.isLive b = true) := by
  refine .of_block fun k hk => ?_
  split
  · rename_i b hsuccs _
    refine .pure ⟨rfl, fun htidy => ((hs.settled htidy).edges top b ?_).2⟩
    rw [succs_eq hk, hsuccs]
    exact List.mem_singleton_self b
  · exact .pure ⟨rfl, htop⟩

theorem joins_topBelow (hs : Ready n regions tidy s) {blocks : List BlockId}
    (hblocks : tidy → ∀ b ∈ blocks, s.method.graph.isLive b = true) {d : BlockId}
    (hd : tidy → s.method.graph.isLive d = true) :
    Moves (Joins n regions tidy) (topBelow blocks d) s fun b t =>
      t = s ∧ (tidy → t.method.graph.isLive b = true) := by
  refine .of_block fun k _ => ?_
  dsimp only
  split
  · -- The only block that `d` leads to is taken only if it is one of `blocks`.
    rename_i b hb
    refine .pure ⟨rfl, fun htidy => hblocks htidy b ?_⟩
    rcases Option.or_eq_some_iff.mp hb with h | ⟨-, h⟩
    · exact (onlyAmong_eq_some_iff.mp (Option.ite_none_right_eq_some.mp h).2).2
    · exact (onlyAmong_eq_some_iff.mp h).2
  · exact joins_adjustTop hs hd

/-- The search leaves the graph as it was, or with its clean edges made anew. -/
theorem joins_searchTop (hs : Ready n regions tidy s) {blocks : List BlockId}
    (hblocks : tidy → ∀ b ∈ blocks, s.method.graph.isLive b = true) :
    Moves (Joins n regions tidy) (searchTop blocks) s fun found t =>
      (t.method.graph = s.method.graph ∨ t.method.graph = s.method.graph.refreshAll) ∧
        ∀ b, found = some b → tidy → t.method.graph.isLive b = true := by
  refine .of_ask fun found hfound => ?_
  split
  · rename_i top htop
    obtain ⟨b, rfl, hpresent⟩ := Option.bind_eq_some_iff.mp htop
    rw [BlockId.eq_of_present? hpresent] at hfound
    have hmem := Graph.mem_of_firstRelated hfound
    refine (joins_adjustTop hs fun htidy => hblocks htidy top hmem).bind ?_
    rintro c _ - ⟨rfl, hc⟩
    refine .pure ⟨Or.inl rfl, fun b hb => ?_⟩
    cases hb
    exact hc
  · refine joins_domTree.bind fun tree t ht htree => .of_method ?_
    have hready := hs.run ht
    have hgraph : t.method.graph = s.method.graph ∨
        t.method.graph = s.method.graph.refreshAll :=
      htree.2.imp (congrArg Method.graph) (congrArg Method.graph)
    have hbelow : ∀ from' d, tree.commonDominator from' = some d →
        Moves (Joins n regions tidy) (do return some (← topBelow blocks d)) t
          fun found u => (u.method.graph = s.method.graph ∨
            u.method.graph = s.method.graph.refreshAll) ∧
              ∀ b, found = some b → tidy → u.method.graph.isLive b = true := by
      intro from' d hd
      refine (joins_topBelow hready (fun htidy b hb => ?_) fun htidy => ?_).bind ?_
      · exact (joined_of_joins ht hs.wellFormed).isLive b (hblocks htidy b hb)
      · have settled := hready.settled htidy
        rw [htree.1 settled.current] at hd
        exact DomTree.isLive_of_commonDominator hready.wellFormed settled.edges hd
      · rintro b _ - ⟨rfl, hb⟩
        refine .pure ⟨hgraph, fun c hc => ?_⟩
        cases hc
        exact hb
    split
    · rename_i d hd
      exact hbelow blocks d hd
    · exact .violate
    · dsimp only
      split
      · exact .pure ⟨hgraph, nofun⟩
      · split
        · rename_i d hd
          exact hbelow _ d hd
        · exact .violate

/-- The predecessors outside are some of the predecessors. -/
theorem joins_outside (blocks preds : List BlockId) :
    Moves (Joins n regions tidy) (preds.filterM fun p => do
        if p ∈ blocks then return false
        return !(← ask fun g => g.anyPathExists blocks p)) s
      fun outside t => t = s ∧ outside.Sublist preds := by
  refine Moves.mono (Moves.pick (fun rest kept t => t = s ∧ (kept ++ rest).Sublist preds)
    (fun p rest kept t _ ht => ?_) ⟨rfl, List.Sublist.refl _⟩) fun outside t _ ht => ?_
  · obtain ⟨rfl, hsub⟩ := ht
    have hdrop : (kept ++ rest).Sublist preds :=
      List.Sublist.trans (List.Sublist.append_left (List.sublist_cons_self p rest) kept) hsub
    split
    · exact .pure ⟨rfl, hdrop⟩
    · refine .of_ask fun reached _ => .pure ⟨rfl, ?_⟩
      cases reached with
      | false => simpa using hsub
      | true => exact hdrop
  · rw [List.append_nil] at ht
    exact ht

/-- Edges to the block in front of `cross` are there when they are turned. -/
theorem joins_leadAround (hs : Ready n regions tidy s) {split cross : BlockId} (hne : split ≠ cross)
    (hnew : n ≤ split) (hplain : ¬s.method.graph.IsSplitter split)
    (hout : ∀ x, x ∈ s.method.graph.succs split ↔ x = cross)
    (hcross : tidy → s.method.graph.isLive cross = true) {outside : List BlockId}
    (hnodup : outside.Nodup) (hin : ∀ p ∈ outside, split ∈ s.method.graph.succs p) :
    Moves (Joins n regions tidy)
      (outside.forM fun p => edit fun g => g.reconnect p split cross) s fun _ _ => True := by
  refine Moves.weaken (Moves.loop (fun rest t => rest.Nodup ∧
    (∀ p ∈ rest, split ∈ t.method.graph.succs p) ∧ ¬t.method.graph.IsSplitter split ∧
      ∀ x, x ∈ t.method.graph.succs split ↔ x = cross) (fun p rest t hst ht => ?_)
    ⟨hnodup, hin, hplain, hout⟩)
  obtain ⟨hnodup, hin, hplain, hout⟩ := ht
  have hp := hin p List.mem_cons_self
  refine (joins_edit fun g hg =>
    .turn hp hne hg hnew hplain hout (hs.isLive hst hcross)).mono fun _ u _ hu => ?_
  obtain ⟨g, hg, rfl⟩ := hu
  obtain ⟨-, rfl⟩ := reconnect_eq_ok.mp hg
  rw [List.nodup_cons] at hnodup
  have hturned := fun a b =>
    WellFormed.mem_succs_redirect (hs.run hst).wellFormed hp hne (a := a) (b := b)
  refine ⟨hnodup.2, fun q hq => ?_, fun hsplit => ?_, fun x => ?_⟩
  · rw [State.graph_withGraph, hturned]
    refine Or.inl ⟨hin q (List.mem_cons_of_mem p hq), fun h => ?_⟩
    exact hnodup.1 (h.1 ▸ hq)
  · rw [IsSplitter, State.graph_withGraph, flags_eq_core, core_redirect, ← flags_eq_core] at hsplit
    exact hplain hsplit
  · -- The block in front of the join is not one of those that lead to it.
    have hself : split ≠ p := by
      rintro rfl
      exact hne ((hout split).mp hp)
    rw [State.graph_withGraph, hturned, ← hout x]
    simp only [hself, false_and, not_false_eq_true, and_true, or_false]

/-- A block is put in front of `cross`, and edges from outside are led around it. -/
theorem joins_splitJoin (hs : Ready n regions tidy s) {cross : BlockId}
    (hcross : tidy → s.method.graph.isLive cross = true) {outside : List BlockId}
    (hsub : outside.Sublist (s.method.graph.preds cross)) :
    Moves (Joins n regions tidy) (do
        let split ← splitTop cross
        modifyGraph fun g => g.modify split (·.addFlags { synthetic := true })
        outside.forM fun p => edit fun g => g.reconnect p split cross
        return some split) s
      fun found t => ∀ b, found = some b → tidy → t.method.graph.isLive b = true := by
  have wf := hs.wellFormed
  refine (joins_splitTop hcross).bind fun split t ht hsplit => ?_
  obtain ⟨rfl, hlt, rfl⟩ := hsplit
  have hready := hs.run ht
  have hlive : tidy → (s.method.graph.splitAbove cross).isLive s.method.graph.size = true :=
    fun _ => (isLive_splitAbove wf hlt _).mpr (Or.inl rfl)
  refine (joins_addFlags (fun hsplitter => absurd hsplitter (by decide))).bind
    fun _ u hu hflags => ?_
  have hsuccs : ∀ a c, c ∈ u.method.graph.succs a ↔ c ∈ s.method.graph.succs a ∧ c ≠ cross ∨
      cross ∈ s.method.graph.succs a ∧ c = s.method.graph.size ∨
        a = s.method.graph.size ∧ c = cross := by
    intro a c
    rw [hflags, State.graph_withGraph, succs_modify_eq]
    · exact (splitAbove_rewired wf hlt).mem_succs a c
    · exact fun _ => rfl
  have hnone : s.method.graph.succs s.method.graph.size = [] := by
    rw [succs, block?_eq_none.mpr (Nat.le_refl _)]
    rfl
  refine (joins_leadAround (hready.run hu) (Nat.ne_of_gt hlt) hs.le_size (fun hsplitter => ?_)
    (fun x => ?_) (hready.isLive hu (hs.isLive ht hcross)) (hsub.nodup (wf.preds_nodup cross))
    fun p hp => ?_).andThen fun _ v hv => ?_
  · -- Nothing but `synthetic` is noted on the new block.
    have hplain : ¬(s.method.graph.splitAbove cross).IsSplitter s.method.graph.size := by
      rw [IsSplitter, flags_splitAbove wf hlt]
      exact fun h => Nat.lt_irrefl _ (IsSplitter.lt h)
    rw [hflags, IsSplitter, State.graph_withGraph,
      flags_modify _ _ _ _ (BlockFlags.union · { synthetic := true }) fun _ => rfl] at hsplitter
    refine hplain ?_
    split at hsplitter
    · simpa [IsSplitter, BlockFlags.union] using hsplitter
    · exact hsplitter
  · rw [hsuccs, hnone]
    simp
  · rw [hsuccs]
    exact Or.inr (Or.inl ⟨(wf.mirrored p cross).mpr (hsub.subset hp), rfl⟩)
  · refine .pure fun b hb => ?_
    cases hb
    exact (hready.run hu).isLive hv (hready.isLive hu hlive)

theorem joins_searchBottom (hs : Ready n regions tidy s) (hclean : s.method.graph.CleanWithin)
    {blocks : List BlockId} (hblocks : tidy → ∀ b ∈ blocks, s.method.graph.isLive b = true) :
    Moves (Joins n regions tidy) (searchBottom blocks) s fun found t =>
      ∀ b, found = some b → tidy → t.method.graph.isLive b = true := by
  refine .of_ask fun found hfound => ?_
  split
  · rename_i bottom hbottom
    obtain ⟨b, rfl, hpresent⟩ := Option.bind_eq_some_iff.mp hbottom
    rw [BlockId.eq_of_present? hpresent] at hfound
    refine .pure fun c hc htidy => ?_
    cases hc
    exact hblocks htidy bottom (Graph.mem_of_firstRelated hfound)
  · refine joins_domTree.bind fun tree t ht htree => .of_ask fun r hr => ?_
    have hready := hs.run ht
    have hclean : t.method.graph.CleanWithin := by
      rcases htree.2 with hsame | hfresh
      · rwa [hsame]
      · rw [hfresh]
        exact cleanWithin_refreshAll hs.wellFormed
    cases r with
    | none => exact .pure nofun
    | some cross =>
      have hcross : tidy → t.method.graph.isLive cross = true := by
        intro htidy
        have settled := hready.settled htidy
        rw [htree.1 settled.current] at hr
        refine DomTree.isLive_of_pathCross hready.wellFormed settled.edges hclean
          (fun b hb => ?_) hr
        exact (joined_of_joins ht hs.wellFormed).isLive b (hblocks htidy b hb)
      refine .of_block fun k hk => (joins_outside blocks k.preds).bind ?_
      rintro outside _ - ⟨rfl, hsub⟩
      rw [← preds_eq hk] at hsub
      split
      · refine .pure fun b hb => ?_
        cases hb
        exact hcross
      · exact joins_splitJoin hready hcross hsub

end Search

section Wiring

/-- A block that was found by its flags is a splitter, and so one of the new blocks. -/
theorem Ready.found (hs : Ready n regions tidy s) {flags : BlockFlags} {among : List BlockId}
    {b : BlockId} (hfound : s.method.graph.firstWithFlags flags among = .ok (some b))
    (hflags : flags.topSplitter = true ∨ flags.bottomSplitter = true) :
    s.method.graph.IsSplitter b ∧ n ≤ b := by
  have hkept := BlockFlags.KeptIn.of_hasAll (of_firstWithFlags hfound).2
  have hsplitter : s.method.graph.IsSplitter b :=
    hflags.imp hkept.topSplitter hkept.bottomSplitter
  exact ⟨hsplitter, hs.splitters b hsplitter⟩

theorem joins_splitterBelow (hs : Ready n regions tidy s) (k : Block) :
    Moves (Joins n regions tidy) (splitterBelow k) s fun found t =>
      t = s ∧ ∀ b, found = some b → n ≤ b ∧ b < t.method.graph.size ∧
        (tidy → t.method.graph.isLive b = true) := by
  unfold splitterBelow
  split
  · exact .pure ⟨rfl, nofun⟩
  · refine .of_ask fun found hfound => ?_
    split
    · exact .pure ⟨rfl, nofun⟩
    · refine .of_block fun k' hk' => ?_
      split
      · rename_i c hone
        obtain ⟨hsplitter, hnew⟩ := hs.found hfound (Or.inl rfl)
        refine .pure ⟨rfl, fun b hb => ?_⟩
        cases hb
        refine ⟨hnew, hsplitter.lt, fun htidy => ?_⟩
        refine (hs.settled htidy).edges.of_preds hs.wellFormed fun hnone => ?_
        rw [preds_eq hk'] at hnone
        rw [hnone] at hone
        cases hone
      · exact .pure ⟨rfl, nofun⟩

theorem joins_topSplitter (hs : Ready n regions tidy s) {top : BlockId}
    (htop : tidy → s.method.graph.isLive top = true) :
    Moves (Joins n regions tidy) (topSplitter top) s fun b t =>
      n ≤ b ∧ b < t.method.graph.size ∧ (tidy → t.method.graph.isLive b = true) := by
  refine .of_method ?_
  dsimp only
  split
  · refine .of_block fun k hk => ?_
    split
    · exact .violate
    · rename_i b bs hsuccs
      refine joins_splitTop_new hs fun htidy => ?_
      refine ((hs.settled htidy).edges top b ?_).2
      rw [succs_eq hk, hsuccs]
      exact List.mem_cons_self
  · refine .of_block fun k hk => .of_ask fun found hfound => ?_
    split
    · rename_i b
      obtain ⟨hsplitter, hnew⟩ := hs.found hfound (Or.inl rfl)
      refine .pure ⟨hnew, hsplitter.lt, fun htidy => ((hs.settled htidy).edges b top ?_).1⟩
      rw [hs.wellFormed.mirrored, preds_eq hk]
      exact mem_of_firstWithFlags hfound
    · refine (joins_splitterBelow hs k).bind ?_
      rintro below _ - ⟨rfl, hbelow⟩
      split
      · exact .pure (hbelow _ rfl)
      · exact joins_splitTop_new hs htop

/-- A new block or a splitter becomes one behind `bottom`. -/
theorem joins_tieBottom (hs : Ready n regions tidy s) {bottom : BlockId}
    (hbottom : tidy → s.method.graph.isLive bottom = true) {c : BlockId} (hnew : n ≤ c)
    (hlt : c < s.method.graph.size) (hc : tidy → s.method.graph.isLive c = true) :
    Moves (Joins n regions tidy) (do
        modifyGraph fun g => g.modify c (·.addFlags { bottomSplitter := true, synthetic := true })
        edit fun g => g.connect bottom c
        return c) s fun b t =>
      t.method.graph.IsSplitter b ∧ (tidy → t.method.graph.isLive b = true) := by
  refine (joins_addFlags fun _ => hnew).bind ?_
  rintro _ t ht rfl
  have hready := hs.run ht
  have hsplitter : IsSplitter (s.method.graph.modify c
      (·.addFlags { bottomSplitter := true, synthetic := true })) c :=
    Or.inr ((keptIn_addFlags hlt _).bottomSplitter rfl)
  refine (joins_connect (Or.inr hsplitter) (hs.isLive ht hbottom) (hs.isLive ht hc)).andThen
    fun _ u hu => .pure ⟨(hready.joined hu).isSplitter hsplitter, ?_⟩
  exact hready.isLive hu (hs.isLive ht hc)

theorem joins_bottomSplitter (hs : Ready n regions tidy s) {bottom : BlockId}
    (hbottom : tidy → s.method.graph.isLive bottom = true) :
    Moves (Joins n regions tidy) (bottomSplitter bottom) s fun b t =>
      t.method.graph.IsSplitter b ∧ (tidy → t.method.graph.isLive b = true) := by
  refine .of_block fun k hk => .of_ask fun found hfound => ?_
  split
  · rename_i c
    obtain ⟨hsplitter, hnew⟩ := hs.found hfound (Or.inr rfl)
    refine joins_tieBottom hs hbottom hnew hsplitter.lt fun htidy =>
      ((hs.settled htidy).edges bottom c ?_).2
    rw [succs_eq hk]
    exact mem_of_firstWithFlags hfound
  · refine (joins_newBlock (-1)).bind ?_
    rintro _ _ ht ⟨rfl, rfl⟩
    have hlive := (isLive_newBlock (g := s.method.graph) (-1) s.method.graph.size).mpr (Or.inl rfl)
    exact joins_tieBottom (hs.run ht) (hs.isLive ht hbottom) hs.le_size (lt_of_isLive hlive)
      fun _ => hlive

theorem joins_linkHandler (hs : Ready n regions tidy s) {top : BlockId}
    (hsplitter : s.method.graph.IsSplitter top) (htop : tidy → s.method.graph.isLive top = true)
    {bottom : Option BlockId} (hbottom : ∀ b, bottom = some b →
      s.method.graph.IsSplitter b ∧ (tidy → s.method.graph.isLive b = true)) {h : HandlerId}
    (hentry : tidy →
      s.method.graph.isLive (BlockId.orReserved (s.method.handler h).entry) = true) :
    Moves (Joins n regions tidy) (linkHandler top bottom h) s fun _ t =>
      (∀ e, (s.method.handler h).entry = some e → e ∈ t.method.graph.succs top) ∧
        ∀ x y, y ∈ s.method.graph.succs x → y ∈ t.method.graph.succs x := by
  refine .of_method ((joins_connect (Or.inl hsplitter) htop hentry).bind fun _ t ht hedge => ?_)
  have hfirst : ∀ e, (s.method.handler h).entry = some e → e ∈ t.method.graph.succs top := by
    intro e he
    rw [he] at hedge
    exact hedge.1
  split
  · rename_i b
    obtain ⟨hb, hlive⟩ := hbottom b rfl
    refine (joins_connect (Or.inl ((hs.joined ht).isSplitter hb)) (hs.isLive ht hlive)
      (hs.isLive ht hentry)).mono fun _ u _ hedge' => ?_
    exact ⟨fun e he => hedge'.2 _ _ (hfirst e he), fun x y hy => hedge'.2 x y (hedge.2 x y hy)⟩
  · exact .pure ⟨hfirst, hedge.2⟩

/-- Every clause of the region and of those around it is linked, and stays so while the rest is. -/
theorem joins_linkHandlers (hs : Ready n regions tidy s) {r : RegionId} (hr : r ∈ regions)
    {top : BlockId} (hsplitter : s.method.graph.IsSplitter top)
    (htop : tidy → s.method.graph.isLive top = true) {bottom : Option BlockId}
    (hbottom : ∀ b, bottom = some b →
      s.method.graph.IsSplitter b ∧ (tidy → s.method.graph.isLive b = true)) :
    Moves (Joins n regions tidy) (linkHandlers r top bottom) s fun _ t =>
      ∀ e, s.Clause r e → e ∈ t.method.graph.succs top := by
  refine .of_method ?_
  let clauses := (s.method.forest.chain r).flatMap fun o => (s.method.region o).handlers
  refine (Moves.loop (fun rest t => rest ⊆ clauses ∧ ∀ h ∈ clauses, h ∈ rest ∨
      ∀ e, (s.method.handler h).entry = some e → e ∈ t.method.graph.succs top)
    (fun h rest t ht hlinked => ?_) ⟨List.Subset.refl _, fun h hh => Or.inl hh⟩).mono
    fun _ t _ hlinked e he => ?_
  · obtain ⟨hrest, hlinked⟩ := hlinked
    rw [List.cons_subset] at hrest
    have joined := hs.joined ht
    have hentry : tidy →
        t.method.graph.isLive (BlockId.orReserved (t.method.handler h).entry) = true := by
      intro htidy
      have settled := hs.settled htidy
      obtain ⟨base, nested⟩ := settled.nested
      obtain ⟨o, ho, hh⟩ := List.mem_flatMap.mp hrest.1
      obtain ⟨e, he, hlive⟩ := settled.entries o (nested.mem_of_mem_chain hr ho) h hh
      rw [joined.entry, he]
      exact joined.isLive e hlive
    refine (joins_linkHandler (hs.run ht) (joined.isSplitter hsplitter) (hs.isLive ht htop)
      (fun b hb => ⟨joined.isSplitter (hbottom b hb).1, hs.isLive ht (hbottom b hb).2⟩)
      hentry).mono fun _ u _ hlink => ⟨hrest.2, fun k hk => ?_⟩
    rcases hlinked k hk with hmem | hdone
    · rcases List.mem_cons.mp hmem with rfl | hmem
      · exact Or.inr fun e he => hlink.1 e ((joined.entry k).trans he)
      · exact Or.inl hmem
    · exact Or.inr fun e he => hlink.2 _ _ (hdone e he)
  · obtain ⟨o, ho, h, hh, he⟩ := he
    have hmem : h ∈ clauses := List.mem_flatMap.mpr ⟨o, ho, hh⟩
    exact (hlinked.2 h hmem).resolve_left List.not_mem_nil e he

theorem joins_attach {r : RegionId} (hr : r ∈ regions) {b : BlockId}
    (hb : b ∈ (s.method.region r).blocks) :
    Moves (Joins n regions tidy) (attach r b) s fun _ t =>
      t.Claimed r b ∧ ∀ x, t.method.graph.succs x = s.method.graph.succs x := by
  refine .of_block fun k hk => .of_method ?_
  have hlt := lt_of_block? hk
  have hhome : s.method.graph.home b = k.region := by rw [home, hk, Option.bind_some]
  dsimp only
  split
  · rename_i hfree
    have hall : ∀ o, s.method.graph.home b = some o → s.method.forest.hasAncestor r o = true := by
      intro o ho
      rw [← hhome, ho] at hfree
      exact hfree
    refine (Moves.modify (.single (.attach hr hb hlt hall)) rfl : Moves (Joins n regions tidy)
      (modifyGraph fun g => g.modify b fun k => { k with region := some r }) s fun _ t =>
        t = s.withGraph (s.method.graph.modify b fun k => { k with region := some r })).mono ?_
    rintro _ _ - rfl
    refine ⟨⟨r, ?_, fun hforest => hforest.acyclic r⟩, fun x => ?_⟩
    · rw [State.graph_withGraph, home_modify_region hlt, if_pos rfl]
    · exact succs_modify_eq _ _ _ _ fun _ => rfl
  · rename_i hheld
    refine .pure ⟨?_, fun _ => rfl⟩
    cases hregion : k.region with
    | none => exact absurd (by rw [hregion]; rfl) hheld
    | some o =>
      refine ⟨o, hhome.trans hregion, fun hforest hunder => hheld ?_⟩
      rw [hregion]
      exact hforest.hasAncestor_iff.mpr hunder

theorem joins_attachAll (hs : Ready n regions tidy s) {r : RegionId} (hr : r ∈ regions)
    {blocks : List BlockId} (hblocks : blocks ⊆ (s.method.region r).blocks) :
    Moves (Joins n regions tidy) (blocks.forM (attach r)) s fun _ t =>
      (∀ b ∈ blocks, t.Claimed r b) ∧ ∀ x, t.method.graph.succs x = s.method.graph.succs x := by
  refine (Moves.loop (fun rest t => rest ⊆ blocks ∧ (∀ b ∈ blocks, b ∈ rest ∨ t.Claimed r b) ∧
      ∀ x, t.method.graph.succs x = s.method.graph.succs x) (fun b rest t ht hdone => ?_)
    ⟨List.Subset.refl _, fun b hb => Or.inl hb, fun _ => rfl⟩).mono fun _ t _ hdone => ?_
  · obtain ⟨hrest, hdone, hsuccs⟩ := hdone
    rw [List.cons_subset] at hrest
    have hb : b ∈ (t.method.region r).blocks := by
      rw [Method.region, (hs.joined ht).content.blocks]
      exact hblocks hrest.1
    refine (joins_attach hr hb).mono fun _ u hu hclaim => ⟨hrest.2, fun c hc => ?_, fun x => ?_⟩
    · rcases hdone c hc with hmem | hdone
      · rcases List.mem_cons.mp hmem with rfl | hmem
        · exact Or.inr hclaim.1
        · exact Or.inl hmem
      · exact Or.inr ((hs.run ht).claimed hu hdone)
    · rw [hclaim.2, hsuccs]
  · exact ⟨fun b hb => (hdone.2.1 b hb).resolve_left List.not_mem_nil, hdone.2.2⟩

/-- A region is finished with its splitter when its clauses are linked and its blocks attached. -/
theorem joins_tie (hs : Ready n regions tidy s) {r : RegionId} {split : BlockId}
    (hsynthetic : (s.method.graph.flags split).synthetic = true)
    (htop : (s.method.graph.flags split).topSplitter = true)
    (hclauses : ∀ e, s.Clause r e → e ∈ s.method.graph.succs split)
    (hclaimed : ∀ b ∈ (s.method.region r).blocks, s.Claimed r b) :
    Moves (Joins n regions tidy)
      (modifyMethod fun m => m.modifyRegion r fun k => { k with topSplitter := some split }) s
      fun _ t => t.Finished n r := by
  have htie : Joins n regions tidy s { s with
      method := s.method.modifyRegion r fun k => { k with topSplitter := some split } } :=
    .single (.tie hsynthetic htop hclauses)
  have joined := hs.joined htie
  refine .modify htie ⟨fun hsize => ⟨split, ?_⟩, fun b hb => hs.claimed htie (hclaimed b ?_)⟩
  · rw [joined.content.size] at hsize
    refine ⟨?_, hsynthetic, htop, fun e _ he => .edge (hclauses e ((joined.clause r e).mp he))⟩
    show ((s.method.forest.modify r _).get r).topSplitter = some split
    rw [Forest.get_modify, if_pos ⟨rfl, hsize⟩]
  · rwa [Method.region, joined.content.blocks] at hb

/-- What follows in the wiring of a region when its splitters are there. -/
theorem joins_tieRegion (hs : Ready n regions tidy s) {r : RegionId} (hr : r ∈ regions)
    (number : Int) {blocks : List BlockId} (hblocks : blocks = (s.method.region r).blocks)
    {split : BlockId} (hsynthetic : (s.method.graph.flags split).synthetic = true)
    (htop : (s.method.graph.flags split).topSplitter = true)
    (hsplit : tidy → s.method.graph.isLive split = true) {low : Option BlockId}
    (hlow : ∀ b, low = some b →
      s.method.graph.IsSplitter b ∧ (tidy → s.method.graph.isLive b = true)) :
    Moves (Joins n regions tidy) (do
        record (.splitters number split low)
        linkHandlers r split low
        blocks.forM (attach r)
        modifyMethod fun m => m.modifyRegion r fun k => { k with topSplitter := some split }
        edit fun g => g.refreshClean split
        match low with
        | some b => edit fun g => g.refreshClean b
        | none => return) s fun _ t => t.Finished n r := by
  refine (joins_modify (.record s _)).andThen fun _ t ht => ?_
  have joined := hs.joined ht
  refine (joins_linkHandlers (hs.run ht) hr (joined.isSplitter (Or.inl htop)) (hs.isLive ht hsplit)
    fun b hb => ⟨joined.isSplitter (hlow b hb).1, hs.isLive ht (hlow b hb).2⟩).bind
    fun _ u hu hlinked => ?_
  have hready := hs.run (ht.trans hu)
  have joined := hs.joined (ht.trans hu)
  have hlisted : blocks ⊆ (u.method.region r).blocks := by
    rw [hblocks, Method.region, Method.region, joined.content.blocks]
    exact List.Subset.refl _
  refine (joins_attachAll hready hr hlisted).bind fun _ v hv hclaimed => ?_
  have joined' := joined.trans (hready.joined hv)
  refine (joins_tie (hready.run hv) ((joined'.flags split).synthetic hsynthetic)
    ((joined'.flags split).topSplitter htop) (fun e he => ?_) fun b hb => hclaimed.1 b ?_).bind
    fun _ w hw finished => ?_
  · rw [hclaimed.2]
    exact hlinked e (((hs.joined ht).clause r e).mpr ((joined'.clause r e).mp he))
  · rw [hblocks]
    rwa [Method.region, joined'.content.blocks] at hb
  · have hready := (hready.run hv).run hw
    refine (joins_refreshClean split).andThen fun _ x hx => ?_
    split
    · exact (joins_refreshClean _).mono fun _ y hy _ => hready.finished (hx.trans hy) finished
    · exact .pure (hready.finished hx finished)

theorem joins_wrapFrom (hs : Ready n regions tidy s) (hclean : s.method.graph.CleanWithin)
    {r : RegionId} (hr : r ∈ regions) {top : BlockId}
    (htop : tidy → s.method.graph.isLive top = true) :
    Moves (Joins n regions tidy) (wrapFrom r top) s fun _ t => t.Finished n r := by
  refine .of_method ?_
  refine (joins_searchBottom hs hclean fun htidy => (hs.settled htidy).blocks r hr).bind
    fun bottom t ht hbottom => ?_
  refine (joins_modify (.record t _)).andThen fun _ u hu => ?_
  have hsu := ht.trans hu
  refine (joins_topSplitter (hs.run hsu) (hs.isLive hsu htop)).bind fun split v hv hsplit => ?_
  obtain ⟨hnew, hlt, hsplit⟩ := hsplit
  refine (joins_addFlags fun _ => hnew).bind fun _ w hw hflags => ?_
  have hsw := (hsu.trans hv).trans hw
  have hready := hs.run hsw
  have hkept : BlockFlags.KeptIn { topSplitter := true, synthetic := true }
      (w.method.graph.flags split) := by
    rw [hflags]
    exact keptIn_addFlags hlt _
  have hsplit := ((hs.run hsu).run hv).isLive hw hsplit
  have hbottom : ∀ b, bottom = some b → tidy → w.method.graph.isLive b = true := fun b hb =>
    (hs.run ht).isLive ((hu.trans hv).trans hw) (hbottom b hb)
  have hblocks : ∀ x, Joins n regions tidy s x →
      (s.method.region r).blocks = (x.method.region r).blocks := fun x hx =>
    ((hs.joined hx).content.blocks r).symm
  cases bottom with
  | none =>
    exact joins_tieRegion hready hr _ (hblocks w hsw) (hkept.synthetic rfl)
      (hkept.topSplitter rfl) hsplit nofun
  | some b =>
    dsimp only
    split
    · exact joins_tieRegion hready hr _ (hblocks w hsw) (hkept.synthetic rfl)
        (hkept.topSplitter rfl) hsplit nofun
    · rw [map_eq_pure_bind, bind_assoc]
      refine (joins_bottomSplitter hready (hbottom b rfl)).bind fun c x hx hc => ?_
      rw [pure_bind]
      have hflags' := hkept.trans ((hready.joined hx).flags split)
      refine joins_tieRegion (hready.run hx) hr _ (hblocks x (hsw.trans hx))
        (hflags'.synthetic rfl) (hflags'.topSplitter rfl) (hready.isLive hx hsplit) fun d hd => ?_
      cases hd
      exact hc

theorem joins_wrap (hs : Ready n regions tidy s) {r : RegionId} (hr : r ∈ regions) :
    Moves (Joins n regions tidy) (wrap r) s fun wired t => wired = true → t.Finished n r := by
  refine Moves.bind (joins_modify (.refreshAll s)) ?_
  rintro _ _ ht rfl
  have hready := hs.run ht
  refine .of_method ((joins_searchTop hready fun htidy =>
    (hready.settled htidy).blocks r hr).bind fun found u hu hfound => ?_)
  have hclean : u.method.graph.CleanWithin := by
    rcases hfound.1 with hsame | hfresh
    · rw [hsame]
      exact cleanWithin_refreshAll hs.wellFormed
    · rw [hfresh]
      exact cleanWithin_refreshAll hready.wellFormed
  split
  · exact .pure nofun
  · refine .of_block fun k _ => ?_
    split
    · exact .pure nofun
    · exact (joins_wrapFrom (hready.run hu) hclean hr (hfound.2 _ rfl)).bind fun _ _ _ hdone =>
        .pure fun _ => hdone

/-- An attempt takes a region off the queue or brings the limit nearer, so that the queue is empty
before the fuel is used up. -/
theorem joins_wrapQueue (limit : Int) (fuel attempts : Nat) {queue : List RegionId}
    (hs : Ready n regions tidy s) (hqueue : queue ⊆ regions)
    (hfuel : (limit - attempts).toNat + queue.length < fuel) :
    Moves (Joins n regions tidy) (wrapQueue limit fuel attempts queue) s
      fun _ t => ∀ r ∈ queue, t.Finished n r := by
  induction fuel generalizing s attempts queue with
  | zero => exact absurd hfuel (Nat.not_lt_zero _)
  | succ fuel ih =>
    cases queue with
    | nil => exact .pure fun r hr => absurd hr List.not_mem_nil
    | cons r rest =>
      rw [List.length_cons] at hfuel
      rw [List.cons_subset] at hqueue
      refine (joins_wrap hs hqueue.1).bind fun wired t ht hwired => ?_
      split
      · rename_i hdone
        refine (ih _ (hs.run ht) hqueue.2 (by omega)).mono fun _ u hu hrest q hq => ?_
        rcases List.mem_cons.mp hq with rfl | hq
        · exact (hs.run ht).finished hu (hwired hdone)
        · exact hrest q hq
      · split
        · exact .violate
        · rename_i hlimit
          have hwaits : rest ++ [r] ⊆ regions :=
            List.append_subset.mpr ⟨hqueue.2, by simpa using hqueue.1⟩
          refine (ih _ (hs.run ht) hwaits ?_).mono fun _ u _ hall q hq => ?_
          · rw [List.length_append, List.length_singleton]
            omega
          · refine hall q (List.mem_append.mpr ?_)
            exact (List.mem_cons.mp hq).symm.imp id List.mem_singleton.mpr

/-- All regions are wired in the end. -/
theorem joins_wire (hs : Ready n regions tidy s) (factor : Int) :
    Moves (Joins n regions tidy) (wire factor regions) s
      fun _ t => ∀ r ∈ regions, t.Finished n r :=
  joins_wrapQueue _ _ _ hs (List.Subset.refl _) (by simp)

end Wiring

end TryRegions.Recovery
