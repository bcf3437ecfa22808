import TryRegions.Proofs.Forest
import TryRegions.Proofs.Recovery.Sound
import TryRegions.Recovery.Wiring

/-! Wiring extends the graph: whatever order the regions are wired in and wherever it stops, blocks
keep their roles, and flow between the blocks that were there leads where it led. -/

namespace TryRegions.Recovery

open RecoverM

variable {V : Violation → Prop} {s : State}

theorem steps_adjustTop (hs : s.Sound) {top : BlockId} (htop : top < s.method.graph.size) :
    Steps V Wires (adjustTop top) s fun b t => b < t.method.graph.size := by
  obtain ⟨k, hk⟩ := Graph.exists_block htop
  refine (steps_block_bind hk).mpr ?_
  split
  · rename_i b hsuccs _
    refine .pure (.refl hs) (hs.method.wellFormed.succs_lt top b ?_)
    rw [Graph.succs_eq hk, hsuccs]
    exact List.mem_singleton_self b
  · exact .pure (.refl hs) htop

theorem steps_topBelow (hs : s.Sound) (blocks : List BlockId) {d : BlockId}
    (hd : d < s.method.graph.size) :
    Steps V Wires (topBelow blocks d) s fun b t => b < t.method.graph.size := by
  obtain ⟨k, hk⟩ := Graph.exists_block hd
  refine (steps_block_bind hk).mpr ?_
  have honly : ∀ {next : List BlockId} {b : BlockId},
      onlyAmong blocks next = some b → b ∈ next := by
    intro next b h
    rw [(onlyAmong_eq_some_iff.mp h).1]
    exact List.mem_singleton_self b
  dsimp only
  split
  · rename_i b hb
    refine .pure (.refl hs) ?_
    rcases Option.or_eq_some_iff.mp hb with h | ⟨-, h⟩
    · refine hs.method.clean_lt d b ?_
      rw [Graph.clean_eq hk]
      exact honly (Option.ite_none_right_eq_some.mp h).2
    · refine hs.method.wellFormed.succs_lt d b ?_
      rw [Graph.succs_eq hk]
      exact honly h
  · exact steps_adjustTop hs hd

theorem steps_searchTop (hs : s.Sound) (hV : ∀ v, v.Known s.method.enter → V v)
    {blocks : List BlockId}
    (hblocks : ∀ b ∈ blocks, b < s.method.graph.size) :
    Steps V Wires (searchTop blocks) s fun r t => ∀ b, r = some b → b < t.method.graph.size := by
  refine (steps_ask_bind (Graph.topBlock_eq hblocks)).mpr ?_
  split
  · rename_i top htop
    obtain ⟨b, hb, hpresent⟩ := Option.bind_eq_some_iff.mp htop
    have htop' : top < s.method.graph.size := by
      rw [← BlockId.eq_of_present? hpresent]
      exact hblocks b (List.mem_of_find?_eq_some hb)
    refine (steps_adjustTop hs htop').bind fun b t ht hb => .pure (.refl ht.sound) ?_
    intro c hc
    cases hc
    exact hb
  · refine (steps_domTree hs).bind fun tree t ht htree => ?_
    refine steps_method_bind.mpr ?_
    have below : ∀ (from' : List BlockId) (d : BlockId), tree.commonDominator from' = some d →
        Steps V Wires (do return some (← topBelow blocks d)) t
          fun r u => ∀ b, r = some b → b < u.method.graph.size := by
      intro from' d hd
      refine (steps_topBelow ht.sound blocks (htree.commonDominator_lt hd)).bind ?_
      intro b u hu hb
      refine .pure (.refl hu.sound) fun c hc => ?_
      cases hc
      exact hb
    split
    · rename_i d hd
      exact below blocks d hd
    · rename_i henter
      exact .violate (ht.known hV _ henter) (.refl ht.sound)
    · rename_i enter _ _
      dsimp only
      split
      · exact .pure (.refl ht.sound) fun _ h => nomatch h
      · rename_i hentered
        split
        · rename_i d hd
          exact below _ d hd
        · -- The enter block dominates all that are left, so they have a common dominator.
          rename_i hnone
          exact absurd hnone (tree.commonDominator_filter_ne_none enter hentered)

/-- The predecessors that lie outside are found without a change; they are predecessors indeed. -/
theorem yields_outside {blocks preds : List BlockId}
    (hblocks : ∀ b ∈ blocks, b < s.method.graph.size) {E : Violation → State → Prop} :
    Yields (preds.filterM fun p => do
        if p ∈ blocks then return false
        return !(← ask fun g => g.anyPathExists blocks p)) s
      (fun outside t => s = t ∧ outside.Sublist preds) E := by
  refine Yields.mono (Yields.filterM (fun rest kept t => s = t ∧ (kept ++ rest).Sublist preds)
    ?_ ⟨rfl, List.Sublist.refl _⟩) (fun outside t ht => ?_) fun _ _ hv => hv
  · rintro p rest kept t ⟨rfl, hsub⟩
    have hdrop : (kept ++ rest).Sublist preds :=
      List.Sublist.trans (List.Sublist.append_left (List.sublist_cons_self p rest) kept) hsub
    split
    · exact yields_pure.mpr ⟨rfl, hdrop⟩
    · have hpath := Graph.anyPathExists_eq hblocks p
      refine yields_bind.mpr ((yields_ask hpath).mpr (yields_pure.mpr ⟨rfl, ?_⟩))
      cases blocks.any fun b => s.method.graph.reaches b p with
      | false => simpa using hsub
      | true => exact hdrop
  · rw [List.append_nil] at ht
    exact ht

/-- Edges to a new block in front of `cross` are led around it, one after the other. -/
theorem yields_reconnect_all {t : State} (hs : s.Sound) {split cross : BlockId}
    (hsplit : s.method.graph.size ≤ split) (hne : cross ≠ split) {outside : List BlockId}
    (hnodup : outside.Nodup) (ht : Wires s t)
    (hentry : t.method.graph.isEntry split = false)
    (hout : ∀ x, x ∈ t.method.graph.succs split ↔ x = cross)
    (hin : ∀ p ∈ outside, split ∈ t.method.graph.succs p) (hlt : split < t.method.graph.size) :
    Yields (outside.forM fun p => edit fun g => g.reconnect p split cross) t
      (fun _ u => Wires s u ∧ split < u.method.graph.size) fun v u => V v ∧ Wires s u := by
  refine Yields.mono (Yields.forM (fun rest u => Wires s u ∧ rest.Nodup ∧
      u.method.graph.isEntry split = false ∧ (∀ x, x ∈ u.method.graph.succs split ↔ x = cross) ∧
      (∀ p ∈ rest, split ∈ u.method.graph.succs p) ∧ split < u.method.graph.size)
    ?_ ⟨ht, hnodup, hentry, hout, hin, hlt⟩) (fun _ u hu => ⟨hu.1, hu.2.2.2.2.2⟩) fun _ _ hv => hv
  rintro p rest u ⟨hu, hnodup, hentry, hout, hin, hlt⟩
  have wf := hu.sound.method.wellFormed
  have hp := hin p List.mem_cons_self
  have hcross := wf.succs_lt split cross ((hout cross).mpr rfl)
  have turned := Graph.Rewired.redirect wf hp (Ne.symm hne) hcross
  have hps : p ≠ split := by
    rintro rfl
    exact hne.symm ((hout p).mp hp)
  rw [List.nodup_cons] at hnodup
  refine (yields_reconnect (Graph.lt_of_mem_succs hp) hlt hcross).mpr
    ⟨hu.withGraph hs ?_ (Nat.le_of_eq turned.size.symm), hnodup.2, ?_, fun x => ?_,
      fun q hq => ?_, ?_⟩
  · exact hu.graph.redirect hsplit hentry hout hne hp
  · rw [State.graph_withGraph, Graph.isEntry_eq_core, turned.core, ← Graph.isEntry_eq_core]
    exact hentry
  · rw [State.graph_withGraph, turned.mem_succs, hout]
    simp [Ne.symm hps]
  · rw [State.graph_withGraph, turned.mem_succs]
    refine Or.inl ⟨hin q (List.mem_cons_of_mem _ hq), fun h => ?_⟩
    exact hnodup.1 (h.1 ▸ hq)
  · rw [State.graph_withGraph, turned.size]
    exact hlt

/-- A block is put in front of `cross`, and edges from outside are led around it. -/
theorem steps_splitJoin (hs : s.Sound) {cross : BlockId} (hcross : cross < s.method.graph.size)
    {outside : List BlockId} (hsub : outside.Sublist (s.method.graph.preds cross)) :
    Steps V Wires (do
        let split ← splitTop cross
        modifyGraph fun g => g.modify split (·.addFlags { synthetic := true })
        outside.forM fun p => edit fun g => g.reconnect p split cross
        return some split) s
      fun r t => ∀ b, r = some b → b < t.method.graph.size := by
  have wf := hs.method.wellFormed
  have split := Graph.splitAbove_rewired wf hcross
  have hsize := Graph.size_splitAbove wf hcross
  have hnone : s.method.graph.succs s.method.graph.size = [] := by
    rw [Graph.succs, Graph.block?_eq_none.mpr (Nat.le_refl _)]
    rfl
  have hsuccs : ∀ a, ((s.method.graph.splitAbove cross).modify s.method.graph.size
      (·.addFlags { synthetic := true })).succs a = (s.method.graph.splitAbove cross).succs a :=
    fun a => Graph.succs_modify_eq _ _ _ _ fun _ => rfl
  have hext := (Graph.Extends.splitAbove wf hs.method.clean_lt hcross).modify
    s.method.graph.size (·.addFlags { synthetic := true }) (fun _ => rfl) (fun _ => rfl)
    (fun _ => List.Subset.refl _) (fun k => by simp [Block.role, Block.addFlags, BlockFlags.union])
  refine yields_bind.mpr ((yields_splitTop hcross).mpr (yields_bind.mpr ?_))
  refine yields_modifyGraph.mpr (yields_bind.mpr ?_)
  rw [State.graph_withGraph, State.withGraph_withGraph]
  refine (yields_reconnect_all hs (Nat.le_refl _) (Nat.ne_of_lt hcross)
    (hsub.nodup (wf.preds_nodup cross)) (.of_graph hs hext) ?_ (fun x => ?_) (fun p hp => ?_)
    ?_).mono ?_ fun _ _ hv => hv
  · rw [State.graph_withGraph, Graph.isEntry_eq_role, hext.role_new _ (Nat.le_refl _)]
    · rfl
    · rw [Graph.size_modify, hsize]
      exact Nat.lt_succ_self _
  · rw [State.graph_withGraph, hsuccs, split.mem_succs, hnone]
    simp
  · rw [State.graph_withGraph, hsuccs, split.mem_succs]
    exact Or.inr (Or.inl ⟨(wf.mirrored p cross).mpr (hsub.subset hp), rfl⟩)
  · rw [State.graph_withGraph, Graph.size_modify, hsize]
    exact Nat.lt_succ_self _
  · rintro _ u ⟨hu, hlt⟩
    refine yields_pure.mpr ⟨hu, fun c hc => ?_⟩
    cases hc
    exact hlt

theorem steps_searchBottom (hs : s.Sound) {blocks : List BlockId}
    (hblocks : ∀ b ∈ blocks, b < s.method.graph.size) :
    Steps V Wires (searchBottom blocks) s fun r t => ∀ b, r = some b → b < t.method.graph.size := by
  refine (steps_ask_bind (Graph.bottomBlock_eq hblocks)).mpr ?_
  split
  · rename_i bottom hbottom
    obtain ⟨b, hb, hpresent⟩ := Option.bind_eq_some_iff.mp hbottom
    refine .pure (.refl hs) fun c hc => ?_
    cases hc
    rw [← BlockId.eq_of_present? hpresent]
    exact hblocks b (List.mem_of_find?_eq_some hb)
  · refine (steps_domTree hs).bind fun tree t ht htree => ?_
    have hblocks' : ∀ b ∈ blocks, b < t.method.graph.size := fun b hb => ht.lt (hblocks b hb)
    obtain ⟨r, hr, hlt⟩ := htree.pathCross_eq_ok hblocks'
    refine (steps_ask_bind hr).mpr ?_
    cases r with
    | none => exact .pure (.refl ht.sound) fun _ h => nomatch h
    | some cross =>
      obtain ⟨k, hk⟩ := Graph.exists_block (hlt cross rfl)
      refine (steps_block_bind hk).mpr (yields_bind.mpr ?_)
      refine (yields_outside hblocks').mono ?_ fun _ _ hv => hv
      rintro outside _ ⟨rfl, hsub⟩
      rw [← Graph.preds_eq hk] at hsub
      split
      · refine ⟨.refl ht.sound, fun c hc => ?_⟩
        cases hc
        exact hlt cross rfl
      · exact steps_splitJoin ht.sound (hlt cross rfl) hsub

theorem steps_splitTop (hs : s.Sound) {b : BlockId} (hb : b < s.method.graph.size) :
    Steps V Wires (splitTop b) s fun c t => c < t.method.graph.size := by
  refine (yields_splitTop hb).mpr ⟨.of_graph hs ?_, ?_⟩
  · exact .splitAbove hs.method.wellFormed hs.method.clean_lt hb
  · show s.method.graph.size < (s.method.graph.splitAbove b).size
    rw [Graph.size_splitAbove hs.method.wellFormed hb]
    exact Nat.lt_succ_self _

theorem steps_splitterBelow (hs : s.Sound) {b : BlockId} {k : Block}
    (hk : s.method.graph.block? b = some k) :
    Steps V Wires (splitterBelow k) s fun r t =>
      s = t ∧ ∀ c, r = some c → c < t.method.graph.size := by
  have hclean : ∀ c ∈ k.clean, c < s.method.graph.size := fun c hc =>
    hs.method.clean_lt b c (by rw [Graph.clean_eq hk]; exact hc)
  unfold splitterBelow
  split
  · exact .pure (.refl hs) ⟨rfl, fun _ h => nomatch h⟩
  · obtain ⟨r, hr, hmem⟩ := Graph.firstWithFlags_eq_ok { topSplitter := true } hclean
    refine (steps_ask_bind hr).mpr ?_
    cases r with
    | none => exact .pure (.refl hs) ⟨rfl, fun _ h => nomatch h⟩
    | some c =>
      have hc := hclean c (hmem c rfl)
      obtain ⟨k', hk'⟩ := Graph.exists_block hc
      refine (steps_block_bind hk').mpr ?_
      split
      · refine .pure (.refl hs) ⟨rfl, fun d hd => ?_⟩
        cases hd
        exact hc
      · exact .pure (.refl hs) ⟨rfl, fun _ h => nomatch h⟩

theorem steps_topSplitter (hs : s.Sound) (hV : ∀ v, v.Known s.method.enter → V v)
    {top : BlockId} (htop : top < s.method.graph.size) :
    Steps V Wires (topSplitter top) s fun b t => b < t.method.graph.size := by
  have wf := hs.method.wellFormed
  obtain ⟨k, hk⟩ := Graph.exists_block htop
  refine steps_method_bind.mpr ?_
  dsimp only
  split
  · rename_i henter
    refine (steps_block_bind hk).mpr ?_
    split
    · exact .violate (hV _ henter) (.refl hs)
    · rename_i b bs hsuccs
      refine steps_splitTop hs (wf.succs_lt top b ?_)
      rw [Graph.succs_eq hk, hsuccs]
      exact List.mem_cons_self
  · refine (steps_block_bind hk).mpr ?_
    have hpreds : ∀ p ∈ k.preds, p < s.method.graph.size := fun p hp =>
      wf.preds_lt (b := top) (by rw [Graph.preds_eq hk]; exact hp)
    obtain ⟨r, hr, hmem⟩ := Graph.firstWithFlags_eq_ok { topSplitter := true } hpreds
    refine (steps_ask_bind hr).mpr ?_
    cases r with
    | some c => exact .pure (.refl hs) (hpreds c (hmem c rfl))
    | none =>
      refine (steps_splitterBelow hs hk).bind ?_
      rintro r _ - ⟨rfl, hr⟩
      cases r with
      | some c => exact .pure (.refl hs) (hr c rfl)
      | none => exact steps_splitTop hs htop

/-- Flags that say nothing about removal. -/
theorem role_addFlags {f : BlockFlags} (hf : f.remove = false) (k : Block) :
    (k.addFlags f).role = k.role := by
  simp [Block.role, Block.addFlags, BlockFlags.union, hf]

theorem steps_addFlags (hs : s.Sound) (b : BlockId) {f : BlockFlags} (hf : f.remove = false) :
    Steps V Wires (modifyGraph fun g => g.modify b (·.addFlags f)) s fun _ _ => True := by
  refine ⟨.of_graph hs (Graph.Extends.modify ?_ b _ (fun _ => rfl) (fun _ => rfl)
    (fun _ => List.Subset.refl _) (role_addFlags hf)), trivial⟩
  exact .refl hs.method.wellFormed hs.method.clean_lt

/-- A splitter below `bottom`: one that is there, or a new block that leads nowhere yet. -/
theorem steps_bottomSplitter (hs : s.Sound) {bottom : BlockId}
    (hbottom : bottom < s.method.graph.size) :
    Steps V Wires (bottomSplitter bottom) s fun b t => b < t.method.graph.size := by
  have wf := hs.method.wellFormed
  have same := Graph.Extends.refl wf hs.method.clean_lt
  obtain ⟨k, hk⟩ := Graph.exists_block hbottom
  refine (steps_block_bind hk).mpr ?_
  have hsuccs : ∀ c ∈ k.succs, c ∈ s.method.graph.succs bottom := fun c hc => by
    rw [Graph.succs_eq hk]
    exact hc
  obtain ⟨r, hr, hmem⟩ := Graph.firstWithFlags_eq_ok { bottomSplitter := true }
    fun c hc => wf.succs_lt bottom c (hsuccs c hc)
  refine (steps_ask_bind hr).mpr ?_
  have hedges : ∀ (g : Graph) (c a : BlockId),
      (g.modify c (·.addFlags { bottomSplitter := true, synthetic := true })).succs a =
        g.succs a := fun g c a => Graph.succs_modify_eq g c a _ fun _ => rfl
  -- Flags first, then the edge; the graph may have the new block already.
  have tie : ∀ (g : Graph) (c : BlockId), s.method.graph.Extends g → c < g.size →
      (s.method.graph.size ≤ c ∧ bottom ≠ c ∧ g.succs c = [] ∨ c ∈ g.succs bottom) →
      Yields (do
          modifyGraph fun g =>
            g.modify c (·.addFlags { bottomSplitter := true, synthetic := true })
          edit fun g => g.connect bottom c
          return c) (s.withGraph g)
        (fun b t => Wires s t ∧ b < t.method.graph.size) fun v t => V v ∧ Wires s t := by
    intro g c hg hc harmless
    have hflags := hg.modify c (·.addFlags { bottomSplitter := true, synthetic := true })
      (fun _ => rfl) (fun _ => rfl) (fun _ => List.Subset.refl _) (role_addFlags rfl)
    have hsize := Graph.size_modify g c (·.addFlags { bottomSplitter := true, synthetic := true })
    have hb : bottom < g.size := Nat.lt_of_lt_of_le hbottom hg.size_le
    rw [← hsize] at hb hc
    refine yields_bind.mpr (yields_modifyGraph.mpr (yields_bind.mpr ?_))
    refine (yields_connect hb hc).mpr (yields_pure.mpr ⟨.of_graph hs ?_, ?_⟩)
    · refine hflags.addEdge hb hc (Or.inr ?_)
      rw [hedges, hedges]
      exact harmless
    · rw [State.graph_withGraph, Graph.size_addEdge]
      exact hc
  cases r with
  | some c =>
    have hc := hsuccs c (hmem c rfl)
    exact tie s.method.graph c same (wf.succs_lt bottom c hc) (Or.inr hc)
  | none =>
    refine tie _ s.method.graph.size (same.newBlock (-1)) ?_ (Or.inl ⟨Nat.le_refl _, ?_, ?_⟩)
    · rw [Graph.size_newBlock]
      exact Nat.lt_succ_self _
    · exact Nat.ne_of_lt hbottom
    · rw [Graph.succs_newBlock, Graph.succs, Graph.block?_eq_none.mpr (Nat.le_refl _)]
      rfl

theorem steps_linkHandler (hs : s.Sound) {top : BlockId} {bottom : Option BlockId}
    (htop : top < s.method.graph.size) (hbottom : ∀ b, bottom = some b → b < s.method.graph.size)
    {h : HandlerId} (hentry : (s.method.handler h).entry.isSome = true) :
    Steps V Wires (linkHandler top bottom h) s fun _ _ => True := by
  obtain ⟨e, he⟩ := Option.isSome_iff_exists.mp hentry
  have hent := hs.method.isEntry h e he
  have connect : ∀ (t : State) (a : BlockId), Wires s t → a < s.method.graph.size →
      Steps V Wires (edit fun g => g.connect a e) t fun _ _ => True := by
    intro t a ht ha
    have hent' : t.method.graph.isEntry e = true := by
      rwa [ht.graph.isEntry_eq (Graph.lt_of_isEntry hent)]
    have hlt := Graph.lt_of_isEntry hent'
    refine (yields_connect (ht.lt ha) hlt).mpr ⟨.of_graph ht.sound ?_, trivial⟩
    have same := Graph.Extends.refl ht.sound.method.wellFormed ht.sound.method.clean_lt
    exact same.addEdge (ht.lt ha) hlt (Or.inl hent')
  refine steps_method_bind.mpr ?_
  rw [he]
  refine (connect s top (.refl hs) htop).bind fun _ t ht _ => ?_
  cases bottom with
  | none => exact .pure (.refl ht.sound) trivial
  | some b => exact connect t b ht (hbottom b rfl)

theorem steps_linkHandlers (hs : s.Sound) (r : RegionId) {top : BlockId} {bottom : Option BlockId}
    (htop : top < s.method.graph.size)
    (hbottom : ∀ b, bottom = some b → b < s.method.graph.size) :
    Steps V Wires (linkHandlers r top bottom) s fun _ _ => True := by
  refine steps_method_bind.mpr (.forM (.refl hs) fun h hh t ht => ?_)
  obtain ⟨o, -, ho⟩ := List.mem_flatMap.mp hh
  refine steps_linkHandler ht.sound (ht.lt htop) (fun b hb => ht.lt (hbottom b hb)) ?_
  rw [ht.handler]
  exact hs.method.hasEntry o h ho

theorem steps_attach (hs : s.Sound) (r : RegionId) {b : BlockId} (hb : b < s.method.graph.size) :
    Steps V Wires (attach r b) s fun _ _ => True := by
  obtain ⟨k, hk⟩ := Graph.exists_block hb
  refine (steps_block_bind hk).mpr (steps_method_bind.mpr ?_)
  dsimp only
  split
  · refine ⟨.of_graph hs (Graph.Extends.modify ?_ b _ (fun _ => rfl) (fun _ => rfl)
      (fun _ => List.Subset.refl _) (fun _ => rfl)), trivial⟩
    exact .refl hs.method.wellFormed hs.method.clean_lt
  · exact .pure (.refl hs) trivial

theorem steps_refreshClean (hs : s.Sound) {b : BlockId} (hb : b < s.method.graph.size) :
    Steps V Wires (edit fun g => g.refreshClean b) s fun _ _ => True := by
  refine (yields_refreshClean hb).mpr ⟨.of_graph hs ?_, trivial⟩
  exact (Graph.Extends.refl hs.method.wellFormed hs.method.clean_lt).refresh b

theorem steps_setTopSplitter (hs : s.Sound) (r : RegionId) (top : BlockId) :
    Steps V Wires
      (modifyMethod fun m => m.modifyRegion r fun k => { k with topSplitter := some top }) s
      fun _ _ => True := by
  have hregion : ∀ q, ∃ top', (s.method.modifyRegion r fun k =>
      { k with topSplitter := some top }).region q =
        { s.method.region q with topSplitter := top' } := by
    intro q
    have hget := Forest.get_modify s.method.forest r q fun k => { k with topSplitter := some top }
    split at hget
    · exact ⟨some top, hget⟩
    · exact ⟨(s.method.region q).topSplitter, hget⟩
  have hgraph := Graph.Extends.refl hs.method.wellFormed hs.method.clean_lt
  exact ⟨⟨⟨Wires.sound_of_extends hs.method hgraph rfl rfl hregion, hs.tree_within⟩, hgraph, rfl,
    rfl, rfl, hregion⟩, trivial⟩

/-- What follows in the wiring of a region when its splitters are there. -/
theorem steps_tieRegion (hs : s.Sound) (r : RegionId) (number : Int) {blocks : List BlockId}
    (hblocks : ∀ b ∈ blocks, b < s.method.graph.size) {split : BlockId}
    (hsplit : split < s.method.graph.size) {low : Option BlockId}
    (hlow : ∀ b, low = some b → b < s.method.graph.size) :
    Steps V Wires (do
        record (.splitters number split low)
        linkHandlers r split low
        blocks.forM (attach r)
        modifyMethod fun m => m.modifyRegion r fun k => { k with topSplitter := some split }
        edit fun g => g.refreshClean split
        match low with
        | some b => edit fun g => g.refreshClean b
        | none => return) s fun _ _ => True := by
  refine (steps_record hs _).bind fun _ s₁ h₁ _ => ?_
  refine (steps_linkHandlers h₁.sound r (h₁.lt hsplit) fun b hb => h₁.lt (hlow b hb)).bind
    fun _ s₂ h₂ _ => ?_
  refine Steps.bind (.forM (.refl h₂.sound) fun b hb t ht =>
    steps_attach ht.sound r (ht.lt (h₂.lt (h₁.lt (hblocks b hb))))) fun _ s₃ h₃ _ => ?_
  refine (steps_setTopSplitter h₃.sound r split).bind fun _ s₄ h₄ _ => ?_
  refine (steps_refreshClean h₄.sound (h₄.lt (h₃.lt (h₂.lt (h₁.lt hsplit))))).bind
    fun _ t ht _ => ?_
  cases low with
  | none => exact .pure (.refl ht.sound) trivial
  | some b =>
    exact steps_refreshClean ht.sound (ht.lt (h₄.lt (h₃.lt (h₂.lt (h₁.lt (hlow b rfl))))))

theorem steps_wrapFrom (hs : s.Sound) (hV : ∀ v, v.Known s.method.enter → V v) (r : RegionId)
    {top : BlockId} (htop : top < s.method.graph.size) :
    Steps V Wires (wrapFrom r top) s fun _ _ => True := by
  refine steps_method_bind.mpr ?_
  dsimp only
  refine (steps_searchBottom hs (hs.method.blocks_lt r)).bind fun bottom s₁ h₁ hbottom => ?_
  refine (steps_record h₁.sound _).bind fun _ s₂ h₂ _ => ?_
  refine (steps_topSplitter h₂.sound (h₂.known (h₁.known hV)) (h₂.lt (h₁.lt htop))).bind
    fun split s₃ h₃ hsplit => ?_
  refine (steps_addFlags h₃.sound split rfl).bind fun _ s₄ h₄ _ => ?_
  have hblocks : ∀ b ∈ (s.method.region r).blocks, b < s₄.method.graph.size := fun b hb =>
    h₄.lt (h₃.lt (h₂.lt (h₁.lt (hs.method.blocks_lt r b hb))))
  have without : Steps V Wires (pure none) s₄ fun (low : Option BlockId) t => s₄ = t ∧ low = none :=
    .pure (.refl h₄.sound) ⟨rfl, rfl⟩
  cases bottom with
  | none =>
    refine without.bind ?_
    rintro _ _ - ⟨rfl, rfl⟩
    exact steps_tieRegion h₄.sound r _ hblocks (h₄.lt hsplit) fun _ h => nomatch h
  | some b =>
    dsimp only
    split
    · refine without.bind ?_
      rintro _ _ - ⟨rfl, rfl⟩
      exact steps_tieRegion h₄.sound r _ hblocks (h₄.lt hsplit) fun _ h => nomatch h
    · rw [map_eq_pure_bind, bind_assoc]
      refine (steps_bottomSplitter h₄.sound (h₄.lt (h₃.lt (h₂.lt (hbottom b rfl))))).bind ?_
      intro c t ht hc
      rw [pure_bind]
      refine steps_tieRegion ht.sound r _ (fun b hb => ht.lt (hblocks b hb)) (ht.lt (h₄.lt hsplit))
        fun d hd => ?_
      cases hd
      exact hc

theorem steps_wrap (hs : s.Sound) (hV : ∀ v, v.Known s.method.enter → V v) (r : RegionId) :
    Steps V Wires (wrap r) s fun _ _ => True := by
  have hext := (Graph.Extends.refl hs.method.wellFormed hs.method.clean_lt).refreshAll
  refine (steps_modifyGraph hs hext).bind fun _ t ht _ => ?_
  refine steps_method_bind.mpr ?_
  refine (steps_searchTop ht.sound (ht.known hV) (ht.sound.method.blocks_lt r)).bind
    fun found u hu hfound => ?_
  cases found with
  | none => exact .pure (.refl hu.sound) trivial
  | some top =>
    obtain ⟨k, hk⟩ := Graph.exists_block (hfound top rfl)
    refine (steps_block_bind hk).mpr ?_
    split
    · exact .pure (.refl hu.sound) trivial
    · exact (steps_wrapFrom hu.sound (hu.known (ht.known hV)) r (hfound top rfl)).bind
        fun _ v hv _ => .pure (.refl hv.sound) trivial

theorem steps_wrapQueue (limit : Int) (fuel attempts : Nat) (queue : List RegionId)
    (hs : s.Sound) (hV : ∀ v, v.Known s.method.enter → V v) :
    Steps V Wires (wrapQueue limit fuel attempts queue) s fun _ _ => True := by
  induction fuel generalizing s attempts queue with
  | zero => exact .pure (.refl hs) trivial
  | succ fuel ih =>
    cases queue with
    | nil => exact .pure (.refl hs) trivial
    | cons r rest =>
      refine (steps_wrap hs hV r).bind fun wired t ht _ => ?_
      split
      · exact ih _ _ ht.sound (ht.known hV)
      · split
        · exact .violate (hV _ trivial) (.refl ht.sound)
        · exact ih _ _ ht.sound (ht.known hV)

theorem steps_wire (hs : s.Sound) (hV : ∀ v, v.Known s.method.enter → V v) (factor : Int)
    (regions : List RegionId) : Steps V Wires (wire factor regions) s fun _ _ => True :=
  steps_wrapQueue _ _ _ _ hs hV

end TryRegions.Recovery
