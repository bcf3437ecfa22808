import TryRegions.Proofs.Recovery.Entry
import TryRegions.Proofs.Recovery.Trace

/-! The steps that handlers get their entries and bodies in. A block becomes the entry of a handler
itself, or a new block in front of it does. A handler that owns its entry gets what the entry
dominates in the graph as it is then; stand-in edges of blocks that come later are still in it. -/

open Relation

namespace TryRegions.Graph

/-- The graph with an empty block that leads to `b` and is the entry of `h`. -/
def withStandIn (g : Graph) (b : BlockId) (offset : Int) (h : HandlerId) : Graph :=
  ((g.newBlock offset).modify g.size fun k =>
    { k.addFlags { synthetic := true } with handler := some h }).addEdge g.size b

/-- Making a block the entry of a handler. -/
theorem isEntry_modify_handler {g : Graph} {b : BlockId} (hb : b < g.size) (h : HandlerId)
    (c : BlockId) :
    (g.modify b fun k => { k with handler := some h }).isEntry c = true ↔
      c = b ∨ g.isEntry c = true := by
  obtain ⟨k, hk⟩ := exists_block hb
  rw [isEntry, block?_modify, isEntry]
  by_cases hc : c = b
  · subst hc
    simp [hk]
  · simp [hc, Ne.symm hc]

theorem annotated_modify_handler (g : Graph) (b : BlockId) (h : HandlerId) :
    g.Annotated (g.modify b fun k => { k with handler := some h }) :=
  .modify g b fun _ => ⟨rfl, rfl, rfl⟩

section StandIn

variable {g : Graph} {b : BlockId} (offset : Int) (h : HandlerId)

theorem core_withStandIn (c : BlockId) :
    (g.withStandIn b offset h).core c =
      if c = g.size then some { offset, flags := { synthetic := true }, handler := some h }
      else g.core c := by
  rw [withStandIn, core_addEdge, core, block?_modify, block?_newBlock]
  by_cases hc : c = g.size
  · rw [if_pos hc.symm, if_pos hc, if_pos hc]
    simp [Block.core, Block.addFlags, BlockFlags.union]
  · rw [if_neg (Ne.symm hc), if_neg hc, if_neg hc]
    rfl

theorem isEntry_withStandIn (c : BlockId) :
    (g.withStandIn b offset h).isEntry c = true ↔ c = g.size ∨ g.isEntry c = true := by
  rw [isEntry_eq_core, core_withStandIn, isEntry_eq_core]
  split <;> simp [*]

theorem isLive_withStandIn (c : BlockId) :
    (g.withStandIn b offset h).isLive c = true ↔ c = g.size ∨ g.isLive c = true := by
  rw [isLive_eq_core, core_withStandIn, isLive_eq_core]
  split <;> simp [*]

theorem instrs_withStandIn (c : BlockId) :
    (g.withStandIn b offset h).instrs c = g.instrs c := by
  rw [withStandIn, instrs_of_core (core_addEdge c), instrs_modify _ _ fun _ => by rfl,
    instrs_newBlock]

theorem edits_withStandIn (hb : b < g.size) : ReflTransGen Edit g (g.withStandIn b offset h) := by
  have hmade : ReflTransGen Edit g (g.newBlock offset) := .single .newBlock
  have hnamed : (g.newBlock offset).Annotated ((g.newBlock offset).modify g.size fun k =>
      { k.addFlags { synthetic := true } with handler := some h }) :=
    .modify _ _ fun _ => ⟨rfl, rfl, rfl⟩
  refine (hmade.tail (.cut (.annotate hnamed))).tail (.connect (connect_eq_ok.mpr ⟨?_, rfl⟩))
  rw [size_modify, size_newBlock]
  exact ⟨Nat.lt_succ_self _, Nat.lt_succ_of_lt hb⟩

theorem withStandIn_rewired (wf : g.WellFormed) (hb : b < g.size) :
    (g.withStandIn b offset h).WellFormed ∧
      ∀ u v, v ∈ (g.withStandIn b offset h).succs u ↔ v ∈ g.succs u ∨ u = g.size ∧ v = b := by
  have same : (g.newBlock offset).SameFlow ((g.newBlock offset).modify g.size fun k =>
      { k.addFlags { synthetic := true } with handler := some h }) :=
    .modify _ _ _ (fun _ => rfl) (fun _ => rfl) fun _ => rfl
  have hsize : g.size < ((g.newBlock offset).modify g.size fun k =>
      { k.addFlags { synthetic := true } with handler := some h }).size := by
    rw [same.size, size_newBlock]
    exact Nat.lt_succ_self _
  have linked := Rewired.addEdge (same.wellFormed (wf.newBlock offset)) hsize
    (Nat.lt_trans hb hsize)
  refine ⟨linked.wellFormed, fun u v => (linked.mem_succs u v).trans ?_⟩
  rw [same.succs, succs_newBlock]

end StandIn

end TryRegions.Graph

namespace TryRegions.Recovery

open RecoverM TryRegions.Graph Dominance

variable {s t u : State}

/-- A step of setting up entries. -/
inductive Entering : State → State → Prop where
  | note {s t : State} (h : Still s t) : Entering s t
  | disconnect {s : State} {a b : BlockId} {g : Graph}
      (hcut : s.method.graph.disconnect a b = .ok g) : Entering s (s.withGraph g)
  | own {s : State} {b : BlockId} {h : HandlerId} (hlive : s.method.graph.isLive b = true)
      (hpreds : s.method.graph.preds b = []) :
      Entering s { s with
        method := (s.method.modifyHandler h fun k =>
          { k with entry := some b }.addBlock b).modifyBlock b fun k =>
            { k with handler := some h } }
  | collect {s : State} {b : BlockId} {h : HandlerId} {blocks : List BlockId}
      (hentry : s.method.graph.isEntry b = true) (hlive : s.method.graph.isLive b = true)
      (hdom : s.Current → s.method.graph.WellFormed → ∀ c ∈ blocks, c = b ∨
        Dominates s.method.graph (IsRoot s.method.graph s.method.enter) b c) :
      Entering s { s with
        method := s.method.modifyHandler h fun k => blocks.foldl Handler.addBlock k }
  | standIn {s : State} {b : BlockId} {h : HandlerId} {offset : Int}
      (hlive : s.method.graph.isLive b = true) (hpreds : s.method.graph.preds b ≠ []) :
      Entering s { s with
        method := { s.method.modifyHandler h fun k =>
            { k with entry := some s.method.graph.size }.addBlock s.method.graph.size with
          graph := s.method.graph.withStandIn b offset h } }

theorem Entering.quiet (h : Entering s t) : Quiet Edit s t := by
  cases h with
  | note h => exact h.toQuiet.mono fun _ _ => .cut
  | disconnect hcut => exact .withGraph (.cut (.disconnect hcut))
  | @own b h hlive hpreds =>
    refine Quiet.mono ?_ fun _ _ => .cut
    exact .annotated (.modify _ b fun _ => ⟨rfl, rfl, rfl⟩) rfl rfl rfl
  | collect hentry hlive hdom => exact .of_same rfl rfl rfl (.refl _)
  | @standIn b h offset hlive hpreds =>
    have hb := lt_of_isLive hlive
    refine ⟨.of_graph (edits_withStandIn offset h hb) rfl rfl, .refl _⟩

theorem quiet_of_enters (h : ReflTransGen Entering s t) : Quiet Edit s t := by
  induction h with
  | refl => exact .refl s
  | tail _ hstep ih => exact ih.trans hstep.quiet

theorem Entering.isLive (h : Entering s t) {b : BlockId} (hb : s.method.graph.isLive b = true) :
    t.method.graph.isLive b = true := by
  cases h with
  | note h => exact (h.annotated.isLive b).trans hb
  | disconnect hcut =>
    obtain ⟨-, rfl⟩ := disconnect_eq_ok.mp hcut
    rwa [State.graph_withGraph, isLive_eq_core, core_removeEdge, ← isLive_eq_core]
  | @own c h hlive hpreds =>
    exact ((annotated_modify_handler s.method.graph c h).isLive b).trans hb
  | collect hentry hlive hdom => exact hb
  | @standIn c h offset hlive hpreds => exact (isLive_withStandIn offset h b).mpr (Or.inr hb)

theorem isLive_of_enters (h : ReflTransGen Entering s t) {b : BlockId}
    (hb : s.method.graph.isLive b = true) : t.method.graph.isLive b = true := by
  induction h with
  | refl => exact hb
  | tail _ hstep ih => exact hstep.isLive ih

section Sweep

theorem enters_dropTmpEdge (b : BlockId) :
    Moves (ReflTransGen Entering) (dropTmpEdge b) s fun _ _ => True := by
  refine .of_block fun k _ => ?_
  split
  · exact .pure trivial
  · refine Moves.andThen (Q := fun _ _ => True)
      (.of_ask fun g hg => .modify (.single (.disconnect hg)) trivial) fun _ t _ => ?_
    refine .modify (.single (.note ?_)) trivial
    exact .modify t b (fun _ => ⟨rfl, rfl, rfl⟩) (fun _ => rfl) fun _ _ => rfl

theorem bare_bindResult {i : Instr} {r r' : Register} (hr : i.result = some r)
    (hindex : r'.index = r.index) (h : HandlerId) : (bindResult h r' i).bare = i.bare := by
  cases i
  cases hr
  simp only [bindResult, Instr.bare, Option.map_some, hindex]
  rfl

/-- The instruction that binds the caught value gets a note on its result and keeps its register. -/
theorem Still.bindResult {b : BlockId} {k : Block} {i : Instr} {r r' : Register}
    (hk : s.method.graph.block? b = some k) (hlast : k.instrs.getLast? = some i)
    (hr : i.result = some r) (hindex : r'.index = r.index) (h : HandlerId)
    (arg : Option Operand) :
    Still s { s with
      method := (s.method.setArg h arg).modifyBlock b fun k => { k with
        instrs := k.instrs.modify (k.instrs.length - 1) (Recovery.bindResult h r') } } := by
  refine (Still.setArg s h arg).trans ?_
  refine .modify { s with method := s.method.setArg h arg } b (fun _ => ⟨rfl, rfl, rfl⟩)
    (fun _ => rfl) fun k' hk' => k'.code_modifyInstr _ fun j hj => ?_
  have hcleared : (s.method.setArg h arg).graph.block? b = some { k with
      instrs := k.instrs.map fun i => if i.binds = some h then { i with binds := none } else i } :=
    (block?_mapBlocks s.method.graph _ b).trans (congrArg (Option.map _) hk)
  obtain rfl := Option.some.inj (hk'.symm.trans hcleared)
  have hresult : j.result = some r := by
    rw [← List.getLast?_eq_getElem?, List.getLast?_map, hlast] at hj
    cases hj
    dsimp only
    split
    · exact hr
    · exact hr
  exact bare_bindResult hresult hindex h

theorem enters_bindVariable (b : BlockId) (h : HandlerId) :
    Moves (ReflTransGen Entering) (bindVariable b h) s fun _ _ => True := by
  refine .of_block fun k hk => .of_method ?_
  dsimp only
  split
  · rename_i i hlast
    split
    · rename_i r _ hr
      refine .modify (.single (.note (.bindResult hk hlast hr ?_ h _))) trivial
      rfl
    · exact .modify (.single (.note (.setArg s h _))) trivial
  · exact .modify (.single (.note (.setArg s h _))) trivial

theorem enters_ownEntry {b : BlockId} (hlive : s.method.graph.isLive b = true)
    (hpreds : s.method.graph.preds b = []) (h : HandlerId) :
    Moves (ReflTransGen Entering) (ownEntry b h) s fun _ _ => True := by
  refine Moves.bind (Q := fun _ t => t.method.graph.isEntry b = true ∧
    t.method.graph.isLive b = true) (.modify (.single (.own hlive hpreds)) ?_) fun _ t _ ht => ?_
  · refine ⟨?_, Entering.isLive (.own hlive hpreds) hlive⟩
    exact (isEntry_modify_handler (lt_of_isLive hlive) h b).mpr (Or.inl rfl)
  · have htree := (moves_domTree (s := t)).mono fun _ u hu hq => And.intro hu hq.1
    refine Moves.bind (htree.relax fun _ hu => .single (.note hu.still)) fun tree u _ hu => ?_
    obtain ⟨noted, htree⟩ := hu
    refine .of_ask fun dominated hdominated =>
      .modify (.single (.collect (b := b) ?_ ?_ ?_)) trivial
    · exact (noted.isEntry b).trans ht.1
    · exact (noted.annotated.isLive b).trans ht.2
    · intro hcurrent wf c hc
      have hb : b < u.method.graph.size :=
        lt_of_isLive ((noted.annotated.isLive b).trans ht.2)
      obtain ⟨l, hl, hdom⟩ := tree.dominatedFrom_eq_ok wf b hb
      obtain rfl : l = dominated := Except.ok.inj (hl.symm.trans hdominated)
      refine (hdom c hc).2.imp_right fun hc => ?_
      rw [htree hcurrent] at hc
      exact (dominates_iff wf _).mp hc

theorem enters_standInEntry {b : BlockId} (hlive : s.method.graph.isLive b = true)
    (hpreds : s.method.graph.preds b ≠ []) (h : HandlerId) :
    Moves (ReflTransGen Entering) (standInEntry b h) s fun _ _ => True := by
  -- What lies between is no step of its own, so the entry is made as a whole.
  have hb := lt_of_isLive hlive
  obtain ⟨k, hk⟩ := exists_block hb
  refine .of_yields (yields_bind.mpr ((yields_block hk).mpr ?_))
  refine yields_bind.mpr (yields_newBlock.mpr ?_)
  refine yields_bind.mpr (yields_modifyGraph.mpr (yields_bind.mpr ((yields_connect ?_ ?_).mpr ?_)))
  · rw [State.graph_withGraph, size_modify, State.graph_withGraph, size_newBlock]
    exact Nat.lt_succ_self _
  · rw [State.graph_withGraph, size_modify, State.graph_withGraph, size_newBlock]
    exact Nat.lt_succ_of_lt hb
  · exact yields_modify.mpr ⟨.single (.standIn hlive hpreds), trivial⟩

theorem enters_setUpEntry {b : BlockId} (hb : s.method.graph.isLive b = true) :
    Moves (ReflTransGen Entering) (setUpEntry b) s fun _ _ => True := by
  refine .of_block fun k _ => ?_
  split
  · exact .pure trivial
  · rename_i h _
    refine Moves.andThen (Q := fun _ _ => True)
      (.modify (.single (.note (.modify s b (fun _ => ⟨rfl, rfl, rfl⟩) (fun _ => rfl) fun k _ =>
        k.code_modifyInstr 0 fun _ _ => rfl))) trivial)
      fun _ t ht => (enters_dropTmpEdge b).andThen fun _ u hu => .of_block fun k hk => ?_
    have hb := isLive_of_enters hu (isLive_of_enters ht hb)
    split
    · rename_i hempty
      have hpreds := (preds_eq hk).trans (List.isEmpty_iff.mp hempty)
      exact (enters_ownEntry hb hpreds h).andThen fun _ v _ => enters_bindVariable b h
    · rename_i hempty
      have hpreds : u.method.graph.preds b ≠ [] := by
        rw [preds_eq hk]
        exact fun hnil => hempty (List.isEmpty_iff.mpr hnil)
      exact (enters_standInEntry hb hpreds h).andThen fun _ v _ => enters_bindVariable b h

theorem enters_setUpEntries (wf : s.method.graph.WellFormed) :
    Moves (ReflTransGen Entering) setUpEntries s fun _ _ => True := by
  refine .of_graph (.each fun b hb t ht => enters_setUpEntry ?_)
  exact isLive_of_enters ht ((wf.mem_live b).mp hb)

end Sweep

end TryRegions.Recovery
