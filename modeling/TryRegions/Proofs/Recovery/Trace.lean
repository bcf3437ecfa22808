import TryRegions.Proofs.Forest.Nested
import TryRegions.Proofs.Graph.Code
import TryRegions.Proofs.Graph.Trace
import TryRegions.Proofs.Recovery.Moves
import TryRegions.Proofs.Recovery.Sound
import TryRegions.Recovery.Pass

/-! How the graph of a method and its dominator tree go along, whatever the method is like. The
graph changes by edits alone, and a tree that is taken for up to date is the tree of the graph as it
is. -/

open Relation

namespace TryRegions

/-- The tree reads nothing but the flow and the version. -/
theorem Graph.Annotated.ofGraph {g g' : Graph} (h : g.Annotated g') (enter : Option BlockId) :
    DomTree.ofGraph g' enter = DomTree.ofGraph g enter := by
  have hsuccs : g'.succs = g.succs := funext h.succs
  have hpreds : g'.preds = g.preds := funext h.preds
  have hlive : g'.isLive = g.isLive := funext h.isLive
  unfold DomTree.ofGraph Dominance.roots Dominance.reversePostOrder Dominance.round
    Dominance.candidate Dominance.frontierOf
  rw [h.size, h.live, h.version, hsuccs, hpreds, hlive]

theorem Graph.Annotated.build {g g' : Graph} (h : g.Annotated g') (enter : Option BlockId) :
    DomTree.build g' enter = DomTree.build g enter := by
  rw [DomTree.build, DomTree.build, h.ofGraph]

theorem DomTree.eq_ofGraph_of_build {g : Graph} {enter : Option BlockId} {tree : DomTree}
    (h : DomTree.build g enter = .ok tree) : tree = DomTree.ofGraph g enter := by
  unfold DomTree.build at h
  dsimp only at h
  split at h
  · exact (Except.ok.inj h).symm
  · cases h

namespace Recovery

open RecoverM TryRegions.Graph

/-- A tree that the state holds is that of the graph as it is, unless its version tells that it is
out of date. -/
def State.Current (s : State) : Prop :=
  ∀ tree, s.tree = some tree → tree.version ≤ s.method.graph.version ∧
    (tree.version = s.method.graph.version →
      tree = DomTree.ofGraph s.method.graph s.method.enter)

variable {E : Graph → Graph → Prop} {s t u : State}

/-- From `s` to `t` the graph changes by edits that `E` allows, and the tree is kept or was made of
a graph on the way. -/
structure Traced (E : Graph → Graph → Prop) (s t : State) : Prop where
  graph : ReflTransGen E s.method.graph t.method.graph
  enter : t.method.enter = s.method.enter
  tree : t.tree = s.tree ∨ ∃ g, ReflTransGen E g t.method.graph ∧
    t.tree = some (DomTree.ofGraph g t.method.enter)

namespace Traced

theorem refl (s : State) : Traced E s s := ⟨.refl, rfl, Or.inl rfl⟩

theorem trans (h : Traced E s t) (h' : Traced E t u) : Traced E s u where
  graph := h.graph.trans h'.graph
  enter := h'.enter.trans h.enter
  tree := by
    rcases h'.tree with hkept | hmade
    · rcases h.tree with hkept' | ⟨g, hg, htree⟩
      · exact Or.inl (hkept.trans hkept')
      · exact Or.inr ⟨g, hg.trans h'.graph, by rw [hkept, htree, h'.enter]⟩
    · exact Or.inr hmade

instance : IsPreorder State (Traced E) where
  refl := refl
  trans _ _ _ := trans

theorem mono {E' : Graph → Graph → Prop} (h : Traced E s t) (hE : ∀ g g', E g g' → E' g g') :
    Traced E' s t where
  graph := ReflTransGen.mono hE _ _ h.graph
  enter := h.enter
  tree := h.tree.imp_right fun ⟨g, hg, htree⟩ => ⟨g, ReflTransGen.mono hE _ _ hg, htree⟩

/-- A tree stays up to date only as long as the flow stays as it is. -/
theorem current (h : Traced Edit s t) (hs : s.Current) : t.Current := by
  intro tree htree
  rcases h.tree with hkept | ⟨g, hg, hmade⟩
  · obtain ⟨hle, hsame⟩ := hs tree (hkept ▸ htree)
    rcases version_of_edits h.graph with hann | hlt
    · rw [hann.version, hann.ofGraph, h.enter]
      exact ⟨hle, hsame⟩
    · refine ⟨Nat.le_of_lt (Nat.lt_of_le_of_lt hle hlt), fun heq => ?_⟩
      exact absurd (heq ▸ hle) (Nat.not_le_of_lt hlt)
  · obtain rfl : DomTree.ofGraph g t.method.enter = tree := Option.some.inj (hmade.symm.trans htree)
    rcases version_of_edits hg with hann | hlt
    · rw [hann.ofGraph, hann.version]
      exact ⟨Nat.le_refl _, fun _ => rfl⟩
    · exact ⟨Nat.le_of_lt hlt, fun heq => absurd heq (Nat.ne_of_lt hlt)⟩

/-- The method may change in all other ways. -/
theorem of_graph (hgraph : ReflTransGen E s.method.graph t.method.graph)
    (henter : t.method.enter = s.method.enter) (htree : t.tree = s.tree) : Traced E s t :=
  ⟨hgraph, henter, Or.inl htree⟩

end Traced

/-- Traced, with the nesting of regions left as it is. -/
structure Quiet (E : Graph → Graph → Prop) (s t : State) : Prop extends Traced E s t where
  nesting : s.method.forest.SameNesting t.method.forest

namespace Quiet

theorem refl (s : State) : Quiet E s s := ⟨.refl s, .refl _⟩

theorem trans (h : Quiet E s t) (h' : Quiet E t u) : Quiet E s u :=
  ⟨h.toTraced.trans h'.toTraced, h.nesting.trans h'.nesting⟩

instance : IsPreorder State (Quiet E) where
  refl := refl
  trans _ _ _ := trans

theorem mono {E' : Graph → Graph → Prop} (h : Quiet E s t) (hE : ∀ g g', E g g' → E' g g') :
    Quiet E' s t :=
  ⟨h.toTraced.mono hE, h.nesting⟩

theorem of_same (hgraph : t.method.graph = s.method.graph)
    (henter : t.method.enter = s.method.enter) (htree : t.tree = s.tree)
    (hforest : s.method.forest.SameNesting t.method.forest) : Quiet E s t :=
  ⟨.of_graph (hgraph ▸ .refl) henter htree, hforest⟩

theorem withGraph {g : Graph} (h : E s.method.graph g) : Quiet E s (s.withGraph g) :=
  ⟨.of_graph (.single h) rfl rfl, .refl _⟩

theorem annotated (hgraph : s.method.graph.Annotated t.method.graph)
    (henter : t.method.enter = s.method.enter) (htree : t.tree = s.tree)
    (hforest : t.method.forest = s.method.forest) : Quiet Cut s t :=
  ⟨.of_graph (.single (.annotate hgraph)) henter htree, hforest ▸ .refl _⟩

end Quiet

/-- Neither the flow, nor what is noted on blocks, nor what handlers own, nor regions change. -/
structure Noted (s t : State) : Prop extends Quiet Cut s t where
  annotated : s.method.graph.Annotated t.method.graph
  label : ∀ b, t.method.graph.label b = s.method.graph.label b
  extent : ∀ h, (t.method.handler h).extent = (s.method.handler h).extent
  forest : t.method.forest = s.method.forest

namespace Noted

theorem refl (s : State) : Noted s s := ⟨.refl s, .refl _, fun _ => rfl, fun _ => rfl, rfl⟩

theorem trans (h : Noted s t) (h' : Noted t u) : Noted s u where
  toQuiet := h.toQuiet.trans h'.toQuiet
  annotated := h.annotated.trans h'.annotated
  label b := (h'.label b).trans (h.label b)
  extent k := (h'.extent k).trans (h.extent k)
  forest := h'.forest.trans h.forest

instance : IsPreorder State Noted where
  refl := refl
  trans _ _ _ := trans

theorem body (h : Noted s t) (k : HandlerId) :
    (t.method.handler k).body = (s.method.handler k).body :=
  congrArg (fun e => e.2.1) (h.extent k)

theorem entry (h : Noted s t) (k : HandlerId) :
    (t.method.handler k).entry = (s.method.handler k).entry :=
  congrArg Prod.fst (h.extent k)

theorem isEntry (h : Noted s t) (b : BlockId) :
    t.method.graph.isEntry b = s.method.graph.isEntry b := by
  rw [isEntry_eq_label, h.label, ← isEntry_eq_label]

theorem flags (h : Noted s t) (b : BlockId) :
    t.method.graph.flags b = s.method.graph.flags b := by
  rw [flags_eq_label, h.label, ← flags_eq_label]

theorem home (h : Noted s t) (b : BlockId) :
    t.method.graph.home b = s.method.graph.home b := by
  rw [home_eq_label, h.label, ← home_eq_label]

theorem region (h : Noted s t) (r : RegionId) : t.method.region r = s.method.region r := by
  rw [Method.region, h.forest, Method.region]

theorem modify (s : State) (b : BlockId) {f : Block → Block}
    (hf : ∀ k, (f k).succs = k.succs ∧ (f k).preds = k.preds ∧ (f k).detached = k.detached)
    (hlabel : ∀ k, (f k).label = k.label) :
    Noted s (s.withGraph (s.method.graph.modify b f)) where
  toQuiet := .annotated (.modify _ b hf) rfl rfl rfl
  annotated := .modify _ b hf
  label c := label_modify_eq _ b c f hlabel
  extent _ := rfl
  forest := rfl

theorem setArg (s : State) (h : HandlerId) (arg : Option Operand) :
    Noted s { s with method := s.method.setArg h arg } where
  toQuiet := .annotated (.mapBlocks _ fun _ => ⟨rfl, rfl, rfl⟩) rfl rfl rfl
  annotated := .mapBlocks _ fun _ => ⟨rfl, rfl, rfl⟩
  label c := by
    rw [label_eq, label_eq]
    exact Method.map_block?_modifyBinders _ s.method h (fun i => { i with binds := none }) c
      fun _ _ => rfl
  extent k := Method.handler_modifyHandler_eq Handler.extent _ h k _ fun _ => rfl
  forest := rfl

theorem refreshAll (s : State) : Noted s (s.withGraph s.method.graph.refreshAll) where
  toQuiet := .annotated (.refreshAll _) rfl rfl rfl
  annotated := .refreshAll _
  label b := by
    rw [label_eq, label_eq]
    exact map_block?_refreshAll _ (fun _ _ => rfl) _ b
  extent _ := rfl
  forest := rfl

theorem withTree {tree : DomTree} (h : tree = DomTree.ofGraph s.method.graph s.method.enter) :
    Noted s { s with tree := some tree } where
  toQuiet := ⟨⟨.refl, rfl, Or.inr ⟨_, .refl, congrArg some h⟩⟩, .refl _⟩
  annotated := .refl _
  label _ := rfl
  extent _ := rfl
  forest := rfl

theorem record (s : State) (e : Event) :
    Noted s { s with log := s.log ++ [⟨s.method.name, e⟩] } :=
  ⟨.of_same rfl rfl rfl (.refl _), .refl _, fun _ => rfl, fun _ => rfl, rfl⟩

end Noted

/-- Noted, with the code of every block left as it is. -/
structure Still (s t : State) : Prop extends Noted s t where
  code : ∀ b, t.method.graph.code b = s.method.graph.code b

namespace Still

theorem refl (s : State) : Still s s := ⟨.refl s, fun _ => rfl⟩

theorem trans (h : Still s t) (h' : Still t u) : Still s u :=
  ⟨h.toNoted.trans h'.toNoted, fun b => (h'.code b).trans (h.code b)⟩

instance : IsPreorder State Still where
  refl := refl
  trans _ _ _ := trans

theorem modify (s : State) (b : BlockId) {f : Block → Block}
    (hf : ∀ k, (f k).succs = k.succs ∧ (f k).preds = k.preds ∧ (f k).detached = k.detached)
    (hlabel : ∀ k, (f k).label = k.label)
    (hcode : ∀ k, s.method.graph.block? b = some k → (f k).code = k.code) :
    Still s (s.withGraph (s.method.graph.modify b f)) :=
  ⟨.modify s b hf hlabel, code_modify _ b hcode⟩

theorem setArg (s : State) (h : HandlerId) (arg : Option Operand) :
    Still s { s with method := s.method.setArg h arg } :=
  ⟨.setArg s h arg, s.method.code_modifyBinders h fun _ => rfl⟩

end Still

/-- Noted, with handlers and the instructions of every block left as they are. -/
structure Resting (s t : State) : Prop extends Noted s t where
  handlers : t.method.handlers = s.method.handlers
  instrs : ∀ b, t.method.graph.instrs b = s.method.graph.instrs b

namespace Resting

theorem refl (s : State) : Resting s s := ⟨.refl s, rfl, fun _ => rfl⟩

theorem trans (h : Resting s t) (h' : Resting t u) : Resting s u :=
  ⟨h.toNoted.trans h'.toNoted, h'.handlers.trans h.handlers,
    fun b => (h'.instrs b).trans (h.instrs b)⟩

instance : IsPreorder State Resting where
  refl := refl
  trans _ _ _ := trans

theorem still (h : Resting s t) : Still s t := ⟨h.toNoted, fun b => code_of_instrs (h.instrs b)⟩

theorem modify (s : State) (b : BlockId) {f : Block → Block}
    (hf : ∀ k, (f k).succs = k.succs ∧ (f k).preds = k.preds ∧ (f k).detached = k.detached)
    (hlabel : ∀ k, (f k).label = k.label) (hinstrs : ∀ k, (f k).instrs = k.instrs) :
    Resting s (s.withGraph (s.method.graph.modify b f)) :=
  ⟨.modify s b hf hlabel, rfl, instrs_modify _ b hinstrs⟩

theorem refreshAll (s : State) : Resting s (s.withGraph s.method.graph.refreshAll) :=
  ⟨.refreshAll s, rfl, instrs_refreshAll _⟩

theorem withTree {tree : DomTree} (h : tree = DomTree.ofGraph s.method.graph s.method.enter) :
    Resting s { s with tree := some tree } :=
  ⟨.withTree h, rfl, fun _ => rfl⟩

theorem record (s : State) (e : Event) :
    Resting s { s with log := s.log ++ [⟨s.method.name, e⟩] } :=
  ⟨.record s e, rfl, fun _ => rfl⟩

end Resting

section Primitive

variable {α : Type} {x : RecoverM α} {Q : α → State → Prop}

/-- Where nothing is added, less is done than edits may do. -/
theorem Moves.edits (h : Moves (Quiet Cut) x s Q) : Moves (Quiet Edit) x s Q :=
  h.relax fun _ ht => ht.mono fun _ _ => .cut

theorem moves_record (e : Event) : Moves (Quiet E) (record e) s fun _ _ => True :=
  .modify (.of_same rfl rfl rfl (.refl _)) trivial

theorem moves_modifyMethod {f : Method → Method}
    (hgraph : s.method.graph.Annotated (f s.method).graph)
    (henter : (f s.method).enter = s.method.enter)
    (hforest : (f s.method).forest = s.method.forest) :
    Moves (Quiet Cut) (modifyMethod f) s fun _ t => t = { s with method := f s.method } :=
  .modify (.annotated hgraph henter rfl hforest) rfl

theorem moves_annotate {f : Graph → Graph} (h : s.method.graph.Annotated (f s.method.graph)) :
    Moves (Quiet Cut) (modifyGraph f) s fun _ t => t = s.withGraph (f s.method.graph) :=
  moves_modifyMethod h rfl rfl

theorem moves_rebuildTree :
    Moves Resting rebuildTree s fun tree t =>
      tree = DomTree.ofGraph t.method.graph t.method.enter ∧
        t.method = { s.method with graph := s.method.graph.refreshAll } := by
  refine Moves.bind (Q := fun _ t => t = s.withGraph s.method.graph.refreshAll)
    (.modify (.refreshAll s) rfl) ?_
  rintro _ t - rfl
  refine .of_method (.of_ofExcept fun tree htree => ?_)
  have hmade : tree = DomTree.ofGraph s.method.graph.refreshAll s.method.enter :=
    DomTree.eq_ofGraph_of_build htree
  refine Moves.bind (Q := fun _ t => t = { s.withGraph s.method.graph.refreshAll with
    tree := some tree }) (.modify (.withTree hmade) rfl) ?_
  rintro _ t - rfl
  exact .pure ⟨hmade, rfl⟩

/-- The tree is that of the graph as it is, of which only clean edges may have changed. -/
theorem moves_domTree :
    Moves Resting domTree s fun tree t =>
      (t.Current → tree = DomTree.ofGraph t.method.graph t.method.enter) ∧
        (t.method = s.method ∨
          t.method = { s.method with graph := s.method.graph.refreshAll }) := by
  refine .of_get ?_
  have hrebuild : Moves Resting rebuildTree s fun tree t =>
      (t.Current → tree = DomTree.ofGraph t.method.graph t.method.enter) ∧
        (t.method = s.method ∨
          t.method = { s.method with graph := s.method.graph.refreshAll }) :=
    moves_rebuildTree.mono fun _ _ _ ht => ⟨fun _ => ht.1, Or.inr ht.2⟩
  split
  · rename_i tree htree
    split
    · exact hrebuild
    · rename_i hstale
      refine .pure ⟨fun hs => (hs tree htree).2 ?_, Or.inl rfl⟩
      by_contra hne
      exact hstale (decide_eq_true (Ne.symm hne))
  · exact hrebuild

end Primitive

end Recovery

end TryRegions
