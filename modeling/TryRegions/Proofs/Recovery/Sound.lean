import TryRegions.Proofs.Dominance.Queries
import TryRegions.Proofs.Graph.Extension
import TryRegions.Proofs.Recovery.Logic

/-! Sound methods: every number that stands for a block is the number of one, and the handlers that
regions list have their entries. From a sound state no step of the recovery asks for a block that
does not exist. -/

namespace TryRegions

structure Method.Sound (m : Method) : Prop where
  wellFormed : m.graph.WellFormed
  clean_lt : ∀ a, ∀ b ∈ m.graph.clean a, b < m.graph.size
  enter_lt : ∀ e, m.enter = some e → e < m.graph.size
  isEntry : ∀ h e, (m.handler h).entry = some e → m.graph.isEntry e = true
  body_lt : ∀ h, ∀ b ∈ (m.handler h).body, b < m.graph.size
  blocks_lt : ∀ r, ∀ b ∈ (m.region r).blocks, b < m.graph.size
  hasEntry : ∀ r, ∀ h ∈ (m.region r).handlers, (m.handler h).entry.isSome = true

/-- A sound method stays sound with regions that hold blocks and list handlers of the old ones. -/
theorem Method.Sound.reforest {m : Method} (hm : m.Sound) {f : Forest}
    (hblocks : ∀ r, ∀ b ∈ (f.get r).blocks, ∃ q, b ∈ (m.region q).blocks)
    (hhandlers : ∀ r, ∀ h ∈ (f.get r).handlers, ∃ q, h ∈ (m.region q).handlers) :
    ({ m with forest := f } : Method).Sound :=
  { hm with
    blocks_lt := fun r b hb => by
      obtain ⟨q, hq⟩ := hblocks r b hb
      exact hm.blocks_lt q b hq
    hasEntry := fun r h hh => by
      obtain ⟨q, hq⟩ := hhandlers r h hh
      exact hm.hasEntry q h hq }

namespace Graph

theorem lt_of_isEntry {g : Graph} {b : BlockId} (h : g.isEntry b = true) : b < g.size := by
  unfold isEntry at h
  cases hk : g.block? b with
  | none =>
    rw [hk] at h
    cases h
  | some k => exact lt_of_block? hk

end Graph

namespace Recovery

open RecoverM

structure State.Sound (s : State) : Prop where
  method : s.method.Sound
  tree_within : ∀ t, s.tree = some t → t.Within s.method.graph.size

def State.withGraph (s : State) (g : Graph) : State :=
  { s with method := { s.method with graph := g } }

@[simp] theorem State.graph_withGraph (s : State) (g : Graph) :
    (s.withGraph g).method.graph = g := rfl

@[simp] theorem State.withGraph_withGraph (s : State) (g g' : Graph) :
    (s.withGraph g).withGraph g' = s.withGraph g' := rfl

section Edits

variable {s : State} {E : Violation → State → Prop}

theorem yields_modifyGraph {f : Graph → Graph} {Q : PUnit → State → Prop} :
    Yields (modifyGraph f) s Q E ↔ Q ⟨⟩ (s.withGraph (f s.method.graph)) := Iff.rfl

theorem yields_edit {f : Graph → Except Fault Graph} {g : Graph} {Q : PUnit → State → Prop}
    (h : f s.method.graph = .ok g) : Yields (edit f) s Q E ↔ Q ⟨⟩ (s.withGraph g) :=
  yields_bind.trans (yields_ask h)

theorem yields_connect {a b : BlockId} {Q : PUnit → State → Prop} (ha : a < s.method.graph.size)
    (hb : b < s.method.graph.size) :
    Yields (edit fun g => g.connect a b) s Q E ↔
      Q ⟨⟩ (s.withGraph (s.method.graph.addEdge a b)) := by
  apply yields_edit
  rw [Graph.connect, Graph.check_eq_ok ha, Graph.check_eq_ok hb]
  rfl

theorem yields_disconnect {a b : BlockId} {Q : PUnit → State → Prop} (ha : a < s.method.graph.size)
    (hb : b < s.method.graph.size) :
    Yields (edit fun g => g.disconnect a b) s Q E ↔
      Q ⟨⟩ (s.withGraph (s.method.graph.removeEdge a b)) := by
  apply yields_edit
  rw [Graph.disconnect, Graph.check_eq_ok ha, Graph.check_eq_ok hb]
  rfl

theorem yields_reconnect {a b c : BlockId} {Q : PUnit → State → Prop}
    (ha : a < s.method.graph.size) (hb : b < s.method.graph.size) (hc : c < s.method.graph.size) :
    Yields (edit fun g => g.reconnect a b c) s Q E ↔
      Q ⟨⟩ (s.withGraph (s.method.graph.redirect a b c)) := by
  apply yields_edit
  rw [Graph.reconnect, Graph.check_eq_ok ha, Graph.check_eq_ok hb, Graph.check_eq_ok hc]
  rfl

theorem yields_refreshClean {b : BlockId} {Q : PUnit → State → Prop}
    (hb : b < s.method.graph.size) :
    Yields (edit fun g => g.refreshClean b) s Q E ↔
      Q ⟨⟩ (s.withGraph (s.method.graph.refresh b)) := by
  apply yields_edit
  rw [Graph.refreshClean, Graph.check_eq_ok hb]
  rfl

theorem yields_newBlock {offset : Int} {Q : BlockId → State → Prop} :
    Yields (newBlock offset) s Q E ↔
      Q s.method.graph.size (s.withGraph (s.method.graph.newBlock offset)) := Iff.rfl

theorem yields_splitTop {b : BlockId} {Q : BlockId → State → Prop}
    (hb : b < s.method.graph.size) :
    Yields (splitTop b) s Q E ↔
      Q s.method.graph.size (s.withGraph (s.method.graph.splitAbove b)) := by
  refine yields_bind.trans (yields_graph.trans (yields_bind.trans ?_))
  apply yields_edit
  rw [Graph.splitTop, Graph.check_eq_ok hb]
  rfl

end Edits

/-- The violations that a recovery may stop at, given the enter block. -/
def Violation.Known (enter : Option BlockId) : Violation → Prop
  | .repeatedHandler _ _ => False
  | .queueLimit _ => True
  | .enterWithoutSuccessor e => enter = some e
  | .noTopBlock _ => enter = none

/-- Wiring goes from `s` to `t`: the graph is extended, and only the top splitters of regions and
what the blocks are to regions may change besides it. -/
structure Wires (s t : State) : Prop where
  sound : t.Sound
  graph : s.method.graph.Extends t.method.graph
  handlers : t.method.handlers = s.method.handlers
  registered : t.method.registered = s.method.registered
  enter : t.method.enter = s.method.enter
  region : ∀ r, ∃ top, t.method.region r = { s.method.region r with topSplitter := top }

namespace Wires

variable {s t u : State}

theorem refl (hs : s.Sound) : Wires s s :=
  ⟨hs, .refl hs.method.wellFormed hs.method.clean_lt, rfl, rfl, rfl, fun _ => ⟨_, rfl⟩⟩

theorem trans (h : Wires s t) (h' : Wires t u) : Wires s u where
  sound := h'.sound
  graph := h.graph.trans h'.graph
  handlers := h'.handlers.trans h.handlers
  registered := h'.registered.trans h.registered
  enter := h'.enter.trans h.enter
  region r := by
    obtain ⟨top, htop⟩ := h.region r
    obtain ⟨top', htop'⟩ := h'.region r
    exact ⟨top', by rw [htop', htop]⟩

instance : IsTrans State Wires := ⟨fun _ _ _ => trans⟩

theorem handler (h : Wires s t) (x : HandlerId) : t.method.handler x = s.method.handler x := by
  rw [Method.handler, Method.handler, h.handlers]

theorem known (h : Wires s t) {V : Violation → Prop} (hV : ∀ v, v.Known s.method.enter → V v) :
    ∀ v, v.Known t.method.enter → V v := by
  rw [h.enter]
  exact hV

theorem lt (h : Wires s t) {b : BlockId} (hb : b < s.method.graph.size) :
    b < t.method.graph.size :=
  Nat.lt_of_lt_of_le hb h.graph.size_le

/-- What is sound stays sound in an extended graph. -/
theorem sound_of_extends {m m' : Method} (hm : m.Sound) (hgraph : m.graph.Extends m'.graph)
    (hhandlers : m'.handlers = m.handlers) (henter : m'.enter = m.enter)
    (hregion : ∀ r, ∃ top, m'.region r = { m.region r with topSplitter := top }) : m'.Sound := by
  have hhandler : ∀ h, m'.handler h = m.handler h := fun h => by
    rw [Method.handler, Method.handler, hhandlers]
  constructor
  case wellFormed => exact hgraph.wellFormed
  case clean_lt => exact hgraph.clean_lt
  case enter_lt =>
    intro e he
    rw [henter] at he
    exact Nat.lt_of_lt_of_le (hm.enter_lt e he) hgraph.size_le
  case isEntry =>
    intro h e he
    rw [hhandler] at he
    have hentry := hm.isEntry h e he
    rwa [hgraph.isEntry_eq (Graph.lt_of_isEntry hentry)]
  case body_lt =>
    intro h b hb
    rw [hhandler] at hb
    exact Nat.lt_of_lt_of_le (hm.body_lt h b hb) hgraph.size_le
  case blocks_lt =>
    intro r b hb
    obtain ⟨top, htop⟩ := hregion r
    rw [htop] at hb
    exact Nat.lt_of_lt_of_le (hm.blocks_lt r b hb) hgraph.size_le
  case hasEntry =>
    intro r h hh
    obtain ⟨top, htop⟩ := hregion r
    rw [htop] at hh
    rw [hhandler]
    exact hm.hasEntry r h hh

/-- Another graph, as long as it extends the first one. -/
theorem withGraph (hs : s.Sound) (h : Wires s t) {g : Graph} (hext : s.method.graph.Extends g)
    (hsize : t.method.graph.size ≤ g.size) : Wires s (t.withGraph g) where
  sound := ⟨sound_of_extends hs.method hext h.handlers h.enter h.region,
    fun tree htree => (h.sound.tree_within tree htree).mono hsize⟩
  graph := hext
  handlers := h.handlers
  registered := h.registered
  enter := h.enter
  region := h.region

theorem of_graph (hs : s.Sound) {g : Graph} (h : s.method.graph.Extends g) :
    Wires s (s.withGraph g) :=
  withGraph hs (refl hs) h h.size_le

/-- A step that changes neither the method nor the tree. -/
theorem of_same (hs : s.Sound) (hmethod : t.method = s.method) (htree : t.tree = s.tree) :
    Wires s t where
  sound := ⟨by rw [hmethod]; exact hs.method, by rw [hmethod, htree]; exact hs.tree_within⟩
  graph := by
    rw [hmethod]
    exact .refl hs.method.wellFormed hs.method.clean_lt
  handlers := by rw [hmethod]
  registered := by rw [hmethod]
  enter := by rw [hmethod]
  region r := ⟨(s.method.region r).topSplitter, by rw [hmethod]⟩

end Wires

section Primitives

variable {V : Violation → Prop} {s : State}

theorem steps_record (hs : s.Sound) (e : Event) : Steps V Wires (record e) s fun _ _ => True :=
  ⟨.of_same hs rfl rfl, trivial⟩

theorem steps_modifyGraph (hs : s.Sound) {f : Graph → Graph}
    (h : s.method.graph.Extends (f s.method.graph)) :
    Steps V Wires (modifyGraph f) s fun _ t => t = s.withGraph (f s.method.graph) :=
  ⟨.of_graph hs h, rfl⟩

/-- The dominator tree at hand; at most clean edges were computed anew. -/
structure Refreshes (s t : State) : Prop where
  sound : t.Sound
  graph : t.method.graph = s.method.graph ∨ t.method.graph = s.method.graph.refreshAll
  method : t.method = { s.method with graph := t.method.graph }

theorem yields_rebuildTree (hs : s.Sound) {E : Violation → State → Prop} :
    Yields rebuildTree s
      (fun tree t => Refreshes s t ∧ tree.Within t.method.graph.size) E := by
  have hext := (Graph.Extends.refl hs.method.wellFormed hs.method.clean_lt).refreshAll
  have hbuild := Dominance.build_eq hext.wellFormed s.method.enter
  have hwithin := DomTree.within_ofGraph hext.wellFormed s.method.enter
  have hsound := (Wires.of_graph hs hext).sound
  refine yields_bind.mpr (yields_modifyGraph.mpr (yields_bind.mpr (yields_method.mpr ?_)))
  refine yields_bind.mpr ((yields_ofExcept hbuild).mpr (yields_bind.mpr (yields_modify.mpr ?_)))
  refine yields_pure.mpr ⟨⟨⟨hsound.method, fun tree htree => ?_⟩, Or.inr rfl, rfl⟩, hwithin⟩
  cases htree
  exact hwithin

theorem yields_domTree (hs : s.Sound) {E : Violation → State → Prop} :
    Yields domTree s (fun tree t => Refreshes s t ∧ tree.Within t.method.graph.size) E := by
  refine yields_bind.mpr (yields_get.mpr ?_)
  cases htree : s.tree with
  | none => exact yields_rebuildTree hs
  | some t =>
    dsimp only
    split
    · exact yields_rebuildTree hs
    · exact yields_pure.mpr ⟨⟨hs, Or.inl rfl, rfl⟩, hs.tree_within t htree⟩

theorem Wires.of_refreshes {t : State} (hs : s.Sound) (h : Refreshes s t) : Wires s t where
  sound := h.sound
  graph := by
    have same := Graph.Extends.refl hs.method.wellFormed hs.method.clean_lt
    rcases h.graph with hg | hg
    · rw [hg]
      exact same
    · rw [hg]
      exact same.refreshAll
  handlers := by rw [h.method]
  registered := by rw [h.method]
  enter := by rw [h.method]
  region r := ⟨(s.method.region r).topSplitter, by rw [h.method]; rfl⟩

theorem steps_domTree (hs : s.Sound) :
    Steps V Wires domTree s fun tree t => tree.Within t.method.graph.size :=
  (yields_domTree hs).mono (fun _ _ ht => ⟨.of_refreshes hs ht.1, ht.2⟩) fun _ _ hv => hv

end Primitives

end Recovery

end TryRegions
