import TryRegions.Proofs.Recovery.Entry
import TryRegions.Proofs.Recovery.Grouping
import TryRegions.Proofs.Recovery.Wiring
import TryRegions.Recovery.Pass

/-! The whole recovery of a method. Between the blocks that stay, control flows as it did, whether
the recovery succeeds or stops at a violation; and where it succeeds, each handler that is left has
what it guards in one region. -/

namespace TryRegions

namespace Graph

variable {g g' : Graph}

theorem Extends.not_marked (h : g.Extends g') (hmarked : ∀ b, ¬g.Marked b) (b : BlockId) :
    ¬g'.Marked b := by
  rintro ⟨hlive, hremove⟩
  by_cases hb : b < g.size
  · refine hmarked b ⟨?_, ?_⟩
    · rwa [← h.isLive_eq hb]
    · rwa [remove_eq_role, h.role_kept b hb, ← remove_eq_role] at hremove
  · have hnew := h.role_new b (Nat.le_of_not_lt hb) (lt_of_isLive hlive)
    rw [remove_eq_role, hnew] at hremove
    cases hremove

/-- Detaching marked blocks changes nothing where none is marked. -/
theorem extends_detachMarked (wf : g.WellFormed) (hclean : ∀ a, ∀ b ∈ g.clean a, b < g.size)
    (hmarked : ∀ b, ¬g.Marked b) : g.Extends g.detachMarked := by
  have detached := detachMarked_detached wf
  have hrole : ∀ b, g.detachMarked.role b = g.role b := fun b => by
    rw [role, role, detached.core_kept b (hmarked b)]
  have hsuccs : ∀ a b, b ∈ g.detachMarked.succs a ↔ b ∈ g.succs a := fun a b => by
    rw [detached.mem_succs]
    exact ⟨And.left, fun h => ⟨h, hmarked a, hmarked b⟩⟩
  have hbetween : ∀ n, g.detachMarked.Between n = g.Between n := fun n => by
    funext w
    rw [Between, Between, isEntry_eq_role, isEntry_eq_role, hrole]
  constructor
  case wellFormed => exact detached.wellFormed
  case clean_lt =>
    intro a b hb
    rw [detached.size]
    exact hclean a b (detached.clean a hb)
  case size_le => exact Nat.le_of_eq detached.size.symm
  case role_kept => exact fun b _ => hrole b
  case role_new =>
    intro b hb hb'
    rw [detached.size] at hb'
    exact absurd hb' (Nat.not_lt.mpr hb)
  case leads =>
    intro n u v _ _ _ _
    unfold Leads
    rw [hbetween]
    simp only [hsuccs]

/-- Where every block after the first `n` is an entry, ways between the first ones are edges. -/
theorem leads_iff_mem_succs (wf : g.WellFormed) {n : Nat}
    (hentry : ∀ w, n ≤ w → w < g.size → g.isEntry w = true) (u v : BlockId) :
    g.Leads n u v ↔ v ∈ g.succs u := by
  constructor
  · intro hleads
    cases hleads with
    | edge h => exact h
    | via h hw _ =>
      have hmid := hentry _ hw.1 (wf.succs_lt _ _ h)
      rw [hw.2] at hmid
      cases hmid
  · exact fun h => Route.edge h

end Graph

namespace Recovery

open RecoverM

/-- Wiring that leaves the list of regions as it is. -/
structure Tidies (s t : State) : Prop extends Wires s t where
  regions : t.method.regions = s.method.regions

namespace Tidies

variable {s t u : State}

theorem refl (hs : s.Sound) : Tidies s s := ⟨.refl hs, rfl⟩

theorem trans (h : Tidies s t) (h' : Tidies t u) : Tidies s u :=
  ⟨h.toWires.trans h'.toWires, h'.regions.trans h.regions⟩

instance : IsTrans State Tidies := ⟨fun _ _ _ => trans⟩

theorem of_graph (hs : s.Sound) {g : Graph} (h : s.method.graph.Extends g) :
    Tidies s (s.withGraph g) :=
  ⟨.of_graph hs h, rfl⟩

end Tidies

section Finish

variable {s : State} {V : Violation → Prop}

theorem steps_dropExits (hs : s.Sound) {b : BlockId} (hb : b < s.method.graph.size) :
    Steps V Tidies (dropExits b) s fun _ _ => True := by
  obtain ⟨k, hk⟩ := Graph.exists_block hb
  refine (steps_block_bind hk).mpr (yields_bind.mpr (yields_forM_record _ _ fun log => ?_))
  have hext := (Graph.Extends.refl hs.method.wellFormed hs.method.clean_lt).modify b
    (fun k => { k with instrs := withoutExits k.instrs }) (fun _ => rfl) (fun _ => rfl)
    (fun _ => List.Subset.refl _) fun _ => rfl
  have htidies := Tidies.of_graph hs hext
  exact ⟨{ htidies with sound := ⟨htidies.sound.method, htidies.sound.tree_within⟩ }, trivial⟩

theorem steps_dropMonitorExits (hs : s.Sound) (h : HandlerId) :
    Steps V Tidies (dropMonitorExits h) s fun _ _ => True := by
  refine steps_method_bind.mpr (.forM (.refl hs) fun b hb t ht => ?_)
  exact steps_dropExits ht.sound (ht.lt (hs.method.body_lt h b hb))

/-- The end of a recovery changes no role of a block and no way between blocks. -/
theorem steps_finish (hs : s.Sound) (hmarked : ∀ b, ¬s.method.graph.Marked b)
    (regions : List RegionId) :
    Steps V Wires (finish regions) s fun _ t => t.method.regions = regions := by
  have hext := (Graph.Extends.refl hs.method.wellFormed hs.method.clean_lt).refreshAll
  have hwires := Wires.of_graph hs hext
  have hset : Wires s { s with method := { s.method with
      regions
      graph := s.method.graph.refreshAll } } :=
    { hwires with sound := ⟨{ hwires.sound.method with }, hwires.sound.tree_within⟩ }
  refine Steps.bind (Q := fun _ t => t.method.regions = regions) (.modify hset rfl)
    fun _ t ht hregions => steps_method_bind.mpr ?_
  have hdrop : Steps V Tidies (t.method.registered.forM dropMonitorExits) t fun _ _ => True :=
    .forM (.refl ht.sound) fun h _ u hu => steps_dropMonitorExits hu.sound h
  refine yields_bind.mpr (Yields.mono hdrop (fun _ u hu => ?_) fun _ _ hv => ⟨hv.1, hv.2.toWires⟩)
  have hnone : ∀ b, ¬u.method.graph.Marked b :=
    (ht.trans hu.1.toWires).graph.not_marked hmarked
  have hdetach := (Graph.extends_detachMarked hu.1.sound.method.wellFormed
    hu.1.sound.method.clean_lt hnone).refreshAll
  exact ⟨hu.1.toWires.trans (.of_graph hu.1.sound hdetach), hu.1.regions.trans hregions⟩

end Finish

end Recovery

/-- A method as it is built: blocks, edges and handlers, with nothing recovered yet. Each handler is
registered once, which is up to whoever builds the method: registering a handler a second time lists
it twice. -/
structure Method.Fresh (m : Method) : Prop where
  wellFormed : m.graph.WellFormed
  clean_lt : ∀ a, ∀ b ∈ m.graph.clean a, b < m.graph.size
  tmpEdge_lt : ∀ b p, m.graph.tmpEdge b = some p → p < m.graph.size
  enter_lt : ∀ e, m.enter = some e → e < m.graph.size
  entry : ∀ h, (m.handler h).entry = none
  body : ∀ h, (m.handler h).body = []
  registered_nodup : m.registered.Nodup
  registered_lt : ∀ h ∈ m.registered, h < m.handlers.size
  forest : m.forest = {}

/-- Handlers that were never made have nothing. -/
theorem Method.fresh_iff {m : Method} : m.Fresh ↔
    m.graph.WellFormed ∧ (∀ a < m.graph.size, ∀ b ∈ m.graph.clean a, b < m.graph.size) ∧
      (∀ b < m.graph.size, ∀ p ∈ (m.graph.tmpEdge b).toList, p < m.graph.size) ∧
      (∀ e ∈ m.enter.toList, e < m.graph.size) ∧
      (∀ h < m.handlers.size, (m.handler h).entry = none ∧ (m.handler h).body = []) ∧
      m.registered.Nodup ∧ (∀ h ∈ m.registered, h < m.handlers.size) ∧ m.forest = {} := by
  constructor
  · intro hm
    exact ⟨hm.wellFormed, fun a _ => hm.clean_lt a,
      fun b _ p hp => hm.tmpEdge_lt b p (Option.mem_toList.mp hp),
      fun e he => hm.enter_lt e (Option.mem_toList.mp he), fun h _ => ⟨hm.entry h, hm.body h⟩,
      hm.registered_nodup, hm.registered_lt, hm.forest⟩
  · rintro ⟨wf, hclean, htmp, henter, hhandlers, hnodup, hlt, hforest⟩
    have hhandler : ∀ h, (m.handler h).entry = none ∧ (m.handler h).body = [] := by
      intro h
      by_cases hh : h < m.handlers.size
      · exact hhandlers h hh
      · rw [Method.handler_of_size_le (Nat.le_of_not_lt hh)]
        exact ⟨rfl, rfl⟩
    have hblock : ∀ b, m.graph.size ≤ b → m.graph.block? b = none := fun b =>
      Graph.block?_eq_none.mpr
    refine ⟨wf, fun a b hb => hclean a (Graph.lt_of_mem_clean hb) b hb, fun b p hp => ?_,
      fun e he => henter e (Option.mem_toList.mpr he), fun h => (hhandler h).1,
      fun h => (hhandler h).2, hnodup, hlt, hforest⟩
    · by_cases hb : b < m.graph.size
      · exact htmp b hb p (Option.mem_toList.mpr hp)
      · rw [Graph.tmpEdge, hblock b (Nat.le_of_not_lt hb)] at hp
        cases hp

instance (m : Method) : Decidable m.Fresh := decidable_of_iff _ Method.fresh_iff.symm

/-- The edge from `u` to `v` stands in for an exceptional one: `v` is live, and the code of a
handler starts in it. -/
def Method.StandsIn (m : Method) (u v : BlockId) : Prop :=
  m.graph.isLive v = true ∧ (m.graph.marker v).isSome = true ∧ m.graph.tmpEdge v = some u

instance (m : Method) (u v : BlockId) : Decidable (m.StandsIn u v) :=
  inferInstanceAs (Decidable (_ ∧ _))

/-- Control goes from `u` to `v` without an exception. Edges that stand in do not count in a method
that has handlers. -/
def Method.NormalEdge (m : Method) (u v : BlockId) : Prop :=
  v ∈ m.graph.succs u ∧ ¬(m.registered ≠ [] ∧ m.StandsIn u v)

/-- Between blocks of the method that are live in `g`, control goes as it does in the method, over
blocks that `g` adds. -/
def Method.KeepsFlow (m : Method) (g : Graph) : Prop :=
  ∀ u v, u < m.graph.size → v < m.graph.size → g.isLive u = true → g.isLive v = true →
    g.isEntry v = false → (m.NormalEdge u v ↔ g.Leads m.graph.size u v)

namespace Block

theorem marker_promoteCoverage (k : Block) : k.promoteCoverage.marker = k.marker := by
  have hentry : ∀ i : Instr, i.dropIdleCoverage.entry = i.entry := fun i => by
    unfold Instr.dropIdleCoverage
    split <;> rfl
  have hmarker :
      ((k.instrs.map Instr.dropIdleCoverage).head?.bind fun i => i.entry) = k.marker := by
    rw [List.head?_map, Option.bind_map, marker]
    congr 1
    funext i
    exact hentry i
  unfold promoteCoverage
  dsimp only
  split <;> exact hmarker

/-- Coverage moves into the block's own set; edges, marks and what handlers it starts stay. -/
theorem promoteCoverage_kept (k : Block) :
    k.promoteCoverage.succs = k.succs ∧ k.promoteCoverage.preds = k.preds ∧
      k.promoteCoverage.clean = k.clean ∧ k.promoteCoverage.detached = k.detached ∧
      k.promoteCoverage.tmpEdge = k.tmpEdge := by
  unfold promoteCoverage
  dsimp only
  split <;> exact ⟨rfl, rfl, rfl, rfl, rfl⟩

end Block

namespace Graph

/-- The graph with clean edges computed anew and coverage moved from instructions to blocks. -/
def promoted (g : Graph) : Graph := g.refreshAll.mapLive Block.promoteCoverage

theorem sameFlow_promoted (g : Graph) : g.SameFlow g.promoted := by
  refine (SameFlow.refreshAll g).trans (.foldl _ (fun g b => ?_) _ _)
  exact .modify g b _ (fun k => k.promoteCoverage_kept.1) (fun k => k.promoteCoverage_kept.2.1)
    fun k => k.promoteCoverage_kept.2.2.2.1

theorem marks_promoted (g : Graph) (b : BlockId) : g.promoted.marks b = g.marks b := by
  refine (map_block?_mapLive (fun k => (k.marker, k.tmpEdge)) g.refreshAll b _ fun k => ?_).trans
    (map_block?_refreshAll (fun k => (k.marker, k.tmpEdge)) (fun _ _ => rfl) g b)
  rw [k.marker_promoteCoverage, k.promoteCoverage_kept.2.2.2.2]

theorem remove_promoted (g : Graph) (b : BlockId) :
    (g.promoted.flags b).remove = (g.flags b).remove := by
  have hkept : ∀ k : Block, k.promoteCoverage.flags.remove = k.flags.remove := by
    intro k
    unfold Block.promoteCoverage
    dsimp only
    split <;> rfl
  have hview : ∀ g : Graph, (g.flags b).remove =
      ((g.block? b).map fun k => k.flags.remove).any id := by
    intro g
    rw [flags]
    cases g.block? b <;> rfl
  rw [hview, hview, promoted, map_block?_mapLive (fun k => k.flags.remove) _ b _ hkept,
    map_block?_refreshAll (fun k => k.flags.remove) fun _ _ => rfl]

theorem isSplitter_promoted (g : Graph) (b : BlockId) :
    g.promoted.IsSplitter b ↔ g.IsSplitter b := by
  have hkept : ∀ k : Block,
      (k.promoteCoverage.flags.topSplitter, k.promoteCoverage.flags.bottomSplitter) =
        (k.flags.topSplitter, k.flags.bottomSplitter) := by
    intro k
    unfold Block.promoteCoverage
    dsimp only
    split <;> rfl
  apply isSplitter_iff_of_map
  rw [promoted, map_block?_mapLive _ _ b _ hkept, map_block?_refreshAll _ fun _ _ => rfl]

theorem clean_promoted (g : Graph) (b : BlockId) : g.promoted.clean b = g.refreshAll.clean b := by
  have hsame := map_block?_mapLive Block.clean g.refreshAll b Block.promoteCoverage fun k =>
    k.promoteCoverage_kept.2.2.1
  have helim := congrArg (fun o => o.getD []) hsame
  rw [clean, clean, promoted]
  generalize (g.refreshAll.mapLive Block.promoteCoverage).block? b = o at helim ⊢
  generalize g.refreshAll.block? b = o' at helim ⊢
  cases o <;> cases o' <;> exact helim

end Graph

namespace Method

variable {m : Method}

theorem Fresh.sound_promoted (hm : m.Fresh) :
    ({ m with graph := m.graph.promoted } : Method).Sound := by
  have hregion : ∀ r, m.region r = default := fun r => by
    rw [region, hm.forest]
    rfl
  have same := m.graph.sameFlow_promoted
  constructor
  case wellFormed => exact same.wellFormed hm.wellFormed
  case clean_lt =>
    intro a b hb
    have hext := (Graph.Extends.refl hm.wellFormed hm.clean_lt).refreshAll
    have hsize := (Graph.SameFlow.refreshAll m.graph).size
    rw [Graph.clean_promoted] at hb
    rw [same.size, ← hsize]
    exact hext.clean_lt a b hb
  case enter_lt =>
    intro e he
    rw [same.size]
    exact hm.enter_lt e he
  case isEntry =>
    intro h e he
    have hold : (m.handler h).entry = some e := he
    rw [hm.entry] at hold
    cases hold
  case body_lt =>
    intro h b hb
    have hold : b ∈ (m.handler h).body := hb
    rw [hm.body] at hold
    cases hold
  case blocks_lt =>
    intro r b hb
    have hold : b ∈ (m.region r).blocks := hb
    rw [hregion] at hold
    cases hold
  case hasEntry =>
    intro r h hh
    have hold : h ∈ (m.region r).handlers := hh
    rw [hregion] at hold
    cases hold

theorem Fresh.tmpEdge_promoted (hm : m.Fresh) (b p : BlockId)
    (hp : m.graph.promoted.tmpEdge b = some p) : p < m.graph.promoted.size := by
  rw [Graph.tmpEdge_eq_marks, m.graph.marks_promoted, ← Graph.tmpEdge_eq_marks] at hp
  rw [m.graph.sameFlow_promoted.size]
  exact hm.tmpEdge_lt b p hp

/-- A method without handlers, whose graph stays. -/
theorem keepsFlow_self (wf : m.graph.WellFormed) (hnone : m.registered = []) :
    m.KeepsFlow m.graph := by
  intro u v _ _ _ _ _
  rw [Graph.leads_iff_mem_succs wf fun w hw hw' => absurd hw' (Nat.not_lt.mpr hw), NormalEdge]
  simp [hnone]

/-- Entries are set up, blocks are taken away, and ways are extended: what is left of the normal
edges is what they were. -/
theorem keepsFlow_of_phases (hsome : m.registered ≠ []) {g₃ g₄ g₅ : Graph} {done : BlockId → Prop}
    (ready : m.graph.promoted.Readied done (fun u v => v ∈ m.graph.promoted.live ∧
      (m.graph.promoted.marker v).isSome = true ∧ m.graph.promoted.tmpEdge v = some u) g₃)
    (wf : m.graph.WellFormed) (trim : g₃.Trimmed g₄) (ext : g₄.Extends g₅) : m.KeepsFlow g₅ := by
  have same := m.graph.sameFlow_promoted
  have hmarks := m.graph.marks_promoted
  have hsize : m.graph.size ≤ g₄.size := by
    rw [trim.size, ← same.size]
    exact ready.size_le
  intro u v hu hv hulive hvlive hentry
  rw [ext.isLive_eq (Nat.lt_of_lt_of_le hu hsize)] at hulive
  rw [ext.isLive_eq (Nat.lt_of_lt_of_le hv hsize)] at hvlive
  rw [ext.isEntry_eq (Nat.lt_of_lt_of_le hv hsize)] at hentry
  have hcreated : ∀ w, m.graph.size ≤ w → w < g₄.size → g₄.isEntry w = true := by
    intro w hw hw'
    rw [trim.isEntry]
    rw [trim.size] at hw'
    exact (ready.created w (by rwa [same.size]) hw').1
  rw [ext.leads _ u v hsize hu hv hentry, Graph.leads_iff_mem_succs trim.wellFormed hcreated,
    trim.edges u v hulive hvlive (by rwa [← trim.isEntry]),
    ready.edges u v (by rwa [same.size]) (by rwa [same.size]), same.succs,
    (same.wellFormed wf).mem_live, same.isLive, Graph.marker_eq_marks, Graph.tmpEdge_eq_marks,
    hmarks, ← Graph.marker_eq_marks, ← Graph.tmpEdge_eq_marks, NormalEdge, StandsIn]
  simp [hsome]

end Method

namespace Recovery

open RecoverM

theorem Wires.protected {s t : State} (h : Wires s t) {regions : List RegionId} {x : HandlerId}
    (hx : s.method.Protected regions x) : t.method.Protected regions x := by
  refine hx.mono (fun b hb => ?_) (fun r y => ?_) (fun r => ?_) (by rw [h.handler])
  · obtain ⟨hlive, hcovered, hbody⟩ := hb
    by_cases hb : b < s.method.graph.size
    · refine ⟨by rwa [← h.graph.isLive_eq hb], ?_, by rwa [← h.handler]⟩
      rwa [coverage_eq, Graph.catches_eq_role, h.graph.role_kept b hb, ← Graph.catches_eq_role]
        at hcovered
    · have hnew := h.graph.role_new b (Nat.le_of_not_lt hb) (Graph.lt_of_isLive hlive)
      rw [coverage_eq, Graph.catches_eq_role, hnew] at hcovered
      cases hcovered
  · obtain ⟨top, htop⟩ := h.region r
    rw [htop]
  · obtain ⟨top, htop⟩ := h.region r
    rw [htop]

/-- The phases of a recovery, whatever follows them. -/
theorem yields_phases (c : Config) {m : Method} (hm : m.Fresh) (hsome : m.registered ≠ [])
    {log : List LogEntry} {after : RecoverM Bool} {Q : Bool → State → Prop}
    (hafter : ∀ t, m.KeepsFlow t.method.graph →
      (∀ h ∈ t.method.registered, t.method.Protected t.method.regions h) →
      Yields after t Q fun v t => v.Known m.enter ∧ m.KeepsFlow t.method.graph) :
    Yields (do
        modifyGraph Graph.refreshAll
        promoteCoverage
        setUpEntries
        let regions ← group c.types
        wire c.limitFactor regions
        finish regions
        after) { method := m, log } Q fun v t => v.Known m.enter ∧ m.KeepsFlow t.method.graph := by
  let s : State := { method := { m with graph := m.graph.promoted }, log }
  have hs : s.Sound := ⟨hm.sound_promoted, nofun⟩
  refine yields_bind.mpr (yields_modifyGraph.mpr (yields_bind.mpr (yields_modifyGraph.mpr ?_)))
  refine yields_bind.mpr ((yields_setUpEntries (s := s) hs hm.tmpEdge_promoted).mono
    (fun _ t₃ ready => ?_) fun _ _ hv => hv)
  refine yields_bind.mpr ((yields_group c.types ready.sound
    (by rw [ready.registered]; exact hm.registered_nodup) ?_).mono (fun regions t₄ grouped => ?_)
      fun _ _ hv => hv)
  · rw [ready.registered, ready.handlers_size]
    exact hm.registered_lt
  have hkeeps : ∀ t, Wires t₄ t → m.KeepsFlow t.method.graph := fun t ht =>
    Method.keepsFlow_of_phases hsome ready.graph hm.wellFormed grouped.graph ht.graph
  have hknown : ∀ v : Violation, v.Known t₄.method.enter → v.Known m.enter := fun v hv => by
    rwa [grouped.enter, ready.enter] at hv
  refine yields_bind.mpr (Yields.mono (steps_wire (V := fun v => v.Known m.enter) grouped.sound
    hknown c.limitFactor regions) (fun _ t₅ h₅ => ?_) fun _ t hv => ⟨hv.1, hkeeps t hv.2⟩)
  have hunmarked := h₅.1.graph.not_marked grouped.unmarked
  refine yields_bind.mpr (Yields.mono (steps_finish (V := fun v => v.Known m.enter) h₅.1.sound
    hunmarked regions) (fun _ t₆ h₆ => ?_) fun _ t hv => ⟨hv.1, hkeeps t (h₅.1.trans hv.2)⟩)
  have hwires := h₅.1.trans h₆.1
  refine hafter t₆ (hkeeps t₆ hwires) fun h hh => ?_
  rw [hwires.registered] at hh
  rw [h₆.2]
  exact hwires.protected (grouped.protects h hh)

/-- The recovery stops at known violations only. -/
theorem yields_recover_known (c : Config) {m : Method} (hm : m.Fresh) :
    Yields (recover c) { method := m }
      (fun _ t => m.KeepsFlow t.method.graph ∧
        ∀ h ∈ t.method.registered, t.method.Protected t.method.regions h)
      fun v t => v.Known m.enter ∧ m.KeepsFlow t.method.graph := by
  refine yields_bind.mpr (yields_method.mpr ?_)
  dsimp only
  split
  · rename_i hempty
    have hnone : m.registered = [] := List.isEmpty_iff.mp hempty
    refine yields_pure.mpr ⟨m.keepsFlow_self hm.wellFormed hnone, fun h hh => ?_⟩
    have hold : h ∈ m.registered := hh
    rw [hnone] at hold
    cases hold
  · rename_i hempty
    have hsome : m.registered ≠ [] := fun hnone => hempty (List.isEmpty_iff.mpr hnone)
    -- What is logged at the end changes nothing of the method.
    split
    · refine yields_bind.mpr (yields_modify.mpr ?_)
      exact yields_phases c hm hsome fun t hkeeps hprotected => ⟨hkeeps, hprotected⟩
    · exact yields_phases c hm hsome fun t hkeeps hprotected => ⟨hkeeps, hprotected⟩

/-- The recovery keeps the flow of the method, also where it stops at a violation. -/
theorem yields_recover (c : Config) {m : Method} (hm : m.Fresh) :
    Yields (recover c) { method := m }
      (fun _ t => m.KeepsFlow t.method.graph ∧
        ∀ h ∈ t.method.registered, t.method.Protected t.method.regions h)
      fun _ t => m.KeepsFlow t.method.graph :=
  (yields_recover_known c hm).mono (fun _ _ h => h) fun _ _ hv => hv.2

/-- A recovery that is run on a fresh method ends, and control goes between the blocks that are left
as it did, over blocks that are new and no entries. -/
theorem process_keepsFlow (c : Config) {m : Method} (hm : m.Fresh) :
    (∀ f, (process c m).result ≠ .error (.fault f)) ∧
      ∀ u v, u < m.graph.size → v < m.graph.size →
        (process c m).method.graph.isLive u = true → (process c m).method.graph.isLive v = true →
        (process c m).method.graph.isEntry v = false →
        (m.NormalEdge u v ↔ (process c m).method.graph.Leads m.graph.size u v) := by
  have h := yields_recover c hm
  unfold Yields at h
  unfold process
  generalize exec (recover c) { method := m } = outcome at h ⊢
  obtain ⟨(f | v) | b, t⟩ := outcome
  · exact h.elim
  · exact ⟨nofun, h⟩
  · exact ⟨nofun, h.1⟩

/-- A covered block that goes to itself, to the end and, by a stand-in edge, to its handler. -/
def looped : Method where
  name := "m"
  graph :=
    { blocks := #[
        { offset := 0, succs := [1] },
        { offset := 2, instrs := [{ opcode := .invoke, offset := 2, catches := some ⟨[0]⟩ }],
          preds := [0, 1], succs := [1, 2, 3] },
        { offset := 4, preds := [1, 3] },
        { offset := 6, instrs := [{ opcode := .moveException, offset := 6, entry := some 0 }],
          preds := [1], succs := [2], tmpEdge := some 1 }]
      live := [0, 1, 2, 3] }
  enter := some 0
  handlers := #[{ number := 0, offset := 6, types := ["E"] }]
  registered := [0]

/-- The block still goes to itself, over the block in front of its region. -/
theorem process_keepsFlow_looped :
    looped.Fresh ∧ 1 ∉ (process {} looped).method.graph.succs 1 ∧
      (process {} looped).method.graph.Leads 4 1 1 := by
  have hm : looped.Fresh := by decide +kernel
  refine ⟨hm, by decide +kernel, ?_⟩
  refine ((process_keepsFlow {} hm).2 1 1 ?_ ?_ ?_ ?_ ?_).mp ⟨?_, fun h => ?_⟩
  · decide +kernel
  · decide +kernel
  · decide +kernel
  · decide +kernel
  · decide +kernel
  · decide +kernel
  · exact absurd h.2.2.1 (by decide +kernel)

/-- A mark for a handler that is not registered, in a method that has no handlers. -/
def loneMark : Method where
  name := "m"
  graph :=
    { blocks := #[
        { offset := 0, succs := [1] },
        { offset := 2, instrs := [{ opcode := .moveException, offset := 2, entry := some 0 }],
          preds := [0], tmpEdge := some 0 }]
      live := [0, 1] }
  enter := some 0
  handlers := #[{ offset := 2 }]

/-- Without handlers the edge that stands in stays. -/
theorem process_keeps_standIn :
    loneMark.Fresh ∧ loneMark.StandsIn 0 1 ∧
      (process {} loneMark).method.graph.isLive 0 = true ∧
      (process {} loneMark).method.graph.isLive 1 = true ∧
      (process {} loneMark).method.graph.isEntry 1 = false ∧
      ¬(1 ∈ loneMark.graph.succs 0 ∧ ¬loneMark.StandsIn 0 1 ↔
        (process {} loneMark).method.graph.Leads 2 0 1) := by
  have hstands : loneMark.StandsIn 0 1 := by decide +kernel
  refine ⟨by decide +kernel, hstands, by decide +kernel, by decide +kernel, by decide +kernel,
    fun h => ?_⟩
  exact (h.mpr (Route.edge (by decide +kernel))).2 hstands

/-- Where a recovery succeeds, each handler that is left has what it guards in one region, unless it
catches everything or guards nothing. -/
theorem process_protects (c : Config) {m : Method} (hm : m.Fresh) {handled : Bool}
    (hok : (process c m).result = .ok handled) :
    ∀ h ∈ (process c m).method.registered,
      (process c m).method.Protected (process c m).method.regions h := by
  have h := yields_recover c hm
  unfold Yields at h
  unfold process at hok ⊢
  generalize exec (recover c) { method := m } = outcome at h hok ⊢
  obtain ⟨(f | v) | b, t⟩ := outcome
  · exact h.elim
  · cases hok
  · exact h.2

theorem process_protects_looped :
    looped.Fresh ∧ (process {} looped).result = .ok true ∧
      (process {} looped).method.registered = [0] ∧
      (process {} looped).method.Protected (process {} looped).method.regions 0 := by
  have hm : looped.Fresh := by decide +kernel
  have hok : (process {} looped).result = .ok true := by decide +kernel
  have hregistered : (process {} looped).method.registered = [0] := by decide +kernel
  refine ⟨hm, hok, hregistered, process_protects {} hm hok 0 ?_⟩
  rw [hregistered]
  exact List.mem_cons_self

end Recovery

end TryRegions
