import TryRegions.Proofs.Recovery.Edits
import TryRegions.Proofs.Recovery.Waiting

/-! When a dominator tree may be used again. Whatever changes an edge or the live blocks raises the
version of the graph, so a tree whose version is that of the graph is the tree that would be made
now. A computation that asks for a tree gets the tree of the graph as it is, however often the graph
was changed and a tree was asked for before. -/

open Relation

namespace TryRegions

theorem DomTree.isStale_eq_false {tree : DomTree} {g : Graph} :
    tree.isStale g = false ↔ g.version = tree.version := by
  unfold DomTree.isStale
  rw [decide_eq_false_iff_not, not_not]

/-- Counters that wrap around tell versions apart that are less than one turn away. -/
theorem toUInt64_eq_iff {m n : Nat} (hle : m ≤ n) (hlt : n < m + UInt64.size) :
    n.toUInt64 = m.toUInt64 ↔ n = m := by
  refine ⟨fun h => ?_, congrArg Nat.toUInt64⟩
  have hmod : n % UInt64.size = m % UInt64.size := congrArg UInt64.toNat h
  have hsub : (n - m) % UInt64.size = 0 := Nat.sub_mod_eq_zero_of_mod_eq hmod
  rw [Nat.mod_eq_of_lt (by omega)] at hsub
  omega

namespace Graph

variable {g g' : Graph} {enter : Option BlockId} {tree : DomTree}

/-- An edit, or the turning of an edge that may be missing. -/
inductive Change : Graph → Graph → Prop where
  | edit {g g' : Graph} (h : Edit g g') : Change g g'
  | reconnect {g g' : Graph} {a old new : BlockId} (h : g.reconnect a old new = .ok g') :
      Change g g'

theorem Change.version (h : Change g g') : g.Annotated g' ∨ g.version < g'.version := by
  cases h with
  | edit h => exact h.version
  | reconnect h =>
    obtain ⟨-, rfl⟩ := reconnect_eq_ok.mp h
    exact Or.inr (Nat.lt_succ_self _)

theorem version_of_changes (h : ReflTransGen Change g g') :
    g.Annotated g' ∨ g.version < g'.version :=
  version_of_steps (fun _ _ => Change.version) h

theorem version_le_of_changes (h : ReflTransGen Change g g') : g.version ≤ g'.version := by
  rcases version_of_changes h with hsame | hlt
  · exact Nat.le_of_eq hsame.version.symm
  · exact Nat.le_of_lt hlt

/-- Between a graph and one for which its tree is not out of date, no edge changed. -/
theorem annotated_of_isStale (hbuild : DomTree.build g enter = .ok tree)
    (h : ReflTransGen Change g g') (hstale : tree.isStale g' = false) : g.Annotated g' := by
  have hversion := DomTree.isStale_eq_false.mp hstale
  rw [DomTree.eq_ofGraph_of_build hbuild] at hversion
  rcases version_of_changes h with hsame | hlt
  · exact hsame
  · exact absurd hversion (Nat.ne_of_gt hlt)

end Graph

namespace Recovery

open RecoverM TryRegions.Graph

variable {s t u : State}

/-- The tree that the state holds was made of a graph from which changes lead to the present one. -/
def State.Dated (s : State) : Prop :=
  ∀ tree, s.tree = some tree → ∃ g, DomTree.build g s.method.enter = .ok tree ∧
    ReflTransGen Change g s.method.graph

/-- A step of a computation that uses the tree: it changes the graph and whatever else, but not
where the method begins nor the tree at hand, or it asks for a tree. -/
inductive Proceeds : State → State → Prop where
  | change {s t : State} (graph : Change s.method.graph t.method.graph)
      (enter : t.method.enter = s.method.enter) (tree : t.tree = s.tree) : Proceeds s t
  | ask {s : State} : Proceeds s (exec domTree s).2

namespace State.Dated

theorem build (hs : s.Dated) {tree : DomTree} (htree : s.tree = some tree)
    (hstale : tree.isStale s.method.graph = false) :
    DomTree.build s.method.graph s.method.enter = .ok tree := by
  obtain ⟨g, hbuild, hchanges⟩ := hs tree htree
  rw [(annotated_of_isStale hbuild hchanges hstale).build, hbuild]

theorem change (hs : s.Dated) (hgraph : Change s.method.graph t.method.graph)
    (henter : t.method.enter = s.method.enter) (htree : t.tree = s.tree) : t.Dated := by
  intro tree h
  obtain ⟨g, hbuild, hchanges⟩ := hs tree (htree ▸ h)
  exact ⟨g, henter ▸ hbuild, hchanges.tail hgraph⟩

theorem refreshAll (hs : s.Dated) : (s.withGraph s.method.graph.refreshAll).Dated :=
  hs.change (.edit (.cut (.annotate (.refreshAll _)))) rfl rfl

theorem ask (hs : s.Dated) : (exec domTree s).2.Dated := by
  rcases exec_domTree_cases s with ⟨tree, -, -, hexec⟩ | ⟨-, hexec⟩
  · rw [hexec]
    exact hs
  · rw [hexec, exec_rebuildTree]
    cases hbuild : DomTree.build s.method.graph s.method.enter with
    | error f => exact hs.refreshAll
    | ok tree =>
      rintro _ ⟨⟩
      exact ⟨s.method.graph, hbuild, .single (.edit (.cut (.annotate (.refreshAll _))))⟩

theorem step (hs : s.Dated) (h : Proceeds s t) : t.Dated := by
  cases h with
  | change hgraph henter htree => exact hs.change hgraph henter htree
  | ask => exact hs.ask

theorem run (hs : s.Dated) (h : ReflTransGen Proceeds s t) : t.Dated := by
  induction h with
  | refl => exact hs
  | tail _ hstep ih => exact ih.step hstep

theorem current (hs : s.Dated) : s.Current := by
  intro tree htree
  obtain ⟨g, hbuild, hchanges⟩ := hs tree htree
  refine ⟨?_, fun hversion => ?_⟩
  · rw [DomTree.eq_ofGraph_of_build hbuild]
    exact version_le_of_changes hchanges
  · exact DomTree.eq_ofGraph_of_build
      (hs.build htree (DomTree.isStale_eq_false.mpr hversion.symm))

end State.Dated

/-- Asked for a tree, a computation in this state gets the one that would be made of the graph as it
is, and afterwards holds it, with a graph in which at most clean edges are others. -/
structure State.Answers (s : State) : Prop where
  tree : (exec domTree s).1 =
    (DomTree.build s.method.graph s.method.enter).mapError Stop.fault
  graph : s.method.graph.Annotated (exec domTree s).2.method.graph
  enter : (exec domTree s).2.method.enter = s.method.enter
  kept : ∀ tree, (exec domTree s).1 = .ok tree → (exec domTree s).2.tree = some tree ∧
    tree.isStale (exec domTree s).2.method.graph = false

namespace State.Answers

/-- All that matters is that a tree that is taken for up to date is up to date. -/
theorem of_build (h : ∀ tree, s.tree = some tree → tree.isStale s.method.graph = false →
    DomTree.build s.method.graph s.method.enter = .ok tree) : s.Answers := by
  rcases exec_domTree_cases s with ⟨tree, htree, hstale, hexec⟩ | ⟨-, hexec⟩
  · refine ⟨?_, ?_, ?_, ?_⟩
    · rw [hexec, h tree htree hstale]
      rfl
    · rw [hexec]
      exact .refl _
    · rw [hexec]
    · rw [hexec]
      rintro _ ⟨⟩
      exact ⟨htree, hstale⟩
  · rw [exec_rebuildTree] at hexec
    have hmethod : (exec domTree s).2.method =
        { s.method with graph := s.method.graph.refreshAll } := by
      rw [hexec, withLookup_method]
      rfl
    refine ⟨by rw [hexec, withLookup_fst], ?_, by rw [hmethod], ?_⟩
    · rw [hmethod]
      exact .refreshAll _
    · rw [hmethod, hexec]
      cases hbuild : DomTree.build s.method.graph s.method.enter with
      | error f => nofun
      | ok tree =>
        rintro _ ⟨⟩
        refine ⟨rfl, DomTree.isStale_eq_false.mpr ?_⟩
        rw [DomTree.eq_ofGraph_of_build hbuild]
        exact (Annotated.refreshAll _).version

theorem of_dated (hs : s.Dated) : s.Answers := of_build fun _ => hs.build

theorem of_current (hs : s.Current) (wf : s.method.graph.WellFormed) : s.Answers := by
  refine of_build fun tree htree hstale => ?_
  rw [(hs tree htree).2 (DomTree.isStale_eq_false.mp hstale).symm]
  exact Dominance.build_eq wf s.method.enter

theorem exists_tree (hs : s.Answers) (wf : s.method.graph.WellFormed) :
    ∃ tree, (exec domTree s).1 = .ok tree := by
  refine ⟨DomTree.ofGraph s.method.graph s.method.enter, ?_⟩
  rw [hs.tree, Dominance.build_eq wf]
  rfl

end State.Answers

/-- Where a recovery ends without a fault, the tree that it leaves is that of the graph that it
leaves, or known to be out of date. -/
theorem answers_recover (c : Config) (hs : s.Dated) (wf : s.method.graph.WellFormed)
    (hexit : ∀ f, (exec (recover c) s).1 ≠ .error (.fault f)) :
    (exec (recover c) s).2.Answers := by
  have htraced : Traced Edit s (exec (recover c) s).2 := by
    have hmoves := traced_recover c wf
    unfold Moves at hmoves
    generalize exec (recover c) s = r at hmoves hexit ⊢
    obtain ⟨(f | v) | a, t⟩ := r
    · exact absurd rfl (hexit f)
    · exact hmoves
    · exact hmoves.1
  exact .of_current (htraced.current hs.current) (wellFormed_of_edits htraced.graph wf)

/-- A tree that is not out of date is the tree of the graph as it is: no change since it was made
touched an edge or the live blocks. To compare versions on a counter that wraps around comes to the
same as long as it has not gone all the way round. So whoever asks for a tree gets the tree of the
graph as it is, after any changes and other questions, and also after a whole recovery. -/
theorem domTree_current :
    (∀ (g g' : Graph) (enter : Option BlockId) (tree : DomTree),
      DomTree.build g enter = .ok tree → ReflTransGen Change g g' →
        (tree.isStale g' = false → g.SameFlow g' ∧ DomTree.build g' enter = .ok tree) ∧
        (g'.version < g.version + UInt64.size →
          (tree.isStale g' = false ↔ g'.version.toUInt64 = tree.version.toUInt64))) ∧
    (∀ s u : State, s.Dated → ReflTransGen Proceeds s u →
      u.Answers ∧ (u.method.graph.WellFormed → ∃ tree, (exec domTree u).1 = .ok tree)) ∧
    ∀ (c : Config) (s : State), s.Dated → s.method.graph.WellFormed →
      (∀ f, (exec (recover c) s).1 ≠ .error (.fault f)) → (exec (recover c) s).2.Answers := by
  refine ⟨fun g g' enter tree hbuild hchanges => ⟨fun hstale => ?_, fun hturn => ?_⟩,
    fun s u hs hrun => ?_, fun c s => answers_recover c⟩
  · have hsame := annotated_of_isStale hbuild hchanges hstale
    exact ⟨hsame.toSameFlow, by rw [hsame.build, hbuild]⟩
  · rw [DomTree.isStale_eq_false, DomTree.eq_ofGraph_of_build hbuild]
    exact (toUInt64_eq_iff (version_le_of_changes hchanges) hturn).symm
  · have hu : u.Answers := .of_dated (hs.run hrun)
    exact ⟨hu, hu.exists_tree⟩

/-- Two ways lead from block 0 to block 3. -/
def forked : Method where
  name := "m"
  graph := [(0, 1), (0, 2), (1, 3), (2, 3)].foldl (fun g e => g.addEdge e.1 e.2)
    ([0, 2, 4, 6].foldl Graph.newBlock {})
  enter := some 0

/-- A tree was asked for, and then one of the two ways was taken away. -/
def forkedCut : State :=
  let asked := (exec domTree { method := forked }).2
  asked.withGraph (asked.method.graph.removeEdge 2 3)

/-- To detach marked blocks where there are none leaves the tree up to date. Once one way is taken
away it is out of date, and the next question is answered with another one. -/
theorem domTree_current_forked :
    (DomTree.ofGraph forked.graph (some 0)).isStale forked.graph.detachMarked.refreshAll = false ∧
      DomTree.build forked.graph.detachMarked.refreshAll (some 0) =
        .ok (DomTree.ofGraph forked.graph (some 0)) ∧
      forkedCut.tree = some (DomTree.ofGraph forked.graph (some 0)) ∧
      (DomTree.ofGraph forked.graph (some 0)).parent? 3 = some 0 ∧
      forkedCut.Answers ∧
      (exec domTree forkedCut).1.map (fun tree => tree.parent? 3) = .ok (some 1) ∧
      (exec (recover {}) { method := builtMethod }).1 = .ok true ∧
      (exec (recover {}) { method := builtMethod }).2.Answers := by
  have hstale : (DomTree.ofGraph forked.graph (some 0)).isStale
      forked.graph.detachMarked.refreshAll = false := by decide +kernel
  have hchanges : ReflTransGen Change forked.graph forked.graph.detachMarked.refreshAll :=
    .tail (.single (.edit (.cut .detachMarked))) (.edit (.cut (.annotate (.refreshAll _))))
  have hdated : State.Dated { method := forked } := nofun
  have hrun : ReflTransGen Proceeds { method := forked } forkedCut := by
    have hcut : (exec domTree { method := forked }).2.method.graph.disconnect 2 3 =
        .ok forkedCut.method.graph := disconnect_eq_ok.mpr ⟨by decide +kernel, rfl⟩
    exact .tail (.single .ask) (.change (.edit (.cut (.disconnect hcut))) rfl rfl)
  obtain ⟨hfresh, hsession, hrecovery⟩ := domTree_current
  have hok : (exec (recover {}) { method := builtMethod }).1 = .ok true := by decide +kernel
  refine ⟨hstale, ((hfresh _ _ _ _ (by decide +kernel) hchanges).1 hstale).2, by decide +kernel,
    by decide +kernel, (hsession _ _ hdated hrun).1, by decide +kernel, hok, ?_⟩
  refine hrecovery {} _ nofun (by decide +kernel) fun f hf => ?_
  cases hok.symm.trans hf

end Recovery

end TryRegions
