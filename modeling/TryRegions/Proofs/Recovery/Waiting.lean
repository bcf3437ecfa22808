import TryRegions.Proofs.Graph.Live
import TryRegions.Proofs.Recovery.Trace
import TryRegions.Recovery.Wiring

/-! When a region has to wait. Whether it does is found out without a change that could be seen: at
most clean edges are computed anew and a dominator tree is kept for later. So an attempt that puts a
region off leaves every region as ready as it was. -/

namespace TryRegions.Recovery

open RecoverM TryRegions.Graph

variable {α β : Type} {s t u : State}

section Alike

/-- The dominator tree that a computation gets: the one at hand, or one that is made if there is
none or it is out of date. -/
def State.lookup (s : State) : Except Fault DomTree :=
  match s.tree with
  | some tree =>
    if tree.isStale s.method.graph then DomTree.build s.method.graph s.method.enter else .ok tree
  | none => DomTree.build s.method.graph s.method.enter

/-- The states have the same method, with clean edges up to date, and the same tree to look up. -/
structure Alike (s t : State) : Prop where
  refreshed : s.method.graph.refreshAll = s.method.graph
  method : t.method = s.method
  lookup : t.lookup = s.lookup

namespace Alike

theorem refl (h : s.method.graph.refreshAll = s.method.graph) : Alike s s := ⟨h, rfl, rfl⟩

theorem symm (h : Alike s t) : Alike t s :=
  ⟨by rw [h.method, h.refreshed], h.method.symm, h.lookup.symm⟩

theorem trans (h : Alike s t) (h' : Alike t u) : Alike s u :=
  ⟨h.refreshed, h'.method.trans h.method, h'.lookup.trans h.lookup⟩

/-- To keep the tree that was looked up changes nothing. -/
theorem keepTree (h : s.method.graph.refreshAll = s.method.graph) {tree : DomTree}
    (htree : s.lookup = .ok tree) : Alike s { s with tree := some tree } := by
  have hfresh : tree.isStale s.method.graph = false := by
    have hmade : DomTree.build s.method.graph s.method.enter = .ok tree →
        tree.isStale s.method.graph = false := by
      intro hbuild
      rw [DomTree.eq_ofGraph_of_build hbuild]
      exact decide_eq_false fun h => h rfl
    unfold State.lookup at htree
    split at htree
    · split at htree
      · exact hmade htree
      · rename_i hstale
        cases htree
        exact Bool.eq_false_iff.mpr hstale
    · exact hmade htree
  refine ⟨h, rfl, ?_⟩
  rw [htree]
  exact if_neg (Bool.eq_false_iff.mp hfresh)

end Alike

/-- Run from states that are alike, the computation has one result, and it reaches a state that is
like them. -/
def Steady (x : RecoverM α) : Prop :=
  ∀ s t, Alike s t → (exec x t).1 = (exec x s).1 ∧ Alike s (exec x s).2

namespace Steady

theorem of_read {x : RecoverM α} (hstate : ∀ s, (exec x s).2 = s)
    (hresult : ∀ s t, Alike s t → (exec x t).1 = (exec x s).1) : Steady x := by
  intro s t h
  rw [hstate]
  exact ⟨hresult s t h, .refl h.refreshed⟩

theorem pure (a : α) : Steady (Pure.pure a : RecoverM α) := .of_read (fun _ => rfl) fun _ _ _ => rfl

theorem throw (e : Stop) : Steady (MonadExcept.throw e : RecoverM α) :=
  .of_read (fun _ => rfl) fun _ _ _ => rfl

theorem bind {x : RecoverM α} {f : α → RecoverM β} (hx : Steady x) (hf : ∀ a, Steady (f a)) :
    Steady (x >>= f) := by
  intro s t h
  obtain ⟨hresult, hs⟩ := hx s t h
  have ht := (hx t t (.refl h.symm.refreshed)).2
  rw [exec_bind, exec_bind]
  generalize exec x s = r at hresult hs ⊢
  generalize exec x t = r' at hresult ht ⊢
  obtain ⟨e | a, u⟩ := r
  · obtain ⟨e' | a', u'⟩ := r'
    · cases hresult
      exact ⟨rfl, hs⟩
    · cases hresult
  · obtain ⟨e' | a', u'⟩ := r'
    · cases hresult
    · cases hresult
      obtain ⟨hresult, hu⟩ := hf a u u' ((hs.symm.trans h).trans ht)
      exact ⟨hresult, hs.trans hu⟩

end Steady

theorem steady_method : Steady RecoverM.method :=
  .of_read (fun _ => rfl) fun _ _ h => congrArg Except.ok h.method

theorem steady_graph : Steady graph :=
  .of_read (fun _ => rfl) fun _ _ h => congrArg (fun m : Method => Except.ok m.graph) h.method

theorem steady_ask (q : Graph → Except Fault α) : Steady (ask q) := by
  refine steady_graph.bind fun g => ?_
  cases q g with
  | error f => exact .throw _
  | ok a => exact .pure a

theorem steady_block (b : BlockId) : Steady (block b) := by
  refine steady_graph.bind fun g => ?_
  split
  · exact .pure _
  · exact .throw _

/-- What a computation does with a tree that was looked up. -/
def withLookup (s : State) : Except Fault DomTree → Except Stop DomTree × State
  | .ok tree => (.ok tree, { s with tree := some tree })
  | .error f => (.error (.fault f), s)

theorem withLookup_fst (s : State) (found : Except Fault DomTree) :
    (withLookup s found).1 = found.mapError Stop.fault := by
  cases found <;> rfl

theorem withLookup_method (s : State) (found : Except Fault DomTree) :
    (withLookup s found).2.method = s.method := by
  cases found <;> rfl

/-- A tree that is made goes with clean edges that are up to date, on which it does not depend. -/
theorem exec_rebuildTree (s : State) :
    exec rebuildTree s = withLookup (s.withGraph s.method.graph.refreshAll)
      (DomTree.build s.method.graph s.method.enter) := by
  unfold rebuildTree
  rw [exec_bind, ← (Annotated.refreshAll s.method.graph).build]
  show exec (ofExcept (DomTree.build s.method.graph.refreshAll s.method.enter) >>= _)
    (s.withGraph s.method.graph.refreshAll) = _
  cases DomTree.build s.method.graph.refreshAll s.method.enter with
  | error f => rfl
  | ok tree => rfl

/-- The tree at hand is taken if its version is that of the graph; otherwise a tree is made. -/
theorem exec_domTree_cases (s : State) :
    (∃ tree, s.tree = some tree ∧ tree.isStale s.method.graph = false ∧
      exec domTree s = (.ok tree, s)) ∨
    ((∀ tree, s.tree = some tree → tree.isStale s.method.graph = true) ∧
      exec domTree s = exec rebuildTree s) := by
  unfold domTree
  rw [exec_bind, exec_get]
  dsimp only
  cases htree : s.tree with
  | none => exact Or.inr ⟨nofun, rfl⟩
  | some tree =>
    cases hstale : tree.isStale s.method.graph with
    | false => exact Or.inl ⟨tree, rfl, hstale, by simp [hstale]⟩
    | true => exact Or.inr ⟨fun _ h => Option.some.inj h ▸ hstale, by simp [hstale]⟩

theorem exec_domTree (h : s.method.graph.refreshAll = s.method.graph) :
    exec domTree s = withLookup s s.lookup := by
  unfold State.lookup
  rcases exec_domTree_cases s with ⟨tree, htree, hstale, hexec⟩ | ⟨hstale, hexec⟩
  · rw [hexec, htree]
    dsimp only
    rw [if_neg (Bool.eq_false_iff.mp hstale)]
    show (Except.ok tree, s) = (Except.ok tree, { s with tree := some tree })
    rw [← htree]
  · rw [hexec, exec_rebuildTree, h]
    split
    · rename_i tree htree
      rw [if_pos (hstale tree htree)]
      rfl
    · rfl

theorem steady_domTree : Steady domTree := by
  intro s t h
  rw [exec_domTree h.refreshed, exec_domTree h.symm.refreshed, h.lookup]
  cases hlookup : s.lookup with
  | error f => exact ⟨rfl, .refl h.refreshed⟩
  | ok tree => exact ⟨rfl, .keepTree h.refreshed hlookup⟩

end Alike

section Probe

theorem steady_adjustTop (top : BlockId) : Steady (adjustTop top) := by
  refine (steady_block top).bind fun k => ?_
  split
  · exact .pure _
  · exact .pure _

theorem steady_topBelow (blocks : List BlockId) (d : BlockId) : Steady (topBelow blocks d) := by
  refine (steady_block d).bind fun k => ?_
  dsimp only
  split
  · exact .pure _
  · exact steady_adjustTop d

theorem steady_searchTop (blocks : List BlockId) : Steady (searchTop blocks) := by
  have hbelow : ∀ d, Steady (do return some (← topBelow blocks d)) :=
    fun d => (steady_topBelow blocks d).bind fun _ => .pure _
  refine (steady_ask _).bind fun found => ?_
  split
  · exact (steady_adjustTop _).bind fun _ => .pure _
  · refine steady_domTree.bind fun tree => steady_method.bind fun m => ?_
    split
    · exact hbelow _
    · exact .throw _
    · dsimp only
      split
      · exact .pure _
      · split
        · exact hbelow _
        · exact .throw _

/-- The block at which a region is wired; none if the region has to wait. -/
def probe (r : RegionId) : RecoverM (Option BlockId) := do
  let m ← method
  match ← searchTop (m.region r).blocks with
  | none => return none
  | some top =>
    if (← block top).preds.isEmpty && m.enter ≠ some top then return none else return some top

theorem steady_probe (r : RegionId) : Steady (probe r) := by
  refine steady_method.bind fun m => (steady_searchTop _).bind fun found => ?_
  cases found with
  | none => exact .pure _
  | some top =>
    refine (steady_block top).bind fun k => ?_
    split
    · exact .pure _
    · exact .pure _

/-- Wires a region at the block that was found. -/
def wireAt (r : RegionId) : Option BlockId → RecoverM Bool
  | none => return false
  | some top => do
    wrapFrom r top
    return true

theorem wrap_eq (r : RegionId) :
    wrap r = modifyGraph Graph.refreshAll >>= fun _ => probe r >>= wireAt r := by
  unfold wrap probe
  refine congrArg (bind (modifyGraph Graph.refreshAll)) (funext fun _ => ?_)
  rw [bind_assoc]
  refine congrArg (bind method) (funext fun m => ?_)
  rw [bind_assoc]
  refine congrArg (bind (searchTop (m.region r).blocks)) (funext fun found => ?_)
  cases found with
  | none => rfl
  | some top =>
    rw [bind_assoc]
    refine congrArg (bind (block top)) (funext fun k => ?_)
    split
    · rfl
    · rfl

end Probe

section Waits

/-- An attempt to wire the region now would put it off. -/
def State.Waits (s : State) (r : RegionId) : Prop := (exec (wrap r) s).1 = .ok false

theorem exec_wrap_eq_false {r : RegionId} :
    exec (wrap r) s = (.ok false, t) ↔
      exec (probe r) (s.withGraph s.method.graph.refreshAll) = (.ok none, t) := by
  rw [wrap_eq]
  show exec (probe r >>= wireAt r) (s.withGraph s.method.graph.refreshAll) = _ ↔ _
  rw [exec_bind_eq_ok]
  constructor
  · rintro ⟨found, u, hfound, hwire⟩
    cases found with
    | none =>
      cases hwire
      exact hfound
    | some top =>
      obtain ⟨_, _, -, hwire⟩ := exec_bind_eq_ok.mp hwire
      cases hwire
  · exact fun h => ⟨none, t, h, rfl⟩

theorem State.waits_iff {r : RegionId} :
    s.Waits r ↔ (exec (probe r) (s.withGraph s.method.graph.refreshAll)).1 = .ok none := by
  constructor
  · intro h
    rw [exec_wrap_eq_false.mp (Prod.ext h rfl)]
  · intro h
    rw [State.Waits, exec_wrap_eq_false.mpr (Prod.ext h rfl)]

/-- All that an attempt changes if its region has to wait. -/
theorem alike_of_wrap {r : RegionId} (h : exec (wrap r) s = (.ok false, t)) :
    Alike (s.withGraph s.method.graph.refreshAll) t := by
  have hprobe := (steady_probe r (s.withGraph s.method.graph.refreshAll) _
    (.refl s.method.graph.refreshAll_refreshAll)).2
  rwa [exec_wrap_eq_false.mp h] at hprobe

/-- A region that is put off leaves every region as ready as it was. -/
theorem waits_of_wrap {r : RegionId} (h : exec (wrap r) s = (.ok false, t)) (q : RegionId) :
    t.Waits q ↔ s.Waits q := by
  have alike := alike_of_wrap h
  have hself : t.withGraph t.method.graph.refreshAll = t := by
    rw [alike.symm.refreshed]
    rfl
  rw [State.waits_iff, State.waits_iff, hself, (steady_probe q _ _ alike).1]

end Waits

end TryRegions.Recovery
