import TryRegions.Proofs.Recovery.Edits

/-! The states that a recovery passes through where it succeeds: entries are set up, handlers are
grouped, regions are wired, and the pass is finished. -/

open Relation

namespace TryRegions.Recovery

open RecoverM TryRegions.Graph

/-- The states between the phases of a recovery of `m` that succeeds, and the regions that it
found. -/
structure Passage (c : Config) (m : Method) where
  start : State
  entered : State
  grouped : State
  wired : State
  final : State
  regions : List RegionId
  start_method : start.method = { m with graph := m.graph.promoted }
  start_tree : start.tree = none
  enters : exec setUpEntries start = (.ok ⟨⟩, entered)
  groups : exec (group c.types) entered = (.ok regions, grouped)
  wires : exec (wire c.limitFactor regions) grouped = (.ok ⟨⟩, wired)
  finishes : exec (finish regions) wired = (.ok ⟨⟩, final)
  method : (process c m).method = final.method

variable {c : Config} {m : Method}

theorem passage_of_phases {s t : State} (hs : s.method = m) (htree : s.tree = none)
    (hrun : exec (phases c) s = (.ok ⟨⟩, t)) (hmethod : (process c m).method = t.method) :
    Nonempty (Passage c m) := by
  obtain ⟨_, ready, hready, hrun⟩ := exec_bind_eq_ok.mp hrun
  obtain ⟨_, start, hstart, hrun⟩ := exec_bind_eq_ok.mp hrun
  obtain ⟨_, entered, henters, hrun⟩ := exec_bind_eq_ok.mp hrun
  obtain ⟨regions, grouped, hgroups, hrun⟩ := exec_bind_eq_ok.mp hrun
  obtain ⟨_, wired, hwires, hfinishes⟩ := exec_bind_eq_ok.mp hrun
  cases hready
  cases hstart
  refine ⟨⟨_, entered, grouped, wired, t, regions, ?_, ?_, henters, hgroups, hwires, hfinishes,
    hmethod⟩⟩
  · subst hs
    rfl
  · exact htree

/-- A method without handlers is left as it is; on any other one a recovery that succeeds passes
through all phases. -/
theorem passage_of_ok {handled : Bool} (hok : (process c m).result = .ok handled) :
    m.registered = [] ∧ (process c m).method = m ∨ Nonempty (Passage c m) := by
  have hrecover : exec (recover c) { method := m } =
      (.ok handled, (exec (recover c) { method := m }).2) := Prod.ext hok rfl
  have hmethod : (process c m).method = (exec (recover c) { method := m }).2.method := rfl
  generalize (exec (recover c) { method := m }).2 = t at hrecover hmethod
  rw [recover_eq] at hrecover
  obtain ⟨_, _, hget, hrecover⟩ := exec_bind_eq_ok.mp hrecover
  cases hget
  split at hrecover
  · rename_i hempty
    cases hrecover
    exact Or.inl ⟨List.isEmpty_iff.mp hempty, hmethod⟩
  · right
    obtain ⟨_, s, hbefore, hrecover⟩ := exec_bind_eq_ok.mp hrecover
    obtain ⟨_, u, hphases, hrecover⟩ := exec_bind_eq_ok.mp hrecover
    obtain ⟨_, v, hafter, hrecover⟩ := exec_bind_eq_ok.mp hrecover
    cases hrecover
    have hs : s.method = m ∧ s.tree = none := by
      split at hbefore
      · cases hbefore
        exact ⟨rfl, rfl⟩
      · cases hbefore
        exact ⟨rfl, rfl⟩
    refine passage_of_phases hs.1 hs.2 hphases (hmethod.trans ?_)
    split at hafter
    · cases hafter
      rfl
    · cases hafter
      rfl

namespace Passage

variable (p : Passage c m)

theorem current_start : p.start.Current := by
  intro tree htree
  rw [p.start_tree] at htree
  cases htree

variable (hm : m.Fresh)
include hm

theorem sound_start : p.start.Sound := by
  refine ⟨?_, fun tree htree => ?_⟩
  · rw [p.start_method]
    exact hm.sound_promoted
  · rw [p.start_tree] at htree
    cases htree

theorem prepares : Prepares (fun b => b ∈ p.start.method.graph.live)
    (fun u v => v ∈ p.start.method.graph.live ∧ (p.start.method.graph.marker v).isSome = true ∧
      p.start.method.graph.tmpEdge v = some u) p.start p.entered := by
  refine (yields_setUpEntries (E := fun _ _ => True) (p.sound_start hm) ?_).ok p.enters
  rw [p.start_method]
  exact hm.tmpEdge_promoted

theorem grouping : Grouped p.entered p.regions p.grouped := by
  have ready := p.prepares hm
  refine (yields_group (E := fun _ _ => True) c.types ready.sound ?_ ?_).ok p.groups
  · rw [ready.registered, p.start_method]
    exact hm.registered_nodup
  · rw [ready.registered, ready.handlers_size, p.start_method]
    exact hm.registered_lt

theorem regroups :
    ReflTransGen (Regroup fun b => p.entered.method.graph.isLive b = true) p.entered p.grouped := by
  have wf := (p.prepares hm).sound.method.wellFormed
  refine ((regroups_group c.types fun h b hb => ?_).ok p.groups).1
  exact ((mem_coveredBlocks wf).mp hb).1

theorem culled : Culled p.entered p.grouped :=
  culled_of_regroups (p.regroups hm) (p.prepares hm).sound.method.wellFormed

/-- Wiring and what follows it only extend ways. -/
theorem wires_final : Wires p.grouped p.final ∧ p.final.method.regions = p.regions := by
  have grouping := p.grouping hm
  have hwires := ((steps_wire (V := fun _ => True) grouping.sound (fun _ _ => trivial) c.limitFactor
    p.regions).ok p.wires).1
  have hfinish := (steps_finish (V := fun _ => True) hwires.sound
    (hwires.graph.not_marked grouping.unmarked) p.regions).ok p.finishes
  exact ⟨hwires.trans hfinish.1, hfinish.2⟩

end Passage

end TryRegions.Recovery
