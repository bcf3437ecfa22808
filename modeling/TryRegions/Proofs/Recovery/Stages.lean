import TryRegions.Proofs.Recovery.Partition

/-! The stages in which the regions of a method are found. Each handler that can be reached gets a
region, the regions are combined from point to point, and what the combination leaves is settled:
removed handlers and blocks leave the regions, and a region that is left with nothing goes. -/

open Relation

namespace TryRegions.Recovery

open RecoverM Forest

section Settling

/-- What is done with the regions that the combination leaves, up to the list of those that stay. -/
def settling (c : Config) (regions : List RegionId) : RecoverM (List RegionId) := do
  mergeAllClauses regions
  let regions ← clearRegions regions
  regions.forM (sortClauses c.types)
  let m ← method
  regions.forM fun r => record (.resultRegion (m.regionText r))
  return regions

/-- What settling `regions` does to those that stay. -/
structure Settles (s : State) (regions kept : List RegionId) (t : State) : Prop where
  mem : ∀ r ∈ kept, r ∈ regions
  body : ∀ h, (t.method.handler h).body = (s.method.handler h).body
  handlers : ∀ r ∈ kept, ∀ h ∈ (t.method.region r).handlers, h ∈ (s.method.region r).handlers
  blocks : ∀ r ∈ kept, ∀ b, b ∈ (t.method.region r).blocks ↔
    b ∈ (s.method.region r).blocks ∧ (t.method.graph.flags b).remove = false
  under : ∀ r ∈ kept, ∀ o, t.method.forest.Under r o →
    o ∈ kept ∧ TransGen s.method.forest.Under r o

variable {c : Config} {s : State} {regions : List RegionId} {base : Nat}
  {E : Violation → State → Prop}

/-- The regions that stay are cleared of what was removed. -/
theorem yields_clearRegions_settles {P : HandlerId → BlockId → Prop} {hs : List HandlerId}
    (h : s.Sound) (cov : Covering (fun _ => False) P hs s.method.forest regions)
    (hn : Nested base s.method.forest regions) :
    Yields (clearRegions regions) s (fun kept t => t.Sound ∧ Settles s regions kept t ∧
      ∀ r ∈ kept, (t.method.region r).handlers.Nodup) E := by
  have hclear : Yields (clearRegions regions) s (fun kept t => t.Sound ∧
      kept = regions.filter (stays s.method) ∧ Cleared s.method regions t.method.forest ∧
      (∀ b, t.method.graph.flags b = s.method.graph.flags b) ∧
      t.method.handler = s.method.handler) E := by
    refine yields_bind.mpr ((yields_filterM_clearRegion h cov.nodup cov.lt).mono
      (fun kept t ht => ?_) fun _ _ hv => hv)
    obtain ⟨rfl, hst, cleared⟩ := ht
    have sweep : Prunes (fun _ => False) t _ := prunes_sweep hst.sound
    refine yields_bind.mpr (yields_modify.mpr (yields_pure.mpr
      ⟨sweep.sound, rfl, cleared, fun b => ?_, hst.handler⟩))
    show t.method.graph.detachMarked.flags b = _
    rw [Graph.flags_detachMarked hst.sound.method.wellFormed, hst.graph]
  refine ((moves_clearRegions hn).yields hclear).mono ?_ fun _ _ hv => hv
  rintro kept t ⟨⟨hsound, rfl, cleared, hflags, hhandler⟩, -, hnested, hlinks⟩
  have hmem : ∀ r ∈ regions.filter (stays s.method), r ∈ regions :=
    fun r hr => (List.mem_filter.mp hr).1
  refine ⟨hsound, ⟨hmem, fun h => by rw [hhandler], fun r hr h hh => ?_, fun r hr b => ?_,
    fun r hr o hro => ?_⟩, fun r hr => ?_⟩
  · rw [Method.region, cleared.handlers, if_pos (hmem r hr)] at hh
    exact (List.mem_filter.mp hh).1
  · rw [Method.region, cleared.blocks, if_pos (hmem r hr), leftBlocks, List.mem_filter, hflags]
    simp
  · have hbase := (hn.bounds r (hmem r hr)).1
    exact ⟨(hnested.listed r o hbase hro).2, hlinks r o hbase hro⟩
  · rw [Method.region, cleared.handlers, if_pos (hmem r hr)]
    exact (cov.handlers_nodup r (hmem r hr)).filter _

/-- Settling meets no fault and no violation. -/
theorem yields_settling {P : HandlerId → BlockId → Prop} {hs : List HandlerId} (h : s.Sound)
    (cov : Covering (fun _ => False) P hs s.method.forest regions)
    (hn : Nested base s.method.forest regions) :
    Yields (settling c regions) s (Settles s regions) E := by
  have hmerge : Steps (fun _ => False)
      (Prunes fun h => ∃ r ∈ regions, h ∈ (s.method.region r).handlers)
      (mergeAllClauses regions) s fun _ _ => True :=
    steps_mergeAllClauses h fun r hr h hh => ⟨r, hr, hh⟩
  refine yields_bind.mpr (hmerge.yields.mono (fun _ t ht => ?_) fun _ _ hv => hv)
  obtain ⟨hprunes, -⟩ := ht
  rw [← hprunes.forest] at cov hn
  refine yields_bind.mpr ((yields_clearRegions_settles hprunes.sound cov hn).mono
    (fun kept u hu => ?_) fun _ _ hv => hv)
  obtain ⟨hsound, hsettles, hlists⟩ := hu
  have hsort : Steps (fun _ => False) Sorts (kept.forM (sortClauses c.types)) u fun _ _ => True :=
    .forM (.refl hsound) fun r hr t ht =>
      steps_sortClauses ht.sound c.types ((ht.handlers r).nodup_iff.mpr (hlists r hr))
  have hquiet : Moves (ReflTransGen Cull) (kept.forM (sortClauses c.types)) u fun _ _ => True :=
    .each fun r _ _ _ => culls_sortClauses c.types r
  refine yields_bind.mpr ((hquiet.yields hsort.yields).mono ?_ fun _ _ hv => hv)
  rintro _ v ⟨⟨hsorts, -⟩, hculls, -⟩
  have hunder := (quiet_of_culls hculls).nesting.under
  refine yields_bind.mpr (yields_method.mpr (yields_bind.mpr ?_))
  refine yields_forM_record _ _ fun log => yields_pure.mpr ?_
  constructor
  case mem => exact hsettles.mem
  case body =>
    intro h
    show (v.method.handler h).body = _
    rw [hsorts.handler, hsettles.body, hprunes.body]
  case handlers =>
    intro r hr h hh
    have hh := hsettles.handlers r hr h ((hsorts.handlers r).mem_iff.mp hh)
    rwa [Method.region, hprunes.forest] at hh
  case blocks =>
    intro r hr b
    show b ∈ (v.method.region r).blocks ↔ _ ∧ (v.method.graph.flags b).remove = false
    rw [hsorts.blocks, hsorts.graph, hsettles.blocks r hr, Method.region, hprunes.forest]
    rfl
  case under =>
    intro r hr o hro
    change v.method.forest.Under r o at hro
    rw [hunder] at hro
    rw [← hprunes.forest]
    exact hsettles.under r hr o hro

end Settling

section Stages

/-- All that a recovery of `m` does before it wires regions. -/
def preparing (c : Config) (m : Method) : RecoverM (List RegionId) := do
  if c.debug then record (.before m.listing)
  modifyGraph Graph.refreshAll
  promoteCoverage
  setUpEntries
  group c.types

theorem recover_eq_preparing (c : Config) :
    recover c = method >>= fun m =>
      if m.registered.isEmpty then pure false else preparing c m >>= ending c := by
  rw [recover_eq]
  refine congrArg (bind method) (funext fun m => ?_)
  split
  · rfl
  · unfold preparing phases ending
    cases c.debug <;>
      simp only [bind_assoc, pure_bind, if_true, if_false, Bool.false_eq_true]

theorem preparing_eq_opening (c : Config) (m : Method) :
    preparing c m = opening c m >>= fun made =>
      if made.isEmpty then pure [] else combineAll made.length made >>= settling c := by
  have hgroup : group c.types = dropHandlers >>= fun covered => method >>= fun m =>
      m.registered.mapM (regionOf covered) >>= fun made =>
        if made.isEmpty then pure [] else combineAll made.length made >>= settling c := by
    simp only [group_eq, mapM_bind_isEmpty]
    rfl
  unfold preparing opening
  rw [hgroup]
  cases c.debug <;> simp only [bind_assoc, if_true, if_false, Bool.false_eq_true]

namespace Combining

/-- A run from `p`, with the points that it has passed. -/
inductive Trail (p : Combining) : List Combining → Combining → Prop where
  | refl : Trail p [] p
  | tail {past q r} (htrail : Trail p past q) (hstep : Step q r) : Trail p (past ++ [q]) r

theorem exists_trail {p q : Combining} (h : ReflTransGen Step p q) : ∃ past, Trail p past q := by
  induction h with
  | refl => exact ⟨[], .refl⟩
  | tail _ hstep ih =>
    obtain ⟨past, htrail⟩ := ih
    exact ⟨_, htrail.tail hstep⟩

theorem Trail.run {p q : Combining} {past : List Combining} (h : Trail p past q) :
    ReflTransGen Step p q := by
  induction h with
  | refl => exact .refl
  | tail _ hstep ih => exact ih.tail hstep

/-- Regions that are in order and share out handlers do so at every point. -/
theorem Shared.at_run {hs : List HandlerId} {p q : Combining} (hp : p.Shared hs)
    (h : ReflTransGen Step p q) : ∃ hs', q.Shared hs' := by
  obtain ⟨out, hrun⟩ := exists_run h
  exact ⟨_, (hp.run hrun).1⟩

end Combining

/-- The stages in which the regions of `m` are found. -/
structure Stages (c : Config) (m : Method) where
  made : List RegionId
  opened : State
  past : List Combining
  combined : List RegionId
  joined : State
  regions : List RegionId
  settled : State
  opens : exec (opening c m) { method := m } = (.ok made, opened)
  combines : exec (combineAll made.length made) opened = (.ok combined, joined)
  trail : Combining.Trail (.start opened made) past ⟨joined, combined, []⟩
  prepares : exec (preparing c m) { method := m } = (.ok regions, settled)

namespace Stages

variable {c : Config} {m : Method}

theorem opened_shared (st : Stages c m) (hm : m.Fresh) :
    (Combining.start st.opened st.made).Shared st.opened.method.registered ∧
      ∃ base, (Combining.start st.opened st.made).InOrder base := by
  obtain ⟨hshared, base, hnested⟩ := (yields_opening hm).ok st.opens
  exact ⟨hshared, base, Combining.inOrder_start hnested⟩

/-- Each handler that is left has a region of its own, which is in no other one and has none of the
handler's code. -/
theorem opened_apart (st : Stages c m) :
    st.made.length = st.opened.method.registered.length ∧
      ∀ r ∈ st.made, (st.opened.method.region r).outer = none ∧ Apart st.opened.method r := by
  have hphases : ∀ s, exec (do
      modifyGraph Graph.refreshAll
      promoteCoverage
      setUpEntries
      let covered ← dropHandlers
      (← method).registered.mapM (regionOf covered)) s = (.ok st.made, st.opened) →
      st.made.length = st.opened.method.registered.length ∧
        ∀ r ∈ st.made, (st.opened.method.region r).outer = none ∧ Apart st.opened.method r := by
    intro s hrun
    obtain ⟨_, _, -, hrun⟩ := exec_bind_eq_ok.mp hrun
    obtain ⟨_, _, -, hrun⟩ := exec_bind_eq_ok.mp hrun
    obtain ⟨_, _, -, hrun⟩ := exec_bind_eq_ok.mp hrun
    obtain ⟨covered, u, -, hrun⟩ := exec_bind_eq_ok.mp hrun
    obtain ⟨m, _, hm, hrun⟩ := exec_bind_eq_ok.mp hrun
    cases hm
    obtain ⟨-, hregistered, hlength, hapart⟩ := (moves_regionsOf_apart _ _).ok hrun
    exact ⟨hregistered ▸ hlength, hapart⟩
  have hopens := st.opens
  unfold opening at hopens
  split at hopens
  · obtain ⟨_, s, -, hrun⟩ := exec_bind_eq_ok.mp hopens
    exact hphases s hrun
  · exact hphases _ hopens

/-- The regions that were combined are settled. -/
theorem exists_settled {made combined : List RegionId} {s t : State} (hm : m.Fresh)
    (hopens : exec (opening c m) { method := m } = (.ok made, s))
    (hcombines : exec (combineAll made.length made) s = (.ok combined, t)) :
    ∃ regions u, exec (preparing c m) { method := m } = (.ok regions, u) ∧
      Settles t combined regions u := by
  obtain ⟨hshared, base, hnested⟩ := (yields_opening hm).ok hopens
  rw [preparing_eq_opening, exec_bind, hopens]
  dsimp only
  split
  · rename_i hempty
    obtain rfl := List.isEmpty_iff.mp hempty
    cases hcombines
    exact ⟨[], s, rfl, nofun, fun _ => rfl, nofun, nofun, nofun⟩
  · rw [exec_bind, hcombines]
    have hrun := Combining.run_of_combineAll hnested (Nat.le_refl _) hcombines
    obtain ⟨hs, hend⟩ := hshared.at_run hrun
    exact (yields_settling hend.sound hend.covering
      ((Combining.inOrder_start hnested).run hrun).nested).exists_ok

theorem settles (st : Stages c m) (hm : m.Fresh) :
    Settles st.joined st.combined st.regions st.settled := by
  obtain ⟨regions, u, hprepares, hsettles⟩ := exists_settled hm st.opens st.combines
  cases st.prepares.symm.trans hprepares
  exact hsettles

/-- The combination leaves handlers as they are. -/
theorem joined_handler (st : Stages c m) (hm : m.Fresh) :
    st.joined.method.handler = st.opened.method.handler := by
  obtain ⟨out, hrun⟩ := Combining.exists_run st.trail.run
  exact ((st.opened_shared hm).1.run hrun).2.1.handler

/-- The regions of a fresh method are found. -/
theorem nonempty (c : Config) (hm : m.Fresh) : Nonempty (Stages c m) := by
  obtain ⟨made, s, hopens, hshared, base, hnested⟩ := (yields_opening (c := c) hm).exists_ok
  obtain ⟨combined, t, hcombines, -⟩ := (yields_combineAll made.length hshared.sound
    (hshared.covering.relax fun _ _ => False.elim)).exists_ok
  obtain ⟨past, htrail⟩ :=
    Combining.exists_trail (Combining.run_of_combineAll hnested (Nat.le_refl _) hcombines)
  obtain ⟨regions, u, hprepares, -⟩ := exists_settled hm hopens hcombines
  exact ⟨made, s, past, combined, t, regions, u, hopens, hcombines, htrail, hprepares⟩

theorem eq_of_opens (st : Stages c m) {made : List RegionId} {s : State}
    (h : exec (opening c m) { method := m } = (.ok made, s)) : st.made = made ∧ st.opened = s := by
  have heq := st.opens.symm.trans h
  simpa using heq

theorem eq_of_combines (st : Stages c m) {made combined : List RegionId} {s t : State}
    (hopens : exec (opening c m) { method := m } = (.ok made, s))
    (hcombines : exec (combineAll made.length made) s = (.ok combined, t)) :
    st.combined = combined ∧ st.joined = t := by
  obtain ⟨hmade, hopened⟩ := st.eq_of_opens hopens
  have heq := st.combines
  rw [hmade, hopened, hcombines] at heq
  simpa [eq_comm] using heq

theorem eq_of_prepares (st : Stages c m) {regions : List RegionId} {u : State}
    (h : exec (preparing c m) { method := m } = (.ok regions, u)) :
    st.regions = regions ∧ st.settled = u := by
  have heq := st.prepares.symm.trans h
  simpa using heq

/-- The recovery goes on with the regions that were found. -/
theorem exec_recover (st : Stages c m) (hsome : m.registered ≠ []) :
    exec (recover c) { method := m } = exec (ending c st.regions) st.settled := by
  have hsome : ¬m.registered.isEmpty = true := by simpa using hsome
  rw [recover_eq_preparing]
  show exec (if m.registered.isEmpty then _ else _) { method := m } = _
  rw [if_neg hsome, exec_bind, st.prepares]

/-- The recovery settles the regions that were combined, where there are any. -/
theorem exec_recover_joined (st : Stages c m) (hsome : m.registered ≠ []) (hmade : st.made ≠ []) :
    exec (recover c) { method := m } = exec (settling c st.combined >>= ending c) st.joined := by
  have hmade : ¬st.made.isEmpty = true := by simpa using hmade
  have hsettles := st.prepares
  rw [preparing_eq_opening, exec_bind, st.opens] at hsettles
  dsimp only at hsettles
  rw [if_neg hmade, exec_bind, st.combines] at hsettles
  dsimp only at hsettles
  rw [st.exec_recover hsome, exec_bind, hsettles]

end Stages

end Stages

end TryRegions.Recovery
