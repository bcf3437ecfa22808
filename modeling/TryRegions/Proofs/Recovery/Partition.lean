import TryRegions.Proofs.Recovery.Combination
import TryRegions.Proofs.Recovery.Edits

/-! Handlers are shared out among the regions while these are combined. At every point each handler
is listed by exactly one region, save for those that left with a region that was absorbed. So no
region ever lists all clauses of another one, and nesting takes no clause away. -/

open Relation

namespace TryRegions.Recovery

open RecoverM

/-- The regions share out the handlers `hs`, and each of them has its own number. -/
structure Partition (hs : List HandlerId) (f : Forest) (regions : List RegionId) : Prop where
  handlers_ne_nil : ∀ r ∈ regions, (f.get r).handlers ≠ []
  handlers_nodup : ∀ r ∈ regions, (f.get r).handlers.Nodup
  disjoint : regions.Pairwise fun r q => (f.get r).handlers.Disjoint (f.get q).handlers
  union : ∀ h, (∃ r ∈ regions, h ∈ (f.get r).handlers) ↔ h ∈ hs
  numbers_nodup : (regions.map fun r => (f.get r).number).Nodup
  blocks_nodup : ∀ r ∈ regions, (f.get r).blocks.Nodup

section Numbers

/-- The regions ever made have different numbers, all of them below the next one. -/
structure State.Numbered (s : State) : Prop where
  lt : ∀ r < s.method.forest.size, (s.method.region r).number < s.nextRegion
  inj : ∀ r < s.method.forest.size, ∀ q < s.method.forest.size,
    (s.method.region r).number = (s.method.region q).number → r = q

/-- Numbers that were apart stay apart. -/
def KeepsApart (s t : State) : Prop := s.Numbered → t.Numbered

instance : IsPreorder State KeepsApart where
  refl _ h := h
  trans _ _ _ h h' hs := h' (h hs)

variable {s t : State} {regions : List RegionId} {outer inner : RegionId}

theorem keepsApart_reforest {f : Forest} (hsize : f.size = s.method.forest.size)
    (hnumber : ∀ r, (f.get r).number = (s.method.region r).number) :
    KeepsApart s { s with method := { s.method with forest := f } } := by
  intro h
  constructor
  · intro r hr
    show (f.get r).number < s.nextRegion
    rw [hnumber]
    exact h.lt r (hsize ▸ hr)
  · intro r hr q hq
    show (f.get r).number = (f.get q).number → r = q
    rw [hnumber, hnumber]
    exact h.inj r (hsize ▸ hr) q (hsize ▸ hq)

theorem keepsApart_newRegion (hs : List HandlerId) (blocks : List BlockId) :
    Moves KeepsApart (newRegion hs blocks) s fun _ _ => True := by
  refine .of_get (Moves.andThen (Q := fun _ _ => True) ⟨fun h => ?_, trivial⟩
    fun _ _ _ => .pure trivial)
  -- The new region has the old next number, and the others have smaller ones.
  have hnumber : ∀ r < s.method.forest.size + 1, (r = s.method.forest.size ∧
      ((s.method.forest.push { number := s.nextRegion, handlers := hs, blocks }).get r).number =
        s.nextRegion) ∨ (r < s.method.forest.size ∧
      ((s.method.forest.push { number := s.nextRegion, handlers := hs, blocks }).get r).number =
        (s.method.region r).number) := by
    intro r hr
    rw [Forest.get_push]
    split
    · exact .inl ⟨‹_›, rfl⟩
    · exact .inr ⟨Nat.lt_of_le_of_ne (Nat.le_of_lt_succ hr) ‹_›, rfl⟩
  constructor
  · intro r hr
    show ((s.method.forest.push _).get r).number < ((s.nextRegion + 1 : Nat) : Int)
    rcases hnumber r (by simpa using hr) with ⟨-, heq⟩ | ⟨hlt, heq⟩
    · omega
    · have := h.lt r hlt
      omega
  · intro r hr q hq
    show ((s.method.forest.push _).get r).number = ((s.method.forest.push _).get q).number → r = q
    rcases hnumber r (by simpa using hr) with ⟨hr, heq⟩ | ⟨hr, heq⟩ <;>
      rcases hnumber q (by simpa using hq) with ⟨hq, heq'⟩ | ⟨hq, heq'⟩ <;> rw [heq, heq']
    · exact fun _ => hr.trans hq.symm
    · have := h.lt q hq
      omega
    · have := h.lt r hr
      omega
    · exact h.inj r hr q hq

theorem keepsApart_merge (hs : List HandlerId) (blocks : List BlockId) :
    Moves KeepsApart (merge regions outer inner hs blocks) s fun _ _ => True := by
  refine (keepsApart_newRegion hs blocks).andThen fun merged t _ => ?_
  have same := inherit_sameContent t.method.forest merged [outer, inner]
  exact Moves.andThen (Q := fun _ _ => True)
    (.modify (keepsApart_reforest same.size same.number) trivial) fun _ _ _ => .pure trivial

theorem keepsApart_relate :
    Moves KeepsApart (relate regions outer inner) s fun _ _ => True := by
  refine .of_method (.of_ofExcept fun r _ => ?_)
  cases r with
  | sameBlocks => exact (keepsApart_merge _ _).andThen fun _ _ _ => .pure trivial
  | sameClauses => exact (keepsApart_merge _ _).andThen fun _ _ _ => .pure trivial
  | unrelated => exact .pure trivial
  | absorb =>
    refine Moves.andThen (Q := fun _ _ => True) (.modify (keepsApart_reforest ?_ fun r => ?_)
      trivial) fun _ _ _ => .pure trivial
    · rw [Forest.size_modify, (Forest.SameContent.rehang _ _ _).size, Forest.size_modify]
    · rw [Forest.number_modify, (Forest.SameContent.rehang _ _ _).number, Forest.number_modify]
      · rfl
      all_goals exact fun _ => rfl
  | nest =>
    refine Moves.andThen (Q := fun _ _ => True) (.modify (keepsApart_reforest ?_ fun r => ?_)
      trivial) fun _ _ _ => .pure trivial
    · rw [Forest.size_modify, (Forest.SameContent.link _ _ _).size, Forest.size_modify]
    · rw [Forest.number_modify, (Forest.SameContent.link _ _ _).number, Forest.number_modify]
      · rfl
      all_goals exact fun _ => rfl

/-- Regions that are made one after the other have different numbers. -/
theorem keepsApart_regionsOf (covered : HandlerId → List BlockId) (handlers : List HandlerId) :
    Moves KeepsApart (handlers.mapM (regionOf covered)) s fun _ _ => True :=
  Moves.collect (fun _ _ _ => True)
    (fun _ _ _ _ _ _ => .of_method (keepsApart_newRegion _ _)) trivial

end Numbers

/-- Handlers that are lost and not listed any more are not among those that are shared out. -/
theorem Covering.leave {gone hs : List HandlerId} {P : HandlerId → BlockId → Prop} {f : Forest}
    {regions : List RegionId} (h : Covering (· ∈ gone) P hs f regions)
    (hgone : ∀ r ∈ regions, ∀ x ∈ gone, x ∉ (f.get r).handlers) :
    Covering (fun _ => False) P (hs.filter (· ∉ gone)) f regions :=
  { h with
    listed := fun r hr x hx =>
      List.mem_filter.mpr ⟨h.listed r hr x hx, decide_eq_true fun hx' => hgone r hr x hx' hx⟩
    kept := fun x hx => by
      obtain ⟨hx, hstay⟩ := List.mem_filter.mp hx
      exact (h.kept x hx).imp id fun hlost => absurd hlost.2 (of_decide_eq_true hstay) }

theorem Covering.partition {s : State} {hs : List HandlerId} {P : HandlerId → BlockId → Prop}
    {regions : List RegionId} (h : Covering (fun _ => False) P hs s.method.forest regions)
    (hnumbered : s.Numbered) : Partition hs s.method.forest regions where
  handlers_ne_nil := h.handlers_ne_nil
  handlers_nodup := h.handlers_nodup
  disjoint := h.nodup.imp_of_mem fun hr hq hne x hx hx' => hne (h.disjoint _ hr _ hq x hx hx')
  union x := by
    constructor
    · rintro ⟨r, hr, hx⟩
      exact h.listed r hr x hx
    · intro hx
      obtain ⟨r, hr, hmem, -⟩ | ⟨-, hlost⟩ := h.kept x hx
      · exact ⟨r, hr, hmem⟩
      · exact hlost.elim
  numbers_nodup := by
    apply List.pairwise_map.mpr
    exact h.nodup.imp_of_mem fun hr hq hne heq =>
      hne (hnumbered.inj _ (h.lt _ hr) _ (h.lt _ hq) heq)
  blocks_nodup := h.blocks_nodup

/-- A region with a clause that the inner one does not have is not a part of it by its clauses. -/
theorem relation_ne_sameClauses {m : Method} {outer inner : RegionId} {h : HandlerId}
    (ho : h ∈ (m.region outer).handlers) (hi : h ∉ (m.region inner).handlers) :
    relation m outer inner ≠ .ok .sameClauses := by
  intro heq
  rcases relation_eq_ok_iff.mp heq with ⟨-, heq⟩ | ⟨-, code, block, -, -, heq⟩
  · cases heq
  · unfold judge at heq
    split at heq
    · split at heq
      · cases heq
      · split at heq <;> cases heq
    · split at heq
      · rename_i hall
        exact hi (of_decide_eq_true (List.all_eq_true.mp hall h ho))
      · cases heq

namespace Combining

/-- The handlers that leave the regions with the next pair: those of its inner region, if that one
is absorbed. -/
def absorbed (p : Combining) : List HandlerId :=
  match p.pairs with
  | [] => []
  | (outer, inner) :: _ =>
    if outer ≠ inner ∧ (p.state.method.region inner).outer = none ∧
        relation p.state.method outer inner = .ok .absorb then
      (p.state.method.region inner).handlers
    else []

/-- A run from `p`, with the handlers that have left the regions on the way. -/
inductive Run (p : Combining) : List HandlerId → Combining → Prop where
  | refl : Run p [] p
  | tail {out q r} (hrun : Run p out q) (hstep : Step q r) : Run p (out ++ q.absorbed) r

theorem exists_run {p q : Combining} (h : ReflTransGen Step p q) : ∃ out, Run p out q := by
  induction h with
  | refl => exact ⟨[], .refl⟩
  | tail _ hstep ih =>
    obtain ⟨out, hrun⟩ := ih
    exact ⟨_, hrun.tail hstep⟩

/-- The regions share out exactly the handlers `hs`. -/
structure Shared (hs : List HandlerId) (p : Combining) : Prop where
  sound : p.state.Sound
  numbered : p.state.Numbered
  pairs : ∀ q ∈ p.pairs, q.1 ∈ p.regions ∧ q.2 ∈ p.regions
  covering : Covering (fun _ => False) (fun _ _ => False) hs p.state.method.forest p.regions

variable {hs out : List HandlerId} {s t : State} {regions result : List RegionId}
  {outer inner : RegionId} {pairs : List (RegionId × RegionId)} {changed : Bool} {p q : Combining}

theorem absorbed_skip (hpair : outer = inner ∨ (s.method.region inner).outer.isSome = true) :
    absorbed ⟨s, regions, (outer, inner) :: pairs⟩ = [] := by
  refine if_neg fun h => ?_
  obtain heq | houter := hpair
  · exact h.1 heq
  · simp [h.2.1] at houter

theorem absorbed_relate (hne : outer ≠ inner) (hfree : (s.method.region inner).outer = none) :
    absorbed ⟨s, regions, (outer, inner) :: pairs⟩ =
      if relation s.method outer inner = .ok .absorb then (s.method.region inner).handlers
      else [] := by
  simp [absorbed, hne, hfree]

theorem Shared.catchesAll_absorbed (h : p.Shared hs) :
    ∀ x ∈ p.absorbed, p.state.method.CatchesAll x := by
  obtain ⟨s, regions, pairs⟩ := p
  cases pairs with
  | nil => nofun
  | cons pair pairs =>
    intro x hx
    unfold absorbed at hx
    dsimp only at hx
    split at hx
    · rename_i habsorb
      exact mem_handlers_of_isCatchAll (isCatchAll_of_absorb h.sound.method habsorb.2.2) x hx
    · cases hx

/-- What a pair that is related does: nothing but the absorbed handlers leaves the regions. -/
theorem Shared.relate (h : Shared hs ⟨s, regions, (outer, inner) :: pairs⟩) (hne : outer ≠ inner)
    (hfree : (s.method.region inner).outer = none)
    (hrun : exec (relate regions outer inner) s = (.ok (result, changed), t)) :
    Reshapes s t ∧ t.Numbered ∧
      Covering (fun _ => False) (fun _ _ => False)
        (hs.filter (· ∉ absorbed ⟨s, regions, (outer, inner) :: pairs⟩)) t.method.forest result ∧
      (changed = false → result = regions) := by
  obtain ⟨ho, hi⟩ := h.pairs _ List.mem_cons_self
  rw [absorbed_relate hne hfree]
  generalize hgone : (if relation s.method outer inner = .ok .absorb then
    (s.method.region inner).handlers else []) = gone
  have hlost : relation s.method outer inner = .ok .absorb →
      ∀ x ∈ (s.method.region inner).handlers, x ∈ gone := by
    intro habsorb x hx
    rwa [← hgone, if_pos habsorb]
  have hcov : Covering (· ∈ gone) (fun _ _ => False) hs s.method.forest regions :=
    h.covering.relax fun _ _ => False.elim
  obtain ⟨hreshapes, hcov, hsame, hleft⟩ :=
    (yields_relate (E := fun _ _ => True) h.sound hcov ho hi hne hlost).ok hrun
  refine ⟨hreshapes, (keepsApart_relate.ok hrun).1 h.numbered, hcov.leave ?_, hsame⟩
  intro r hr x hx
  rw [← hgone] at hx
  split at hx
  · exact hleft ‹_› r hr x hx
  · cases hx

/-- A step: the handlers of a region that is absorbed leave, and no others. -/
theorem Shared.step (h : p.Shared hs) (hpq : Step p q) :
    q.Shared (hs.filter (· ∉ p.absorbed)) ∧ Reshapes p.state q.state := by
  cases hpq with
  | skip hpair =>
    rw [absorbed_skip hpair]
    simp only [List.not_mem_nil, not_false_eq_true, decide_true, List.filter_true]
    exact ⟨{ h with pairs := fun x hx => h.pairs x (List.mem_cons_of_mem _ hx) }, .refl h.sound⟩
  | keep hne hfree hrun =>
    obtain ⟨hreshapes, hnumbered, hcov, hsame⟩ := h.relate hne hfree hrun
    refine ⟨⟨hreshapes.sound, hnumbered, fun x hx => ?_, hcov⟩, hreshapes⟩
    rw [hsame rfl]
    exact h.pairs x (List.mem_cons_of_mem _ hx)
  | change hne hfree hrun =>
    obtain ⟨hreshapes, hnumbered, hcov, -⟩ := h.relate hne hfree hrun
    exact ⟨⟨hreshapes.sound, hnumbered, mem_pairs_start, hcov⟩, hreshapes⟩

/-- A whole run: the regions share out the handlers that have not left, and those that have left
catch everything. -/
theorem Shared.run (h : p.Shared hs) (hpq : Run p out q) :
    q.Shared (hs.filter (· ∉ out)) ∧ Reshapes p.state q.state ∧
      ∀ x ∈ out, p.state.method.CatchesAll x := by
  induction hpq with
  | refl => simpa using ⟨h, Reshapes.refl h.sound⟩
  | tail _ hstep ih =>
    obtain ⟨hshared, hreshapes, hall⟩ := ih
    obtain ⟨hshared', hreshapes'⟩ := hshared.step hstep
    refine ⟨?_, hreshapes.trans hreshapes', fun x hx => ?_⟩
    · rw [List.filter_filter] at hshared'
      simpa [Bool.and_comm] using hshared'
    · rcases List.mem_append.mp hx with hx | hx
      · exact hall x hx
      · rw [← hreshapes.catchesAll]
        exact hshared.catchesAll_absorbed x hx

end Combining

section Recover

/-- What a recovery of `m` does before it combines regions: each handler that can be reached gets a
region of its own. -/
def opening (c : Config) (m : Method) : RecoverM (List RegionId) := do
  if c.debug then record (.before m.listing)
  modifyGraph Graph.refreshAll
  promoteCoverage
  setUpEntries
  let covered ← dropHandlers
  (← method).registered.mapM (regionOf covered)

/-- What it does with the regions that it has found. -/
def ending (c : Config) (regions : List RegionId) : RecoverM Bool := do
  wire c.limitFactor regions
  finish regions
  if c.debug then record (.after (← method).listing)
  return true

/-- What it does with the regions that the combination leaves. -/
def closing (c : Config) (regions : List RegionId) : RecoverM Bool := do
  mergeAllClauses regions
  let regions ← clearRegions regions
  regions.forM (sortClauses c.types)
  let m ← method
  regions.forM fun r => record (.resultRegion (m.regionText r))
  ending c regions

/-- There are regions where there are handlers. -/
theorem mapM_bind_isEmpty {α β γ : Type} (l : List α) (f : α → RecoverM β) (idle : RecoverM γ)
    (k : List β → RecoverM γ) :
    (l.mapM f >>= fun made => if made.isEmpty then idle else k made) =
      if l.isEmpty then idle else l.mapM f >>= k := by
  cases l with
  | nil => rfl
  | cons a l => simp [List.mapM_cons]

/-- The combination stands between the opening and the closing. -/
theorem recover_eq_opening (c : Config) :
    recover c = method >>= fun m =>
      if m.registered.isEmpty then pure false
      else opening c m >>= fun made =>
        if made.isEmpty then ending c [] else combineAll made.length made >>= closing c := by
  have hgroup : ∀ k : List RegionId → RecoverM Bool, (group c.types >>= k) =
      dropHandlers >>= fun covered => method >>= fun m =>
        if m.registered.isEmpty then k [] else makeRegions c.types covered m.registered >>= k := by
    intro k
    simp only [group_eq, bind_assoc]
    refine congrArg (bind dropHandlers) (funext fun _ => ?_)
    refine congrArg (bind method) (funext fun _ => ?_)
    split
    · exact pure_bind [] k
    · rfl
  rw [recover_eq]
  refine congrArg (bind method) (funext fun m => ?_)
  split
  · rfl
  · unfold opening phases closing ending
    cases c.debug <;>
      simp only [hgroup, makeRegions, bind_assoc, pure_bind, mapM_bind_isEmpty, if_true, if_false,
        Bool.false_eq_true]

variable {c : Config} {m : Method}

/-- The opening of a recovery of a fresh method, from any log: there is one region for each handler
that is left, and they share out these handlers. -/
theorem yields_opening (hm : m.Fresh) :
    Yields (opening c m) { method := m } (fun made s =>
      (Combining.start s made).Shared s.method.registered ∧
        ∃ base, Forest.Nested base s.method.forest made) fun _ _ => False := by
  have hphases : ∀ log, Yields (do
      modifyGraph Graph.refreshAll
      promoteCoverage
      setUpEntries
      let covered ← dropHandlers
      (← method).registered.mapM (regionOf covered)) { method := m, log } (fun made s =>
        (Combining.start s made).Shared s.method.registered ∧
          ∃ base, Forest.Nested base s.method.forest made) fun _ _ => False := by
    intro log
    let s : State := { method := { m with graph := m.graph.promoted }, log }
    have hs : s.Sound := ⟨hm.sound_promoted, nofun⟩
    refine yields_bind.mpr (yields_modifyGraph.mpr (yields_bind.mpr (yields_modifyGraph.mpr ?_)))
    refine yields_bind.mpr ((yields_setUpEntries (s := s) hs hm.tmpEdge_promoted).mono
      (fun _ t ready => ?_) fun _ _ hv => hv)
    have hlt : ∀ h ∈ t.method.registered, h < t.method.handlers.size := by
      rw [ready.registered, ready.handlers_size]
      exact hm.registered_lt
    refine yields_bind.mpr ((yields_dropHandlers ready.sound hlt).mono ?_ fun _ _ hv => hv)
    rintro _ u ⟨rfl, hprunes, -, hentry⟩
    refine yields_bind.mpr (yields_method.mpr ?_)
    have wf := ready.sound.method.wellFormed
    have hnumbered : u.Numbered := by
      have hnone : u.method.forest.size = 0 := by
        rw [hprunes.forest, ready.forest]
        show m.forest.size = 0
        rw [hm.forest]
        rfl
      exact ⟨fun r hr => by omega, fun r hr => by omega⟩
    have hregistered : u.method.registered.Nodup := by
      apply List.Nodup.sublist hprunes.registered
      rw [ready.registered]
      exact hm.registered_nodup
    have hlt : ∀ h, ∀ b ∈ coveredBlocks t.method.graph h, b < u.method.graph.size := by
      intro h b hb
      rw [hprunes.graph.size]
      exact Graph.lt_of_isLive ((mem_coveredBlocks wf).mp hb).1
    have hmade := yields_mapM_regionOf (E := fun _ _ => False) (P := fun _ _ => False)
      hprunes.sound (fun _ => False) hregistered hentry hlt (coveredBlocks_nodup wf)
      fun _ _ hb => hb.elim
    refine ((moves_regionsOf _ _).yields ((keepsApart_regionsOf _ _).yields hmade)).mono ?_
      fun _ _ hv => hv
    rintro made s ⟨⟨⟨hreshapes, hcov⟩, happart, -⟩, -, hnested⟩
    refine ⟨⟨hreshapes.sound, happart hnumbered, Combining.mem_pairs_start, ?_⟩, _, hnested⟩
    show Covering _ _ s.method.registered _ _
    rw [hreshapes.method]
    exact hcov
  unfold opening
  split
  · exact yields_bind.mpr (yields_modify.mpr (hphases _))
  · exact hphases _

/-- Handlers are shared out among the regions at every point of the combination of the regions of a
fresh method. Their regions are found, the recovery goes on with the combination of these, which has
a result, and at each point from the first to the last one the regions share out the registered
handlers without those that have left. Only handlers that catch everything leave. No region lists
all clauses of another one, and none has a clause that nesting it in another one would take away. -/
theorem combination_partitions (c : Config) {m : Method} (hm : m.Fresh) :
    ∃ made s, exec (opening c m) { method := m } = (.ok made, s) ∧
      (m.registered ≠ [] → made ≠ [] →
        exec (recover c) { method := m } = exec (combineAll made.length made >>= closing c) s) ∧
      (∃ result t out, exec (combineAll made.length made) s = (.ok result, t) ∧
        Combining.Run (.start s made) out ⟨t, result, []⟩) ∧
      ∀ out p, Combining.Run (.start s made) out p →
        Partition (s.method.registered.filter (· ∉ out)) p.state.method.forest p.regions ∧
        (∀ h ∈ out, s.method.CatchesAll h) ∧
        ∀ outer ∈ p.regions, ∀ inner ∈ p.regions, outer ≠ inner →
          relation p.state.method outer inner ≠ .ok .sameClauses ∧
          (p.state.method.region inner).handlers.filter
              (fun h => decide (h ∉ (p.state.method.region outer).handlers)) =
            (p.state.method.region inner).handlers := by
  obtain ⟨made, s, hopening, hshared, base, hnested⟩ := (yields_opening (c := c) hm).exists_ok
  refine ⟨made, s, hopening, fun hsome hmade => ?_, ?_, fun out p hp => ?_⟩
  · have hsome : ¬m.registered.isEmpty = true := by simpa using hsome
    have hmade : ¬made.isEmpty = true := by simpa using hmade
    rw [recover_eq_opening]
    show exec (if m.registered.isEmpty then _ else _) { method := m } = _
    rw [if_neg hsome, exec_bind, hopening]
    show exec (if made.isEmpty then _ else _) s = _
    rw [if_neg hmade]
  · obtain ⟨result, t, hrun, -⟩ := (yields_combineAll made.length hshared.sound
      (hshared.covering.relax fun _ _ => False.elim)).exists_ok
    obtain ⟨out, hout⟩ :=
      Combining.exists_run (Combining.run_of_combineAll hnested (Nat.le_refl _) hrun)
    exact ⟨result, t, out, hrun, hout⟩
  · obtain ⟨hend, -, hall⟩ := hshared.run hp
    have apart : ∀ outer ∈ p.regions, ∀ inner ∈ p.regions, outer ≠ inner →
        ∀ h ∈ (p.state.method.region outer).handlers, h ∉ (p.state.method.region inner).handlers :=
      fun outer ho inner hi hne h hh hh' => hne (hend.covering.disjoint outer ho inner hi h hh hh')
    refine ⟨hend.covering.partition hend.numbered, hall, fun outer ho inner hi hne => ⟨?_, ?_⟩⟩
    · obtain ⟨h, hh⟩ := List.exists_mem_of_ne_nil _ (hend.covering.handlers_ne_nil outer ho)
      exact relation_ne_sameClauses hh (apart outer ho inner hi hne h hh)
    · apply List.filter_eq_self.mpr
      intro h hh
      exact decide_eq_true (apart inner hi outer ho hne.symm h hh)

/-- The code of handler 1, which catches everything, is covered by handler 0. -/
def guardedFinally : Method where
  name := "m"
  graph :=
    { blocks := #[
        { offset := 0, succs := [1] },
        { offset := 2, instrs := [{ opcode := .invoke, offset := 2, catches := some ⟨[0, 1]⟩ }],
          preds := [0], succs := [2, 3, 4] },
        { offset := 4, preds := [1, 3, 4] },
        { offset := 6, instrs := [
            { opcode := .moveException, offset := 6, entry := some 1 },
            { opcode := .invoke, offset := 7, catches := some ⟨[0]⟩ }],
          preds := [1], succs := [2], tmpEdge := some 1 },
        { offset := 10, instrs := [{ opcode := .moveException, offset := 10, entry := some 0 }],
          preds := [1], succs := [2], tmpEdge := some 1 }]
      live := [0, 1, 2, 3, 4] }
  enter := some 0
  handlers := #[{ number := 0, offset := 10, types := ["E"] }, { number := 1, offset := 6 }]
  registered := [0, 1]

def guardedMade : State := (exec (opening {} guardedFinally) { method := guardedFinally }).2

def guardedCombined : State := (exec (combineAll 2 [0, 1]) guardedMade).2

/-- The region of handler 1 is absorbed, and the handler leaves with it. -/
theorem combination_partitions_guardedFinally :
    guardedFinally.Fresh ∧
      exec (opening {} guardedFinally) { method := guardedFinally } = (.ok [0, 1], guardedMade) ∧
      exec (combineAll 2 [0, 1]) guardedMade = (.ok [0], guardedCombined) ∧
      ∃ out, Combining.Run (.start guardedMade [0, 1]) out ⟨guardedCombined, [0], []⟩ ∧
        Partition ([0, 1].filter (· ∉ out)) guardedCombined.method.forest [0] ∧
        (guardedCombined.method.region 0).handlers = [0] := by
  have hm : guardedFinally.Fresh := by decide +kernel
  have hopening : exec (opening {} guardedFinally) { method := guardedFinally } =
      (.ok [0, 1], guardedMade) := Prod.ext (by decide +kernel) (by rw [guardedMade])
  have hcombined : exec (combineAll 2 [0, 1]) guardedMade = (.ok [0], guardedCombined) :=
    Prod.ext (by decide +kernel) (by rw [guardedCombined])
  have hregistered : guardedMade.method.registered = [0, 1] := by decide +kernel
  refine ⟨hm, hopening, hcombined, ?_⟩
  obtain ⟨made, s, hmade, -, ⟨result, t, out, hrun, hout⟩, hall⟩ := combination_partitions {} hm
  cases hopening.symm.trans hmade
  cases hcombined.symm.trans hrun
  refine ⟨out, hout, ?_, by decide +kernel⟩
  rw [← hregistered]
  exact (hall out _ hout).1

end Recover

end TryRegions.Recovery
