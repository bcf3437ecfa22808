import TryRegions.Proofs.ClauseOrder
import TryRegions.Proofs.Recovery.ClauseMerge
import TryRegions.Recovery.Grouping

/-! What the regions of a method protect. A handler guards the blocks that it covers outside its own
code. From one region per handler to the regions found at last, a handler that stays has all that it
guards in one region, unless it catches everything or guards nothing. -/

namespace TryRegions

/-- The handler is to catch what the block throws. -/
def Method.Guards (m : Method) (h : HandlerId) (b : BlockId) : Prop :=
  m.graph.isLive b = true ∧ h ∈ Recovery.coverage m.graph b ∧ b ∉ (m.handler h).body

/-- One of the regions lists the handler, once, and holds the blocks that it guards; or none lists
it and it catches everything or guards nothing. -/
def Method.Protected (m : Method) (regions : List RegionId) (h : HandlerId) : Prop :=
  (∃ r, (regions.filter fun r => decide (h ∈ (m.region r).handlers)) = [r] ∧
      ∀ b, m.Guards h b → b ∈ (m.region r).blocks) ∨
    (∀ r ∈ regions, h ∉ (m.region r).handlers) ∧
      ((m.handler h).catchesAll = true ∨ ∀ b, ¬m.Guards h b)

/-- The regions hold no block that is flagged for removal and list no handler that was removed. -/
def Method.Spares (m : Method) (regions : List RegionId) : Prop :=
  ∀ r ∈ regions, (∀ b ∈ (m.region r).blocks, (m.graph.flags b).remove = false) ∧
    ∀ h ∈ (m.region r).handlers, (m.handler h).removed = false

theorem Recovery.coverage_eq (g : Graph) (b : BlockId) :
    coverage g b = (g.catches b).elim [] CatchSet.handlers := rfl

namespace Method

variable {m m' : Method}

/-- A handler guards no more than before, and the regions hold what they held. -/
theorem Protected.mono {regions : List RegionId} {h : HandlerId} (hm : m.Protected regions h)
    (hguards : ∀ b, m'.Guards h b → m.Guards h b)
    (hhandlers : ∀ r, ∀ x, x ∈ (m'.region r).handlers ↔ x ∈ (m.region r).handlers)
    (hblocks : ∀ r, (m'.region r).blocks = (m.region r).blocks)
    (htypes : (m'.handler h).types = (m.handler h).types) : m'.Protected regions h := by
  rcases hm with ⟨r, hone, hheld⟩ | ⟨hnone, hwhy⟩
  · refine Or.inl ⟨r, ?_, fun b hb => ?_⟩
    · simp only [hhandlers]
      exact hone
    · rw [hblocks]
      exact hheld b (hguards b hb)
  · refine Or.inr ⟨fun r hr hh => hnone r hr ((hhandlers r h).mp hh), ?_⟩
    rcases hwhy with hall | hguards'
    · refine Or.inl ?_
      rwa [Handler.catchesAll, htypes]
    · exact Or.inr fun b hb => hguards' b (hguards b hb)

end Method

namespace Recovery

open RecoverM

theorem Trims.guards {s t : State} (h : Trims s t) {x : HandlerId} {b : BlockId}
    (hb : t.method.Guards x b) : s.method.Guards x b := by
  obtain ⟨hlive, hcovered, hbody⟩ := hb
  refine ⟨h.graph.isLive b hlive, ?_, ?_⟩
  · rwa [coverage_eq, h.graph.catches, ← coverage_eq] at hcovered
  · rwa [h.body] at hbody

namespace Covering

variable {lost lost' : HandlerId → Prop} {P : HandlerId → BlockId → Prop}
  {clauses : List HandlerId} {f : Forest} {regions : List RegionId}

theorem empty (lost : HandlerId → Prop) (P : HandlerId → BlockId → Prop) (f : Forest) :
    Covering lost P [] f [] where
  nodup := List.nodup_nil
  lt _ h := absurd h List.not_mem_nil
  handlers_nodup _ h := absurd h List.not_mem_nil
  handlers_ne_nil _ h := absurd h List.not_mem_nil
  blocks_nodup _ h := absurd h List.not_mem_nil
  listed _ h := absurd h List.not_mem_nil
  disjoint _ h := absurd h List.not_mem_nil
  kept _ h := absurd h List.not_mem_nil

/-- Of a handler that is listed it does not matter whether it counts as lost. -/
theorem relax (h : Covering lost P clauses f regions)
    (hlost : ∀ x, (∀ r ∈ regions, x ∉ (f.get r).handlers) → lost x → lost' x) :
    Covering lost' P clauses f regions :=
  { h with
    kept := fun x hx => (h.kept x hx).imp id fun ⟨hnone, hx⟩ => ⟨hnone, hlost x hnone hx⟩ }

end Covering

section Regions

variable {s : State} {E : Violation → State → Prop}

theorem yields_newRegion (hs : s.Sound) {handlers : List HandlerId} {blocks : List BlockId}
    (hentry : ∀ h ∈ handlers, (s.method.handler h).entry.isSome = true)
    (hblocks : ∀ b ∈ blocks, b < s.method.graph.size) :
    Yields (newRegion handlers blocks) s
      (fun r t => Reshapes s t ∧ r = s.method.forest.size ∧
        t.method.forest = s.method.forest.push { number := s.nextRegion, handlers, blocks }) E := by
  refine yields_bind.mpr (yields_get.mpr (yields_bind.mpr (yields_modify.mpr ?_)))
  refine yields_pure.mpr ⟨⟨⟨?_, hs.tree_within⟩, rfl⟩, rfl, rfl⟩
  refine { hs.method with blocks_lt := fun r b hb => ?_, hasEntry := fun r h hh => ?_ }
  · rw [Method.region, Forest.get_push] at hb
    split at hb
    · exact hblocks b hb
    · exact hs.method.blocks_lt r b hb
  · rw [Method.region, Forest.get_push] at hh
    split at hh
    · exact hentry h hh
    · exact hs.method.hasEntry r h hh

/-- One region for each handler, with the blocks that it covers outside its own code. -/
theorem yields_mapM_regionOf (hs : s.Sound) {covered : HandlerId → List BlockId}
    (lost : HandlerId → Prop) {P : HandlerId → BlockId → Prop} {clauses : List HandlerId}
    (hnodup : clauses.Nodup)
    (hentry : ∀ h ∈ clauses, (s.method.handler h).entry.isSome = true)
    (hlt : ∀ h, ∀ b ∈ covered h, b < s.method.graph.size) (hcovered : ∀ h, (covered h).Nodup)
    (hP : ∀ h b, P h b → b ∈ covered h ∧ b ∉ (s.method.handler h).body) :
    Yields (clauses.mapM (regionOf covered)) s
      (fun regions t => Reshapes s t ∧
        Covering lost P clauses t.method.forest regions) E := by
  -- Kept with what is left: the handlers before it have their regions.
  refine (Yields.mapM (E := E) (fun rest out t => Reshapes s t ∧ ∃ done, clauses = done ++ rest ∧
    Covering lost P done t.method.forest out) (fun h rest out t ht => ?_)
    ⟨.refl hs, [], rfl, .empty _ _ _⟩).mono (fun regions t ht => ?_) fun _ _ hv => hv
  · obtain ⟨hreshapes, done, hclauses, cov⟩ := ht
    have hmem : h ∈ clauses := hclauses ▸ List.mem_append_right _ List.mem_cons_self
    have hnew : h ∉ done := by
      intro hdone
      rw [hclauses] at hnodup
      exact (List.nodup_append.mp hnodup).2.2 h hdone h List.mem_cons_self rfl
    refine yields_bind.mpr (yields_method.mpr ?_)
    refine (yields_newRegion hreshapes.sound (fun x hx => ?_) fun b hb => ?_).mono
      (fun r u hu => ?_) fun _ _ hv => hv
    · rw [List.mem_singleton.mp hx, hreshapes.handler]
      exact hentry h hmem
    · rw [hreshapes.graph]
      exact hlt h b (List.mem_filter.mp hb).1
    · obtain ⟨hu, rfl, hforest⟩ := hu
      refine ⟨hreshapes.trans hu, done ++ [h], by rw [hclauses, List.append_assoc]; rfl, ?_⟩
      rw [hforest]
      refine cov.add hnew rfl ((hcovered h).filter _) fun b hb => ?_
      obtain ⟨hb, hbody⟩ := hP h b hb
      exact List.mem_filter.mpr ⟨hb, by rw [hreshapes.handler]; exact decide_eq_true hbody⟩
  · obtain ⟨hreshapes, done, hclauses, cov⟩ := ht
    rw [hclauses, List.append_nil]
    exact ⟨hreshapes, cov⟩

end Regions

/-- The handlers of a region that are not removed. -/
def leftHandlers (m : Method) (r : RegionId) : List HandlerId :=
  (m.region r).handlers.filter fun h => !(m.handler h).removed

/-- The blocks of a region that are not flagged for removal. -/
def leftBlocks (m : Method) (r : RegionId) : List BlockId :=
  (m.region r).blocks.filter fun b => !(m.graph.flags b).remove

def stays (m : Method) (r : RegionId) : Bool :=
  !(leftBlocks m r).isEmpty && !(leftHandlers m r).isEmpty

/-- The regions in `done` hold and list what is left of theirs, the others what they did. -/
structure Cleared (m : Method) (done : List RegionId) (f : Forest) : Prop where
  size : f.size = m.forest.size
  handlers : ∀ q, (f.get q).handlers =
    if q ∈ done then leftHandlers m q else (m.region q).handlers
  blocks : ∀ q, (f.get q).blocks = if q ∈ done then leftBlocks m q else (m.region q).blocks

section Clearing

variable {s t u : State} {E : Violation → State → Prop} {regions done : List RegionId}

theorem Cleared.sameContent {m : Method} {f f' : Forest} (h : Cleared m done f)
    (same : f.SameContent f') : Cleared m done f' :=
  ⟨same.size.trans h.size, fun q => (same.handlers q).trans (h.handlers q),
    fun q => (same.blocks q).trans (h.blocks q)⟩

theorem Cleared.reshapes (hs : s.Sound) (h : Cleared s.method done t.method.forest)
    (hmethod : t.method = { s.method with forest := t.method.forest }) (htree : t.tree = s.tree) :
    Reshapes s t := by
  refine .of_forest hs hmethod htree (fun r b hb => ⟨r, ?_⟩) fun r x hx => ⟨r, ?_⟩
  · rw [h.blocks] at hb
    split at hb
    · exact (List.mem_filter.mp hb).1
    · exact hb
  · rw [h.handlers] at hx
    split at hx
    · exact (List.mem_filter.mp hx).1
    · exact hx

/-- One region more is cleared. -/
theorem Cleared.step {r : RegionId} (hr : r ∉ done) (hst : Reshapes s t)
    (h : Cleared s.method done t.method.forest) (h' : Cleared t.method [r] u.method.forest) :
    Cleared s.method (done ++ [r]) u.method.forest := by
  have hhandlers : leftHandlers t.method r = leftHandlers s.method r := by
    rw [leftHandlers, leftHandlers, hst.handler, Method.region, h.handlers, if_neg hr]
  have hblocks : leftBlocks t.method r = leftBlocks s.method r := by
    rw [leftBlocks, leftBlocks, hst.graph, Method.region, h.blocks, if_neg hr]
  refine ⟨h'.size.trans h.size, fun q => ?_, fun q => ?_⟩
  · rw [h'.handlers]
    by_cases hq : q = r
    · subst hq
      simp [hhandlers]
    · rw [if_neg (by simpa using hq), Method.region, h.handlers]
      simp [hq]
  · rw [h'.blocks]
    by_cases hq : q = r
    · subst hq
      simp [hblocks]
    · rw [if_neg (by simpa using hq), Method.region, h.blocks]
      simp [hq]

theorem cleared_modify {m : Method} {r : RegionId} (hr : r < m.forest.size) :
    Cleared m [r] (m.forest.modify r fun k =>
      { k with blocks := leftBlocks m r, handlers := leftHandlers m r }) := by
  refine ⟨Forest.size_modify _ _ _, fun q => ?_, fun q => ?_⟩
  all_goals
    rw [Forest.get_modify]
    by_cases hq : q = r
    · subst hq
      rw [if_pos ⟨rfl, hr⟩, if_pos List.mem_cons_self]
    · rw [if_neg fun h => hq h.1.symm, if_neg (by simpa using hq)]
      rfl

theorem yields_clearRegion (hs : s.Sound) {r : RegionId} (hr : r < s.method.forest.size) :
    Yields (clearRegion r) s (fun kept t => kept = stays s.method r ∧ Reshapes s t ∧
      Cleared s.method [r] t.method.forest) E := by
  have hrange : ((s.method.region r).blocks.any fun b => decide (s.method.graph.size ≤ b)) =
      false := List.any_eq_false.mpr fun b hb => by
    simpa using hs.method.blocks_lt r b hb
  have cleared := cleared_modify (m := s.method) hr
  refine yields_bind.mpr (yields_method.mpr ?_)
  dsimp only
  rw [hrange]
  refine yields_bind.mpr (yields_modify.mpr ?_)
  split
  · rename_i hstays
    exact yields_pure.mpr ⟨hstays.symm, cleared.reshapes hs rfl rfl, cleared⟩
  · rename_i hgone
    have moved := cleared.sameContent ((Forest.SameContent.unlink _ r).trans
      (.rehang _ (((s.method.forest.modify r fun k =>
        { k with blocks := leftBlocks s.method r, handlers := leftHandlers s.method r }).unlink
          r).get r).inner (s.method.region r).outer))
    refine yields_bind.mpr (yields_method.mpr (yields_bind.mpr (yields_modify.mpr ?_)))
    refine yields_bind.mpr (yields_modify.mpr (yields_pure.mpr ⟨?_, ?_⟩))
    · exact (Bool.eq_false_iff.mpr hgone).symm
    · exact ⟨moved.reshapes hs rfl rfl, moved⟩

theorem yields_filterM_clearRegion (hs : s.Sound) (hnodup : regions.Nodup)
    (hlt : ∀ r ∈ regions, r < s.method.forest.size) :
    Yields (regions.filterM clearRegion) s (fun kept t => kept = regions.filter (stays s.method) ∧
      Reshapes s t ∧ Cleared s.method regions t.method.forest) E := by
  have start : Cleared s.method [] s.method.forest :=
    ⟨rfl, fun q => by simp [Method.region], fun q => by simp [Method.region]⟩
  refine (Yields.filterM (E := E) (fun rest kept t => Reshapes s t ∧ ∃ done,
    regions = done ++ rest ∧ kept = done.filter (stays s.method) ∧
      Cleared s.method done t.method.forest)
    (fun r rest kept t ht => ?_) ⟨.refl hs, [], rfl, rfl, start⟩).mono (fun kept t ht => ?_)
      fun _ _ hv => hv
  · obtain ⟨hst, done, hregions, rfl, cleared⟩ := ht
    have hmem : r ∈ regions := hregions ▸ List.mem_append_right _ List.mem_cons_self
    have hnew : r ∉ done := by
      intro hdone
      rw [hregions] at hnodup
      exact (List.nodup_append.mp hnodup).2.2 r hdone r List.mem_cons_self rfl
    refine (yields_clearRegion hst.sound (by rw [cleared.size]; exact hlt r hmem)).mono
      (fun stay u hu => ?_) fun _ _ hv => hv
    obtain ⟨rfl, htu, cleared'⟩ := hu
    have hstays : stays t.method r = stays s.method r := by
      rw [stays, stays, leftBlocks, leftBlocks, leftHandlers, leftHandlers, hst.handler, hst.graph,
        Method.region, cleared.handlers, cleared.blocks, if_neg hnew, if_neg hnew]
    refine ⟨hst.trans htu, done ++ [r], by rw [hregions, List.append_assoc]; rfl, ?_,
      cleared.step hnew hst cleared'⟩
    rw [hstays, List.filter_append]
    cases hstay : stays s.method r <;> simp [hstay]
  · obtain ⟨hst, done, hregions, rfl, cleared⟩ := ht
    rw [List.append_nil] at hregions
    subst hregions
    exact ⟨rfl, hst, cleared⟩

theorem filter_eq_singleton {α : Type} {l : List α} {p : α → Bool} {a : α} (hl : l.Nodup)
    (ha : a ∈ l) (hp : p a = true) (hunique : ∀ b ∈ l, p b = true → b = a) : l.filter p = [a] := by
  refine List.perm_singleton.mp ((List.perm_ext_iff_of_nodup (hl.filter p)
    (List.nodup_singleton a)).mpr fun b => ?_)
  rw [List.mem_filter, List.mem_singleton]
  exact ⟨fun h => hunique b h.1 h.2, fun h => h ▸ ⟨ha, hp⟩⟩

/-- The regions that stay protect the handlers that stay. -/
theorem Covering.protected_of_cleared {P : HandlerId → BlockId → Prop} {clauses : List HandlerId}
    (cov : Covering s.method.CatchesAll P clauses s.method.forest regions)
    (hP : ∀ h b, s.method.Guards h b → P h b) (htrims : Trims s t)
    (htypes : ∀ h, (t.method.handler h).types = (s.method.handler h).types)
    (cleared : Cleared s.method regions t.method.forest)
    (hflags : ∀ b, t.method.graph.isLive b = true → (s.method.graph.flags b).remove = false)
    {h : HandlerId} (hclause : h ∈ clauses) (hstay : (s.method.handler h).removed = false) :
    t.method.Protected (regions.filter (stays s.method)) h := by
  have hkept : ∀ q ∈ regions.filter (stays s.method), q ∈ regions ∧ stays s.method q = true :=
    fun q hq => List.mem_filter.mp hq
  have hlisted : ∀ q ∈ regions, h ∈ (t.method.region q).handlers ↔
      h ∈ (s.method.region q).handlers := by
    intro q hq
    rw [Method.region, cleared.handlers, if_pos hq, leftHandlers, List.mem_filter]
    simp [hstay]
  have hheld : ∀ q ∈ regions, ∀ b, t.method.Guards h b → b ∈ (s.method.region q).blocks →
      b ∈ leftBlocks s.method q := by
    intro q _ b hb hmem
    exact List.mem_filter.mpr ⟨hmem, by rw [hflags b hb.1]; rfl⟩
  rcases cov.kept h hclause with ⟨r, hr, hmem, hblocks⟩ | ⟨hnone, hall⟩
  · have hunique : ∀ q ∈ regions, h ∈ (t.method.region q).handlers → q = r := by
      intro q hq hq'
      exact cov.disjoint q hq r hr h ((hlisted q hq).mp hq') hmem
    have hguarded : ∀ b, t.method.Guards h b → b ∈ leftBlocks s.method r := fun b hb =>
      hheld r hr b hb (hblocks b (hP h b (htrims.guards hb)))
    by_cases hstays : stays s.method r = true
    · refine Or.inl ⟨r, filter_eq_singleton (cov.nodup.filter _) (List.mem_filter.mpr ⟨hr, hstays⟩)
        ?_ ?_, fun b hb => ?_⟩
      · exact decide_eq_true ((hlisted r hr).mpr hmem)
      · exact fun q hq hq' => hunique q (hkept q hq).1 (of_decide_eq_true hq')
      · rw [Method.region, cleared.blocks, if_pos hr]
        exact hguarded b hb
    · -- The handler is left in the region, so it went for want of blocks.
      have hleft : leftHandlers s.method r ≠ [] :=
        List.ne_nil_of_mem (List.mem_filter.mpr ⟨hmem, by rw [hstay]; rfl⟩)
      have hempty : leftBlocks s.method r = [] := by
        rw [stays, Bool.and_eq_true, not_and_or] at hstays
        simpa [hleft] using hstays
      refine Or.inr ⟨fun q hq hq' => ?_, Or.inr fun b hb => ?_⟩
      · have hqr := hunique q (hkept q hq).1 hq'
        exact hstays (hqr ▸ (hkept q hq).2)
      · have hb' := hguarded b hb
        rw [hempty] at hb'
        cases hb'
  · refine Or.inr ⟨fun q hq hq' => ?_, Or.inl ?_⟩
    · exact hnone q (hkept q hq).1 ((hlisted q (hkept q hq).1).mp hq')
    · rw [Handler.catchesAll, htypes]
      exact hall

theorem yields_clearRegions (hs : s.Sound) {P : HandlerId → BlockId → Prop}
    {clauses : List HandlerId}
    (cov : Covering s.method.CatchesAll P clauses s.method.forest regions)
    (hP : ∀ h b, s.method.Guards h b → P h b) (hclauses : s.method.registered ⊆ clauses) :
    Yields (clearRegions regions) s (fun kept t => Trims s t ∧ (∀ b, ¬t.method.graph.Marked b) ∧
      (∀ r ∈ kept, (t.method.region r).handlers.Nodup) ∧ t.method.Spares kept ∧
      ∀ h ∈ t.method.registered, t.method.Protected kept h) E := by
  refine yields_bind.mpr ((yields_filterM_clearRegion hs cov.nodup cov.lt).mono
    (fun kept t ht => ?_) fun _ _ hv => hv)
  obtain ⟨rfl, hst, cleared⟩ := ht
  have sweep : Prunes (fun _ => False) t _ := prunes_sweep hst.sound
  have htrims := (Trims.of_reshapes hst hs).trans sweep.toTrims
  have wf := hst.sound.method.wellFormed
  refine yields_bind.mpr (yields_modify.mpr (yields_pure.mpr ⟨htrims, ?_, ?_, ?_, ?_⟩))
  · exact Graph.not_marked_detachMarked wf
  · intro r hr
    have hr := (List.mem_filter.mp hr).1
    show (t.method.forest.get r).handlers.Nodup
    rw [cleared.handlers, if_pos hr]
    exact (cov.handlers_nodup r hr).filter _
  · intro r hr
    have hr := (List.mem_filter.mp hr).1
    refine ⟨fun b hb => ?_, fun h hh => ?_⟩
    · show (t.method.graph.detachMarked.flags b).remove = false
      change b ∈ (t.method.forest.get r).blocks at hb
      rw [cleared.blocks, if_pos hr] at hb
      rw [Graph.flags_detachMarked wf, hst.graph]
      simpa using (List.mem_filter.mp hb).2
    · show (t.method.handler h).removed = false
      change h ∈ (t.method.forest.get r).handlers at hh
      rw [cleared.handlers, if_pos hr] at hh
      rw [hst.handler]
      simpa using (List.mem_filter.mp hh).2
  · intro h hh
    obtain ⟨hh, hstay⟩ := List.mem_filter.mp hh
    have hregistered : h ∈ s.method.registered := by
      rw [hst.method] at hh
      exact hh
    refine cov.protected_of_cleared hP htrims (fun x => ?_) cleared (fun b hb => ?_)
      (hclauses hregistered) ?_
    · exact congrArg Handler.types (congrFun hst.handler x)
    · refine Bool.eq_false_iff.mpr fun hremove => ?_
      have hlive := sweep.graph.isLive b hb
      rw [← hst.graph] at hremove
      exact Graph.not_isLive_detachMarked wf ⟨hlive, hremove⟩ hb
    · rw [← hst.handler]
      simpa using hstay

end Clearing

/-- Regions may list their clauses in another order. -/
structure Sorts (s t : State) : Prop extends Reshapes s t where
  handlers : ∀ r, (t.method.region r).handlers.Perm (s.method.region r).handlers
  blocks : ∀ r, (t.method.region r).blocks = (s.method.region r).blocks

instance : IsTrans State Sorts :=
  ⟨fun _ _ _ h h' => ⟨h.toReshapes.trans h'.toReshapes,
    fun r => (h'.handlers r).trans (h.handlers r), fun r => (h'.blocks r).trans (h.blocks r)⟩⟩

section Sorting

variable {s t : State} {V : Violation → Prop}

theorem Sorts.refl (hs : s.Sound) : Sorts s s := ⟨.refl hs, fun _ => .refl _, fun _ => rfl⟩

theorem firstRepeated_eq_none {l : List HandlerId} (h : l.Nodup) : firstRepeated l = none := by
  induction l with
  | nil => rfl
  | cons a l ih =>
    obtain ⟨ha, hl⟩ := List.nodup_cons.mp h
    rw [firstRepeated, if_neg ha, ih hl]

theorem steps_sortClauses (hs : s.Sound) (types : TypeHierarchy) {r : RegionId}
    (hnodup : (s.method.region r).handlers.Nodup) :
    Steps V Sorts (sortClauses types r) s fun _ _ => True := by
  refine steps_method_bind.mpr ?_
  dsimp only
  rw [firstRepeated_eq_none hnodup]
  have hget : ∀ q, ((s.method.forest.modify r fun k => { k with
      handlers := ClauseOrder.order types s.method.handler (s.method.region r).handlers }).get
        q).handlers.Perm (s.method.region q).handlers ∧
      ((s.method.forest.modify r fun k => { k with
        handlers := ClauseOrder.order types s.method.handler (s.method.region r).handlers }).get
          q).blocks = (s.method.region q).blocks := by
    intro q
    rw [Forest.get_modify]
    split
    · rename_i hq
      rw [hq.1]
      exact ⟨ClauseOrder.order_perm types s.method.handler _, rfl⟩
    · exact ⟨.refl _, rfl⟩
  refine .modify ⟨.of_forest hs rfl rfl (fun q b hb => ⟨q, ?_⟩) fun q h hh => ⟨q, ?_⟩,
    fun q => (hget q).1, fun q => (hget q).2⟩ trivial
  · rwa [← (hget q).2]
  · exact (hget q).1.mem_iff.mp hh

theorem Sorts.protected (h : Sorts s t) {regions : List RegionId} {x : HandlerId}
    (hx : s.method.Protected regions x) : t.method.Protected regions x := by
  refine hx.mono (fun b hb => ?_) (fun r y => (h.handlers r).mem_iff) h.blocks ?_
  · rwa [Method.Guards, h.graph, h.handler] at hb
  · rw [h.handler]

theorem Sorts.spares (h : Sorts s t) {regions : List RegionId} (hs : s.method.Spares regions) :
    t.method.Spares regions := by
  intro r hr
  rw [h.blocks, h.graph, h.handler]
  exact ⟨(hs r hr).1, fun x hx => (hs r hr).2 x ((h.handlers r).mem_iff.mp hx)⟩

end Sorting

/-- What grouping leaves: handlers and blocks are taken away, none that is marked is left, and the
regions spare what is left and protect the handlers that stay, which have their entries. -/
structure Grouped (s : State) (regions : List RegionId) (t : State) : Prop extends Trims s t where
  unmarked : ∀ b, ¬t.method.graph.Marked b
  spares : t.method.Spares regions
  hasEntry : ∀ h ∈ t.method.registered, (t.method.handler h).entry.isSome = true
  protects : ∀ h ∈ t.method.registered, t.method.Protected regions h

/-- The first part of grouping: handlers without a use go. The result is what handlers covered
before. -/
def dropHandlers : RecoverM (HandlerId → List BlockId) := do
  let start ← method
  let covered := coveredBlocks start.graph
  start.registered.forM fun h =>
    record (.inputHandler (start.handlerText h) (covered h) (start.handler h).body)
  if start.graph.live.all fun b => (coverage start.graph b).isEmpty then
    start.registered.forM removeHandler
  else
    start.registered.forM (dropUnreachable covered)
  modifyMethod fun m => { m with graph := m.graph.detachMarked }.forgetRemoved
  return covered

/-- The second part of grouping: the handlers that are left get their regions. -/
def makeRegions (types : TypeHierarchy) (covered : HandlerId → List BlockId)
    (handlers : List HandlerId) : RecoverM (List RegionId) := do
  let regions ← handlers.mapM (regionOf covered)
  let regions ← combineAll regions.length regions
  mergeAllClauses regions
  let regions ← clearRegions regions
  regions.forM (sortClauses types)
  let m ← method
  regions.forM fun r => record (.resultRegion (m.regionText r))
  return regions

theorem group_eq (types : TypeHierarchy) :
    group types = dropHandlers >>= fun covered => method >>= fun m =>
      if m.registered.isEmpty then pure [] else makeRegions types covered m.registered := by
  unfold group dropHandlers makeRegions
  simp only [bind_assoc]
  refine congrArg (bind method) (funext fun start => congrArg (bind _) (funext fun _ => ?_))
  split
  · simp only [bind_assoc, pure_bind]
  · simp only [bind_assoc, pure_bind]

section Group

variable {s : State} {E : Violation → State → Prop}

/-- Handlers that stay registered have their entries. -/
theorem yields_dropAll (hs : s.Sound) (hlt : ∀ h ∈ s.method.registered, h < s.method.handlers.size)
    {step : HandlerId → RecoverM Unit}
    (hstep : ∀ t, t.Sound → ∀ h < t.method.handlers.size,
      Yields (step h) t (fun _ u => Prunes (fun _ => False) t u ∧
        ((u.method.handler h).removed = true ∨ (u.method.handler h).entry.isSome = true)) E) :
    Yields (s.method.registered.forM step) s (fun _ t => Prunes (fun _ => False) s t ∧
      ∀ h ∈ s.method.registered, (t.method.handler h).removed = true ∨
        (t.method.handler h).entry.isSome = true) E := by
  refine (Yields.forM (E := E) (fun rest t => Prunes (fun _ => False) s t ∧
    (∀ h ∈ rest, h ∈ s.method.registered) ∧ ∀ h ∈ s.method.registered, h ∈ rest ∨
      (t.method.handler h).removed = true ∨ (t.method.handler h).entry.isSome = true)
    (fun h rest t ht => ?_) ⟨.refl hs, fun _ hh => hh, fun _ hh => Or.inl hh⟩).mono
      (fun _ t ht => ⟨ht.1, fun h hh => (ht.2.2 h hh).resolve_left List.not_mem_nil⟩)
      fun _ _ hv => hv
  obtain ⟨hst, hsub, hdone⟩ := ht
  have hsize : h < t.method.handlers.size := by
    rw [hst.handlers_size]
    exact hlt h (hsub h List.mem_cons_self)
  refine (hstep t hst.sound h hsize).mono (fun _ u hu => ?_) fun _ _ hv => hv
  refine ⟨hst.trans hu.1, fun x hx => hsub x (List.mem_cons_of_mem _ hx), fun x hx => ?_⟩
  rcases hdone x hx with hmem | hremoved | hentry
  · rcases List.mem_cons.mp hmem with rfl | hmem
    · exact Or.inr hu.2
    · exact Or.inl hmem
  · exact Or.inr (Or.inl (hu.1.removed x hremoved))
  · exact Or.inr (Or.inr (by rwa [hu.1.entry]))

theorem coveredBlocks_nodup {g : Graph} (wf : g.WellFormed) (h : HandlerId) :
    (coveredBlocks g h).Nodup :=
  (wf.live_ascending.imp fun hlt => Nat.ne_of_lt hlt).filter _

theorem mem_coveredBlocks {g : Graph} (wf : g.WellFormed) {h : HandlerId} {b : BlockId} :
    b ∈ coveredBlocks g h ↔ g.isLive b = true ∧ h ∈ coverage g b := by
  rw [coveredBlocks, List.mem_filter, decide_eq_true_iff, wf.mem_live]

/-- Handlers without a use go, and those that stay have their entries. -/
theorem yields_dropHandlers (hs : s.Sound)
    (hlt : ∀ h ∈ s.method.registered, h < s.method.handlers.size) :
    Yields dropHandlers s (fun covered t => covered = coveredBlocks s.method.graph ∧
      Prunes (fun _ => False) s t ∧ (∀ b, ¬t.method.graph.Marked b) ∧
      ∀ h ∈ t.method.registered, (t.method.handler h).entry.isSome = true) E := by
  refine yields_bind.mpr (yields_method.mpr (yields_bind.mpr ?_))
  refine yields_forM_record _ _ fun log => ?_
  have hlog : ({ s with log } : State).Sound := ⟨hs.method, hs.tree_within⟩
  refine yields_ite_bind.mpr (yields_bind.mpr ?_)
  have hdrop : Yields (if
      (s.method.graph.live.all fun b => (coverage s.method.graph b).isEmpty) = true
      then s.method.registered.forM removeHandler
      else s.method.registered.forM (dropUnreachable (coveredBlocks s.method.graph))) { s with log }
      (fun _ t => Prunes (fun _ => False) { s with log } t ∧ ∀ h ∈ s.method.registered,
        (t.method.handler h).removed = true ∨ (t.method.handler h).entry.isSome = true) E := by
    split
    · refine yields_dropAll hlog hlt fun t ht h hh => ?_
      exact (steps_removeHandler ht h).yields.mono (fun _ u hu => ⟨hu.1, Or.inl (hu.2 hh)⟩)
        fun _ _ hv => hv
    · exact yields_dropAll hlog hlt fun t ht h hh => (steps_dropUnreachable ht _ hh).yields
  refine hdrop.mono (fun _ t ht => ?_) fun _ _ hv => hv
  obtain ⟨hst, hentry⟩ := ht
  have sweep : Prunes (fun _ => False) t _ := prunes_sweep hst.sound
  have hsu := hst.trans sweep
  refine yields_bind.mpr (yields_modify.mpr (yields_pure.mpr ⟨rfl, { hsu with graph := hsu.graph },
    Graph.not_marked_detachMarked hst.sound.method.wellFormed, fun h hh => ?_⟩))
  obtain ⟨hh, hstay⟩ := List.mem_filter.mp hh
  have hstay : (t.method.handler h).removed = false := Bool.not_eq_eq_eq_not.mp hstay
  exact (hentry h (hst.registered.subset hh)).resolve_left (by simp [hstay])

/-- Regions for the registered handlers, which all have entries, that protect them. -/
theorem yields_makeRegions (types : TypeHierarchy) {u : State} (hs : s.Sound)
    (hsu : Prunes (fun _ => False) s u) (hnodup : u.method.registered.Nodup)
    (hentry : ∀ h ∈ u.method.registered, (u.method.handler h).entry.isSome = true) :
    Yields (makeRegions types (coveredBlocks s.method.graph) u.method.registered) u
      (Grouped s) E := by
  have wf := hs.method.wellFormed
  refine yields_bind.mpr ((yields_mapM_regionOf (P := s.method.Guards) hsu.sound
    u.method.CatchesAll hnodup hentry (fun h b hb => ?_) (coveredBlocks_nodup wf)
    fun h b hb => ?_).mono (fun regions t₁ h₁ => ?_) fun _ _ hv => hv)
  · rw [hsu.graph.size]
    exact Graph.lt_of_isLive ((mem_coveredBlocks wf).mp hb).1
  · exact ⟨(mem_coveredBlocks wf).mpr ⟨hb.1, hb.2.1⟩, by rw [hsu.body]; exact hb.2.2⟩
  obtain ⟨hshape₁, cov⟩ := h₁
  rw [← hshape₁.catchesAll] at cov
  refine yields_bind.mpr ((yields_combineAll regions.length hshape₁.sound cov).mono
    (fun regions t₂ h₂ => ?_) fun _ _ hv => hv)
  obtain ⟨hshape₂, cov⟩ := h₂
  rw [← hshape₂.catchesAll] at cov
  have htrims₂ := hsu.toTrims.trans (.of_reshapes (hshape₁.trans hshape₂) hsu.sound)
  have hmerge : Steps (fun _ => False)
      (Prunes fun h => ∃ r ∈ regions, h ∈ (t₂.method.region r).handlers)
      (mergeAllClauses regions) t₂ fun _ _ => True :=
    steps_mergeAllClauses hshape₂.sound fun r hr h hh => ⟨r, hr, hh⟩
  refine yields_bind.mpr (hmerge.yields.mono (fun _ t₃ h₃ => ?_) fun _ _ hv => hv)
  obtain ⟨hprunes, -⟩ := h₃
  have cov₃ : Covering t₃.method.CatchesAll s.method.Guards u.method.registered t₃.method.forest
      regions := by
    rw [hprunes.forest]
    refine cov.relax fun x hx hall => ?_
    have htypes := hprunes.types x fun ⟨r, hr, hmem⟩ => hx r hr hmem
    rwa [Method.CatchesAll, Handler.catchesAll, htypes]
  have htrims₃ := htrims₂.trans hprunes.toTrims
  have hregistered : t₃.method.registered ⊆ u.method.registered := by
    have hsub := hprunes.registered.subset
    rwa [hshape₂.method, hshape₁.method] at hsub
  refine yields_bind.mpr ((yields_clearRegions hprunes.sound cov₃ (fun _ _ => htrims₃.guards)
    hregistered).mono (fun kept t₄ h₄ => ?_) fun _ _ hv => hv)
  obtain ⟨htrims₄, hmarked, hlists, hspares, hprotected⟩ := h₄
  have hsort : Steps (fun _ => False) Sorts (kept.forM (sortClauses types)) t₄ fun _ _ => True :=
    .forM (.refl htrims₄.sound) fun r hr t ht =>
      steps_sortClauses ht.sound types ((ht.handlers r).nodup_iff.mpr (hlists r hr))
  refine yields_bind.mpr (hsort.yields.mono (fun _ t₅ h₅ => ?_) fun _ _ hv => hv)
  obtain ⟨hsorts, -⟩ := h₅
  refine yields_bind.mpr (yields_method.mpr (yields_bind.mpr ?_))
  have htrims₅ := (htrims₃.trans htrims₄).trans (.of_reshapes hsorts.toReshapes htrims₄.sound)
  have hstay : ∀ h ∈ t₅.method.registered, h ∈ t₄.method.registered := fun h hh => by
    rwa [hsorts.method] at hh
  refine yields_forM_record _ _ fun log => yields_pure.mpr ?_
  constructor
  case toTrims =>
    exact { htrims₅ with sound := ⟨htrims₅.sound.method, htrims₅.sound.tree_within⟩ }
  case unmarked =>
    show ∀ b, ¬t₅.method.graph.Marked b
    rw [hsorts.graph]
    exact hmarked
  case spares => exact hsorts.spares hspares
  case hasEntry =>
    intro h hh
    show (t₅.method.handler h).entry.isSome = true
    rw [htrims₅.entry, ← hsu.entry]
    exact hentry h (hregistered (htrims₄.registered.subset (hstay h hh)))
  case protects => exact fun h hh => hsorts.protected (hprotected h (hstay h hh))

/-- Grouping meets no fault and no violation. -/
theorem yields_group (types : TypeHierarchy) (hs : s.Sound) (hnodup : s.method.registered.Nodup)
    (hlt : ∀ h ∈ s.method.registered, h < s.method.handlers.size) :
    Yields (group types) s (Grouped s) E := by
  rw [group_eq]
  refine yields_bind.mpr ((yields_dropHandlers hs hlt).mono ?_ fun _ _ hv => hv)
  rintro _ t ⟨rfl, hst, hmarked, hentry⟩
  refine yields_bind.mpr (yields_method.mpr ?_)
  split
  · rename_i hempty
    have hnone : ∀ h, h ∉ t.method.registered := by simp [List.isEmpty_iff.mp hempty]
    exact yields_pure.mpr ⟨hst.toTrims, hmarked, nofun, fun h hh => absurd hh (hnone h),
      fun h hh => absurd hh (hnone h)⟩
  · exact yields_makeRegions types hs hst (hnodup.sublist hst.registered) hentry

end Group

end Recovery

end TryRegions
