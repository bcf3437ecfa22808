import TryRegions.Proofs.Recovery.Combination
import TryRegions.Proofs.Recovery.Passage

/-! Exceptional edges. When entries are set up, nothing leads to them any more, and grouping adds no
edge. From then on all that leads to an entry starts at a splitter or goes on over a block that was
put in front of the entry. So each region ends with a splitter from which new blocks at most lie
before its clauses, and an entry ends with new blocks before it only. -/

open Relation

namespace TryRegions

namespace Recovery

open RecoverM TryRegions.Graph

variable {m : Method} {n : Nat} {regions : List RegionId} {tidy : Prop} {s t : State}

section Entries

/-- Nothing leads to the entries of handlers. -/
def State.Secluded (s : State) : Prop :=
  ∀ h e, (s.method.handler h).entry = some e →
    e < s.method.graph.size ∧ s.method.graph.preds e = []

theorem entry_modifyHandler {h x : HandlerId} {f : Handler → Handler} {e : BlockId}
    (he : ((m.modifyHandler h f).handler x).entry = some e) :
    (m.handler x).entry = some e ∨ (f (m.handler h)).entry = some e := by
  rw [Method.handler_modifyHandler] at he
  split at he
  · rename_i hx
    rw [← hx.1] at he
    exact Or.inr he
  · exact Or.inl he

/-- A block becomes an entry when nothing leads to it, and a stand-in leads to a block that is no
entry: something else leads there too. -/
theorem State.Secluded.step (hs : s.Secluded) (wf : s.method.graph.WellFormed)
    (h : Entering s t) : t.Secluded := by
  intro x e he
  cases h with
  | note h =>
    rw [h.entry] at he
    rw [h.annotated.size, h.annotated.preds]
    exact hs x e he
  | disconnect hcut =>
    obtain ⟨-, rfl⟩ := disconnect_eq_ok.mp hcut
    obtain ⟨hlt, hnone⟩ := hs x e he
    rw [State.graph_withGraph, size_removeEdge]
    refine ⟨hlt, List.eq_nil_iff_forall_not_mem.mpr fun a ha => ?_⟩
    have hold := (wf.mem_preds_removeEdge.mp ha).1
    rw [hnone] at hold
    cases hold
  | @own b h hlive hpreds =>
    have hflow := annotated_modify_handler s.method.graph b h
    have hentry : e < s.method.graph.size ∧ s.method.graph.preds e = [] := by
      rcases entry_modifyHandler he with hold | hnew
      · exact hs x e hold
      · cases hnew
        exact ⟨lt_of_isLive hlive, hpreds⟩
    exact ⟨hflow.size ▸ hentry.1, (hflow.preds e).trans hentry.2⟩
  | @collect b h blocks hentry hlive hdom =>
    rcases entry_modifyHandler he with hold | hnew
    · exact hs x e hold
    · rw [foldl_addBlock_entry] at hnew
      exact hs h e hnew
  | @standIn b h offset hlive hpreds =>
    obtain ⟨wf', hsuccs⟩ := withStandIn_rewired offset h wf (lt_of_isLive hlive)
    have hnew : (s.method.graph.withStandIn b offset h).isLive s.method.graph.size = true :=
      (isLive_withStandIn offset h _).mpr (Or.inl rfl)
    have hsize := lt_of_isLive hnew
    rcases entry_modifyHandler he with hold | hmade
    · obtain ⟨hlt, hnone⟩ := hs x e hold
      refine ⟨Nat.lt_trans hlt hsize, List.eq_nil_iff_forall_not_mem.mpr fun a ha => ?_⟩
      rcases (hsuccs a e).mp ((wf'.mirrored a e).mpr ha) with hedge | ⟨-, rfl⟩
      · have hedge := (wf.mirrored a e).mp hedge
        rw [hnone] at hedge
        cases hedge
      · exact hpreds hnone
    · cases hmade
      refine ⟨hsize, List.eq_nil_iff_forall_not_mem.mpr fun a ha => ?_⟩
      rcases (hsuccs a _).mp ((wf'.mirrored a _).mpr ha) with hedge | ⟨-, rfl⟩
      · exact Nat.lt_irrefl _ (wf.succs_lt a _ hedge)
      · exact Nat.lt_irrefl _ (lt_of_isLive hlive)

theorem State.Secluded.run (hs : s.Secluded) (wf : s.method.graph.WellFormed)
    (h : ReflTransGen Entering s t) : t.Secluded := by
  induction h with
  | refl => exact hs
  | tail hrun hstep ih =>
    exact ih.step (wellFormed_of_edits (quiet_of_enters hrun).graph wf) hstep

/-- Setting up entries makes no splitter. -/
theorem Entering.isSplitter (h : Entering s t) {b : BlockId} (hb : t.method.graph.IsSplitter b) :
    s.method.graph.IsSplitter b := by
  cases h with
  | note h => exact (isSplitter_congr (h.flags b)).mp hb
  | disconnect hcut =>
    obtain ⟨-, rfl⟩ := disconnect_eq_ok.mp hcut
    refine (isSplitter_congr ?_).mp hb
    rw [State.graph_withGraph, flags_eq_core, core_removeEdge, ← flags_eq_core]
  | @own c h hlive hpreds =>
    have hsame : (s.method.graph.modify c fun k => { k with handler := some h }).IsSplitter b ↔
        s.method.graph.IsSplitter b :=
      isSplitter_iff_of_map (map_block?_modify _ s.method.graph c b _ fun _ => rfl)
    exact hsame.mp hb
  | collect hentry hlive hdom => exact hb
  | @standIn c h offset hlive hpreds =>
    rw [IsSplitter, flags_eq_core, core_withStandIn] at hb
    split at hb
    · simp at hb
    · rwa [IsSplitter, flags_eq_core]

theorem isSplitter_of_enters (h : ReflTransGen Entering s t) {b : BlockId}
    (hb : t.method.graph.IsSplitter b) : s.method.graph.IsSplitter b := by
  induction h with
  | refl => exact hb
  | tail _ hstep ih => exact ih (hstep.isSplitter hb)

/-- Edges that are taken away lead to no entry. -/
theorem State.Secluded.culled (hs : s.Secluded) (wf : s.method.graph.WellFormed)
    (h : Culled s t) (hcuts : ReflTransGen Cut s.method.graph t.method.graph) : t.Secluded := by
  have wf' := wellFormed_of_edits (ReflTransGen.mono (fun _ _ => Edit.cut) _ _ hcuts) wf
  intro x e he
  rw [h.entry] at he
  obtain ⟨hlt, hnone⟩ := hs x e he
  refine ⟨h.size ▸ hlt, List.eq_nil_iff_forall_not_mem.mpr fun a ha => ?_⟩
  have hold := (wf.mirrored a e).mp (mem_succs_of_cuts hcuts wf ((wf'.mirrored a e).mpr ha))
  rw [hnone] at hold
  cases hold

end Entries

section Wiring

/-- While regions are wired, no way over new blocks leads to an entry past all splitters, and the
new blocks are live. -/
structure State.Sealed (n : Nat) (s : State) : Prop where
  entry_lt : ∀ h e, (s.method.handler h).entry = some e → e < n
  isLive : ∀ b, n ≤ b → b < s.method.graph.size → s.method.graph.isLive b = true
  past : ∀ h e, (s.method.handler h).entry = some e → ∀ u < n,
    ¬s.method.graph.Ways (fun w => n ≤ w ∧ ¬s.method.graph.IsSplitter w) u e

theorem Joining.isLive_new (h : Joining n regions tidy s t) (wf : s.method.graph.WellFormed)
    {b : BlockId} (hnew : s.method.graph.size ≤ b) (hb : b < t.method.graph.size) :
    t.method.graph.isLive b = true := by
  have hsame : t.method.graph.size = s.method.graph.size → t.method.graph.isLive b = true :=
    fun hsize => absurd (hsize ▸ hb) (Nat.not_lt.mpr hnew)
  cases h with
  | note h => exact hsame h.annotated.size
  | flag hnew => exact hsame (size_modify ..)
  | newBlock =>
    rw [State.graph_withGraph, size_newBlock] at hb
    exact (isLive_newBlock _ b).mpr (Or.inl (Nat.le_antisymm (Nat.le_of_lt_succ hb) hnew))
  | connect hedit htied hlive =>
    obtain ⟨-, rfl⟩ := connect_eq_ok.mp hedit
    exact hsame (size_addEdge ..)
  | split hedit hlive =>
    obtain ⟨hlt, rfl⟩ := splitTop_eq_ok.mp hedit
    rw [State.graph_withGraph, size_splitAbove wf hlt] at hb
    exact (isLive_splitAbove wf hlt b).mpr
      (Or.inl (Nat.le_antisymm (Nat.le_of_lt_succ hb) hnew))
  | turn hold hne hedit hnew hplain hout hlive =>
    obtain ⟨-, rfl⟩ := reconnect_eq_ok.mp hedit
    exact hsame (size_redirect ..)
  | attach hr hb hlt hhome => exact hsame (size_modify ..)
  | tie hsynthetic htop hclauses => exact hsame rfl

theorem State.Sealed.step (hs : s.Sealed n) (ready : Ready n regions tidy s)
    (h : Joining n regions tidy s t) : t.Sealed n := by
  have wf := ready.wellFormed
  have joined := h.joined wf
  constructor
  case entry_lt =>
    intro x e he
    rw [joined.entry] at he
    exact hs.entry_lt x e he
  case isLive =>
    intro b hn hb
    by_cases hlt : b < s.method.graph.size
    · exact joined.isLive b (hs.isLive b hn hlt)
    · exact h.isLive_new wf (Nat.le_of_not_lt hlt) hb
  case past =>
    intro x e he u hu hway
    rw [joined.entry] at he
    apply hs.past x e he u hu
    exact (h.redraws wf).way_past wf ready.le_size ready.splitters (fun _ => joined.isSplitter) hu
      (hs.entry_lt x e he) hway

/-- Where nothing leads to entries, no way does. -/
theorem State.Secluded.sealed (hs : s.Secluded) (wf : s.method.graph.WellFormed) :
    s.Sealed s.method.graph.size where
  entry_lt x e he := (hs x e he).1
  isLive b hn hb := absurd hb (Nat.not_lt.mpr hn)
  past x e he u hu hway := by
    cases hway with
    | edge hedge =>
      have hpred := (wf.mirrored u e).mp hedge
      rw [(hs x e he).2] at hpred
      cases hpred
    | via hedge hw _ => exact absurd (wf.succs_lt u _ hedge) (Nat.not_lt.mpr hw.1)

end Wiring

section Finish

theorem Noted.marked (h : Noted s t) (hmarked : ∀ b, ¬s.method.graph.Marked b) (b : BlockId) :
    ¬t.method.graph.Marked b := by
  rintro ⟨hlive, hflag⟩
  rw [h.annotated.isLive] at hlive
  rw [h.flags] at hflag
  exact hmarked b ⟨hlive, hflag⟩

theorem notes_dropMonitorExits (h : HandlerId) :
    Moves Noted (dropMonitorExits h) s fun _ _ => True := by
  refine .of_method (.each fun b _ t _ => .of_block fun k _ => ?_)
  refine Moves.andThen (.each fun _ _ u _ => .modify (.record u _) trivial) fun _ u _ => ?_
  exact .modify (.modify u b (fun _ => ⟨rfl, rfl, rfl⟩) fun _ => rfl) trivial

/-- The end of a recovery leaves edges, flags and regions as they are. -/
theorem notes_finish (wf : s.method.graph.WellFormed) (hmarked : ∀ b, ¬s.method.graph.Marked b)
    (regions : List RegionId) : Moves Noted (finish regions) s fun _ _ => True := by
  have hset : Noted s { s with
      method := { s.method with regions, graph := s.method.graph.refreshAll } } :=
    { Noted.refreshAll s with
      toQuiet := .annotated (.refreshAll _) rfl rfl rfl
      extent := fun _ => rfl
      forest := rfl }
  refine Moves.andThen (Q := fun _ _ => True) (.modify hset trivial) fun _ t ht => .of_method ?_
  refine Moves.andThen (.each fun h _ _ _ => notes_dropMonitorExits h) fun _ u hu => ?_
  have noted := ht.trans hu
  have hself : u.method.graph.detachMarked = u.method.graph := by
    apply detachMarked_eq_self
    · exact wellFormed_of_edits (noted.toQuiet.mono fun _ _ => .cut).graph wf
    · exact noted.marked hmarked
  refine .modify ?_ trivial
  show Noted u (u.withGraph u.method.graph.detachMarked.refreshAll)
  rw [hself]
  exact .refreshAll u

end Finish

variable {c : Config}

namespace Passage

variable (p : Passage c m) (hm : m.Fresh)
include hm

theorem secluded : p.grouped.Secluded := by
  have wf := (p.sound_start hm).method.wellFormed
  have hstart : p.start.Secluded := by
    intro x e he
    rw [p.start_method] at he
    cases (hm.entry x).symm.trans he
  have henters := ((enters_setUpEntries wf).ok p.enters).1
  have hentered := hstart.run wf henters
  exact hentered.culled (wellFormed_of_edits (quiet_of_enters henters).graph wf) (p.culled hm)
    (traced_of_regroups (p.regroups hm)).graph

theorem not_isSplitter (hplain : ∀ b, ¬m.graph.IsSplitter b) (b : BlockId) :
    ¬p.grouped.method.graph.IsSplitter b := by
  intro hb
  rw [(p.culled hm).isSplitter] at hb
  have henters := ((enters_setUpEntries (p.sound_start hm).method.wellFormed).ok p.enters).1
  have hstart := isSplitter_of_enters henters hb
  rw [p.start_method] at hstart
  exact hplain b ((m.graph.isSplitter_promoted b).mp hstart)

theorem size_le : m.graph.size ≤ p.grouped.method.graph.size := by
  have hle := (p.prepares hm).graph.size_le
  rw [p.start_method] at hle
  rw [(p.culled hm).size]
  exact Nat.le_trans (Nat.le_of_eq m.graph.sameFlow_promoted.size.symm) hle

theorem notes_final : Noted p.wired p.final := by
  have hwires := ((steps_wire (V := fun _ => True) (p.grouping hm).sound (fun _ _ => trivial)
    c.limitFactor p.regions).ok p.wires).1
  exact ((notes_finish hwires.sound.method.wellFormed
    (hwires.graph.not_marked (p.grouping hm).unmarked) p.regions).ok p.finishes).1

variable (hplain : ∀ b, ¬m.graph.IsSplitter b)
include hplain

theorem ready : Ready p.grouped.method.graph.size p.regions False p.grouped where
  wellFormed := (p.grouping hm).sound.method.wellFormed
  le_size := Nat.le_refl _
  splitters b hb := absurd hb (p.not_isSplitter hm hplain b)
  settled := False.elim

theorem sealed : p.wired.Sealed p.grouped.method.graph.size := by
  have ready := p.ready hm hplain
  apply ready.keeps (I := State.Sealed p.grouped.method.graph.size) State.Sealed.step
  · exact ((joins_wire ready c.limitFactor).ok p.wires).1
  · exact (p.secluded hm).sealed ready.wellFormed

/-- Every region is tied to a live splitter, which stays so to the end. -/
theorem exists_splitter {r : RegionId} (hr : r ∈ p.regions) :
    ∃ b, (p.final.method.region r).topSplitter = some b ∧
      p.final.method.graph.isLive b = true ∧
      (p.final.method.graph.flags b).synthetic = true ∧
      (p.final.method.graph.flags b).topSplitter = true ∧
      ∀ o, ReflTransGen p.final.method.forest.Under r o →
        ∀ h ∈ (p.final.method.region o).handlers,
          ∃ e, (p.final.method.handler h).entry = some e ∧
            p.final.method.graph.Ways (m.graph.size ≤ ·) b e := by
  have ready := p.ready hm hplain
  have noted := p.notes_final hm
  have hsealed := p.sealed hm hplain
  obtain ⟨hjoins, hfinished⟩ := (joins_wire ready c.limitFactor).ok p.wires
  have joined := ready.joined hjoins
  have nested := (nested_of_group p.groups).sameNesting joined.nesting
  obtain ⟨b, hb⟩ := (hfinished r hr).tied (nested.bounds r hr).2
  have hsplitter : p.wired.method.graph.IsSplitter b := Or.inl hb.isTop
  refine ⟨b, ?_, ?_, ?_, ?_, fun o ho h hh => ?_⟩
  · rw [noted.region, hb.topSplitter]
  · rw [noted.annotated.isLive]
    exact hsealed.isLive b ((ready.run hjoins).splitters b hsplitter) hsplitter.lt
  · rw [noted.flags, hb.synthetic]
  · rw [noted.flags, hb.isTop]
  · rw [noted.forest, ← nested.mem_chain_iff hr] at ho
    rw [noted.region] at hh
    have hsome : (p.wired.method.handler h).entry.isSome = true := by
      rw [Method.region, joined.content.handlers] at hh
      rw [joined.entry]
      exact (p.grouping hm).sound.method.hasEntry o h hh
    obtain ⟨e, he⟩ := Option.isSome_iff_exists.mp hsome
    refine ⟨e, (noted.entry h).trans he, ?_⟩
    have hway := hb.clauses e (hsealed.entry_lt h e he) ⟨o, ho, h, hh, he⟩
    apply hway.replace fun w hw => Nat.le_trans (p.size_le hm) hw
    intro x y hxy
    exact .edge ((noted.annotated.succs x).symm ▸ hxy)

/-- An edge to an entry from a block that was there would be a way past all splitters. -/
theorem size_le_of_mem_preds {h : HandlerId} {e a : BlockId}
    (he : (p.final.method.handler h).entry = some e) (ha : a ∈ p.final.method.graph.preds e) :
    m.graph.size ≤ a := by
  have ready := p.ready hm hplain
  have noted := p.notes_final hm
  have wf := (ready.run ((joins_wire ready c.limitFactor).ok p.wires).1).wellFormed
  rw [noted.entry] at he
  rw [noted.annotated.preds, ← wf.mirrored] at ha
  apply Nat.le_trans (p.size_le hm)
  apply Nat.le_of_not_lt
  intro hold
  exact (p.sealed hm hplain).past h e he a hold (.edge ha)

end Passage

/-- After a recovery that succeeds, each region has a live splitter from which a way over new blocks
leads to the entry of each clause of the region and of those around it. What leads to the entry of a
handler is new. -/
theorem process_reaches_clauses (c : Config) {m : Method} (hm : m.Fresh) (hregions : m.regions = [])
    (hplain : ∀ b, ¬m.graph.IsSplitter b) {handled : Bool}
    (hok : (process c m).result = .ok handled) :
    (∀ r ∈ (process c m).method.regions, ∃ b,
      ((process c m).method.region r).topSplitter = some b ∧
      (process c m).method.graph.isLive b = true ∧
      ((process c m).method.graph.flags b).synthetic = true ∧
      ((process c m).method.graph.flags b).topSplitter = true ∧
      ∀ o, ReflTransGen (process c m).method.forest.Under r o →
        ∀ h ∈ ((process c m).method.region o).handlers,
          ∃ e, ((process c m).method.handler h).entry = some e ∧
            (process c m).method.graph.Ways (m.graph.size ≤ ·) b e) ∧
    ∀ h e, ((process c m).method.handler h).entry = some e →
      ∀ a ∈ (process c m).method.graph.preds e, m.graph.size ≤ a := by
  rcases passage_of_ok hok with ⟨-, hmethod⟩ | ⟨⟨p⟩⟩
  · -- Without handlers there is neither a region nor an entry.
    rw [hmethod, hregions]
    refine ⟨fun r hr => absurd hr List.not_mem_nil, fun h e he => ?_⟩
    rw [hm.entry] at he
    cases he
  · rw [p.method, (p.wires_final hm).2]
    exact ⟨fun r hr => p.exists_splitter hm hplain hr,
      fun h e he a ha => p.size_le_of_mem_preds hm hplain he ha⟩

/-- Block 1 is covered by handlers 0 and 1, and the code of handler 1 by handler 0. -/
def nestedClauses : Method where
  name := "m"
  graph :=
    { blocks := #[
        { offset := 0, succs := [1] },
        { offset := 2, instrs := [{ opcode := .invoke, offset := 2, catches := some ⟨[0, 1]⟩ }],
          preds := [0], succs := [2, 3, 4] },
        { offset := 4, preds := [1, 3, 4] },
        { offset := 6, instrs := [
            { opcode := .moveException, offset := 6, entry := some 1 },
            { opcode := .invoke, offset := 7, catches := some ⟨[0]⟩ }],
          preds := [1], succs := [2], tmpEdge := some 1 },
        { offset := 10, instrs := [{ opcode := .moveException, offset := 10, entry := some 0 }],
          preds := [1], succs := [2], tmpEdge := some 1 }]
      live := [0, 1, 2, 3, 4] }
  enter := some 0
  handlers := #[{ number := 0, offset := 10, types := ["E"] },
    { number := 1, offset := 6, types := ["F"] }]
  registered := [0, 1]

/-- Region 1, which lies in region 0, shares its splitter, and from there a way leads to the clause
of region 0 too. -/
theorem process_reaches_clauses_nestedClauses :
    nestedClauses.Fresh ∧ nestedClauses.regions = [] ∧
      (∀ b, ¬nestedClauses.graph.IsSplitter b) ∧
      (process {} nestedClauses).result = .ok true ∧
      (process {} nestedClauses).method.regions = [0, 1] ∧
      (process {} nestedClauses).method.forest.Under 1 0 ∧
      ((process {} nestedClauses).method.region 1).topSplitter = some 6 ∧
      (∃ e, ((process {} nestedClauses).method.handler 0).entry = some e ∧
        (process {} nestedClauses).method.graph.Ways (5 ≤ ·) 6 e) ∧
      ∀ a ∈ (process {} nestedClauses).method.graph.preds 4, 5 ≤ a := by
  have hm : nestedClauses.Fresh := by decide +kernel
  have hplain : ∀ b, ¬nestedClauses.graph.IsSplitter b := by
    have hall : ∀ b < 5, ¬((nestedClauses.graph.flags b).topSplitter = true ∨
        (nestedClauses.graph.flags b).bottomSplitter = true) := by decide +kernel
    intro b hb
    exact hall b hb.lt hb
  have hok : (process {} nestedClauses).result = .ok true := by decide +kernel
  have hregions : (process {} nestedClauses).method.regions = [0, 1] := by decide +kernel
  have hunder : (process {} nestedClauses).method.forest.Under 1 0 := by
    show ((process {} nestedClauses).method.forest.get 1).outer = some 0
    decide +kernel
  have htop : ((process {} nestedClauses).method.region 1).topSplitter = some 6 := by decide +kernel
  obtain ⟨hways, hpreds⟩ := process_reaches_clauses {} hm rfl hplain hok
  refine ⟨hm, rfl, hplain, hok, hregions, hunder, htop, ?_, hpreds 0 4 (by decide +kernel)⟩
  have hlisted : 1 ∈ (process {} nestedClauses).method.regions := by
    rw [hregions]
    decide
  obtain ⟨b, hb, -, -, -, hclauses⟩ := hways 1 hlisted
  cases htop.symm.trans hb
  exact hclauses 0 (.single hunder) 0 (by decide +kernel)

end Recovery

end TryRegions
