import TryRegions.Proofs.Recovery.Combination
import TryRegions.Proofs.Recovery.Passage

/-! What is left of the code of handlers. While entries are set up, every body is live and holds the
entry. A handler that goes takes its whole body with it, also the blocks that another body holds
too. A handler that stays keeps its code exactly if it shares none with one that goes; where all do,
nothing that is left hangs on a block that is gone. -/

open Relation

namespace TryRegions

/-- A fresh method from which nothing is taken away: edges join live blocks, and no handler is
removed. -/
structure Method.Pristine (m : Method) : Prop extends m.Fresh where
  edgesLive : m.graph.EdgesLive
  unremoved : ∀ h, (m.handler h).removed = false

theorem Method.pristine_iff {m : Method} :
    m.Pristine ↔ m.Fresh ∧ m.graph.EdgesLive ∧
      ∀ h < m.handlers.size, (m.handler h).removed = false := by
  refine ⟨fun hm => ⟨hm.toFresh, hm.edgesLive, fun h _ => hm.unremoved h⟩, ?_⟩
  rintro ⟨fresh, hedges, hremoved⟩
  refine ⟨fresh, hedges, fun h => ?_⟩
  by_cases hh : h < m.handlers.size
  · exact hremoved h hh
  · rw [Method.handler_of_size_le (Nat.le_of_not_lt hh)]
    rfl

instance (m : Method) : Decidable m.Pristine := decidable_of_iff _ Method.pristine_iff.symm

/-- The handlers that the regions list have their entries and their whole code. -/
def Method.KeepsCode (m : Method) : Prop :=
  ∀ r ∈ m.regions, ∀ h ∈ (m.region r).handlers,
    (∃ e, (m.handler h).entry = some e ∧ m.graph.isLive e = true) ∧
      ∀ b ∈ (m.handler h).body, m.graph.isLive b = true

/-- Nothing live has an edge from or to a block that is detached. -/
def Graph.NeighboursLive (g : Graph) : Prop :=
  ∀ a, g.isLive a = true → ∀ b, b ∈ g.preds a ∨ b ∈ g.succs a → g.isLive b = true

theorem Graph.EdgesLive.neighboursLive {g : Graph} (h : g.EdgesLive) (wf : g.WellFormed) :
    g.NeighboursLive := by
  intro a _ b hb
  rcases hb with hb | hb
  · exact (h b a ((wf.mirrored b a).mpr hb)).1
  · exact (h a b hb).2

/-- The code of the handler is live, with its entry, and the handler is not removed. -/
structure Graph.Houses (g : Graph) (k : Handler) : Prop where
  body : ∀ b ∈ k.body, g.isLive b = true
  entry : ∀ e, k.entry = some e → e ∈ k.body
  unremoved : k.removed = false

namespace Graph.Houses

variable {g g' : Graph} {k k' : Handler} {b : BlockId}

theorem mono (h : g.Houses k) (hlive : ∀ b, g.isLive b = true → g'.isLive b = true) :
    g'.Houses k :=
  ⟨fun b hb => hlive b (h.body b hb), h.entry, h.unremoved⟩

theorem congr (h : g.Houses k) (hextent : k'.extent = k.extent) : g.Houses k' := by
  obtain ⟨hentry, hbody, hremoved⟩ : k'.entry = k.entry ∧ k'.body = k.body ∧
      k'.removed = k.removed := by simpa [Handler.extent] using hextent
  refine ⟨?_, ?_, hremoved.trans h.unremoved⟩
  · rw [hbody]
    exact h.body
  · rw [hentry, hbody]
    exact h.entry

theorem addBlock (h : g.Houses k) (hb : g.isLive b = true) : g.Houses (k.addBlock b) where
  body c hc := by
    rcases mem_insertNew.mp hc with hc | rfl
    · exact h.body c hc
    · exact hb
  entry e he := mem_insertNew.mpr (Or.inl (h.entry e he))
  unremoved := h.unremoved

theorem addBlocks (h : g.Houses k) {blocks : List BlockId}
    (hblocks : ∀ b ∈ blocks, g.isLive b = true) : g.Houses (blocks.foldl Handler.addBlock k) := by
  induction blocks generalizing k with
  | nil => exact h
  | cons b blocks ih =>
    exact ih (h.addBlock (hblocks b List.mem_cons_self)) fun c hc =>
      hblocks c (List.mem_cons_of_mem b hc)

/-- The handler gets its entry. -/
theorem enter (h : g.Houses k) (hb : g.isLive b = true) :
    g.Houses ({ k with entry := some b }.addBlock b) where
  body := (h.addBlock hb).body
  entry e he := by
    cases he
    exact mem_insertNew.mpr (Or.inr rfl)
  unremoved := h.unremoved

end Graph.Houses

namespace Recovery

open RecoverM TryRegions.Graph Dominance

variable {m : Method} {s t : State}

/-- While entries are set up, all edges join live blocks, and all code of handlers is live. -/
structure Housed (s : State) : Prop where
  wellFormed : s.method.graph.WellFormed
  current : s.Current
  edges : s.method.graph.EdgesLive
  houses : ∀ h, s.method.graph.Houses (s.method.handler h)

namespace Housed

theorem modifyHandler {g : Graph} (hs : ∀ x, g.Houses (m.handler x)) {h : HandlerId}
    {f : Handler → Handler} (hf : g.Houses (f (m.handler h))) (x : HandlerId) :
    g.Houses ((m.modifyHandler h f).handler x) := by
  rw [Method.handler_modifyHandler]
  split
  · rename_i hx
    rw [← hx.1]
    exact hf
  · exact hs x

theorem step (hs : Housed s) (h : Entering s t) : Housed t := by
  have wf := hs.wellFormed
  have hlive : ∀ b, s.method.graph.isLive b = true → t.method.graph.isLive b = true :=
    fun _ => h.isLive
  have hkept : ∀ x, t.method.graph.Houses (s.method.handler x) := fun x =>
    (hs.houses x).mono hlive
  refine ⟨wellFormed_of_edits h.quiet.graph wf, h.quiet.current hs.current, ?_, ?_⟩
  · cases h with
    | note h => exact hs.edges.sameFlow h.annotated.toSameFlow
    | disconnect hcut => exact hs.edges.cut wf (.disconnect hcut)
    | @own b h hblock hpreds =>
      exact hs.edges.sameFlow (annotated_modify_handler s.method.graph b h).toSameFlow
    | collect hentry hblock hdom => exact hs.edges
    | @standIn b h offset hblock hpreds =>
      obtain ⟨-, hsuccs⟩ := withStandIn_rewired offset h wf (lt_of_isLive hblock)
      refine hs.edges.widen hlive fun a c hc => ?_
      rcases (hsuccs a c).mp hc with hc | ⟨rfl, rfl⟩
      · exact Or.inl hc
      · exact Or.inr ⟨(isLive_withStandIn offset h _).mpr (Or.inl rfl), hlive c hblock⟩
  · cases h with
    | note h => exact fun x => (hkept x).congr (h.extent x)
    | disconnect hcut => exact hkept
    | @own b h hblock hpreds => exact modifyHandler hkept ((hkept h).enter (hlive b hblock))
    | @collect b h blocks hentry hblock hdom =>
      refine modifyHandler hkept ((hkept h).addBlocks fun c hc => ?_)
      rcases hdom hs.current wf c hc with rfl | ⟨⟨r, hr, way, path⟩, -⟩
      · exact hblock
      · exact hs.edges.of_path path hr.1 c path.target_mem
    | @standIn b h offset hblock hpreds =>
      exact modifyHandler hkept ((hkept h).enter ((isLive_withStandIn offset h _).mpr (Or.inl rfl)))

theorem run (hs : Housed s) (h : ReflTransGen Entering s t) : Housed t := by
  induction h with
  | refl => exact hs
  | tail _ hstep ih => exact ih.step hstep

end Housed

variable {c : Config}

namespace Passage

variable (p : Passage c m) (hm : m.Pristine)
include hm

theorem housed : Housed p.entered := by
  have wf := (p.sound_start hm.toFresh).method.wellFormed
  have hstart : Housed p.start := by
    refine ⟨wf, p.current_start, ?_, fun h => ?_⟩
    · rw [p.start_method]
      exact hm.edgesLive.sameFlow m.graph.sameFlow_promoted
    · have hhandler : p.start.method.handler h = m.handler h := by rw [p.start_method]; rfl
      rw [hhandler]
      refine ⟨fun b hb => ?_, fun e he => ?_, hm.unremoved h⟩
      · rw [hm.body] at hb
        cases hb
      · rw [hm.entry] at he
        cases he
  exact hstart.run ((enters_setUpEntries wf).ok p.enters).1

/-- A block that is live when entries are set up is gone after grouping exactly if it was flagged
from the start or is in the body of a handler that was removed. -/
theorem isLive_grouped_iff {b : BlockId} (hb : p.entered.method.graph.isLive b = true) :
    p.grouped.method.graph.isLive b = true ↔ (m.graph.flags b).remove = false ∧
      ∀ k, (p.grouped.method.handler k).removed = true → b ∉ (p.grouped.method.handler k).body := by
  have hculled := p.culled hm.toFresh
  have hflags : (p.entered.method.graph.flags b).remove = (m.graph.flags b).remove := by
    rw [(p.prepares hm.toFresh).graph.remove_eq, p.start_method]
    exact m.graph.remove_promoted b
  constructor
  · intro hlive
    have hflag : ¬(p.grouped.method.graph.flags b).remove = true := fun hflag =>
      (p.grouping hm.toFresh).unmarked b ⟨hlive, hflag⟩
    refine ⟨?_, fun k hk hbody => ?_⟩
    · rw [← hflags]
      exact Bool.eq_false_iff.mpr fun h => hflag (hculled.flag_kept b h)
    · rw [hculled.body] at hbody
      rcases hculled.flag_removed k hk with hold | hall
      · rw [((p.housed hm).houses k).unremoved] at hold
        cases hold
      · exact hflag (hall b hbody)
  · rintro ⟨hclear, hapart⟩
    rcases hculled.isLive_of b hb with hlive | hflag
    · exact hlive
    · rcases hculled.flag_of b hflag with hold | ⟨k, hk, hbody⟩
      · rw [hflags, hclear] at hold
        cases hold
      · rw [← hculled.body] at hbody
        exact absurd hbody (hapart k hk)

/-- Where the code of the listed handlers is live, wiring starts from a settled state. -/
theorem settled (hbodies : ∀ r ∈ p.regions, ∀ h ∈ (p.grouped.method.region r).handlers,
      ∀ b ∈ (p.grouped.method.handler h).body, p.grouped.method.graph.isLive b = true) :
    p.grouped.Settled p.regions := by
  have housed := p.housed hm
  have grouping := p.grouping hm.toFresh
  have hregroups := p.regroups hm.toFresh
  have hculled := p.culled hm.toFresh
  have htraced := traced_of_regroups hregroups
  constructor
  case current => exact (htraced.mono fun _ _ => .cut).current housed.current
  case edges => exact housed.edges.cuts housed.wellFormed htraced.graph
  case nested => exact ⟨_, nested_of_group p.groups⟩
  case blocks =>
    intro r hr b hb
    have hlive : p.entered.method.graph.isLive b = true := by
      rcases holds_of_regroups hregroups r hb with hlive | ⟨q, hq⟩
      · exact hlive
      · -- There is no region yet when entries are set up.
        rw [Method.region, (p.prepares hm.toFresh).forest, p.start_method, hm.forest] at hq
        cases hq
    rcases hculled.isLive_of b hlive with hlive | hflag
    · exact hlive
    · rw [(grouping.spares r hr).1 b hb] at hflag
      cases hflag
  case entries =>
    intro r hr h hh
    obtain ⟨e, he⟩ := Option.isSome_iff_exists.mp (grouping.sound.method.hasEntry r h hh)
    refine ⟨e, he, hbodies r hr h hh e ?_⟩
    rw [hculled.entry] at he
    rw [hculled.body]
    exact (housed.houses h).entry e he

theorem edgesLive_final (hs : p.grouped.Settled p.regions) :
    p.final.method.graph.EdgesLive := by
  have ready : Ready 0 p.regions True p.grouped :=
    .of_zero (p.grouping hm.toFresh).sound.method.wellFormed fun _ => hs
  have hwired := ready.run ((joins_wire ready c.limitFactor).ok p.wires).1
  have hcuts := ((moves_finish p.regions).ok p.finishes).1.graph
  exact (hwired.settled trivial).edges.cuts hwired.wellFormed hcuts

theorem isLive_body_iff {h : HandlerId} {b : BlockId}
    (hb : b ∈ (p.final.method.handler h).body) :
    p.final.method.graph.isLive b = true ↔ (m.graph.flags b).remove = false ∧
      ∀ k, (p.final.method.handler k).removed = true → b ∉ (p.final.method.handler k).body := by
  obtain ⟨wires, -⟩ := p.wires_final hm.toFresh
  have hculled := p.culled hm.toFresh
  rw [wires.handler] at hb
  rw [wires.graph.isLive_eq ((p.grouping hm.toFresh).sound.method.body_lt h b hb)]
  simp only [wires.handler]
  rw [hculled.body] at hb
  exact p.isLive_grouped_iff hm (((p.housed hm).houses h).body b hb)

/-- Where bodies are live, so are entries, and what wiring adds joins live blocks. -/
theorem keepsCode_of_bodies (hbodies : ∀ r ∈ p.final.method.regions,
      ∀ h ∈ (p.final.method.region r).handlers, ∀ b ∈ (p.final.method.handler h).body,
        p.final.method.graph.isLive b = true) :
    p.final.method.KeepsCode ∧ p.final.method.graph.EdgesLive := by
  obtain ⟨wires, hregions⟩ := p.wires_final hm.toFresh
  have sound := (p.grouping hm.toFresh).sound.method
  have hhandlers : ∀ r,
      (p.final.method.region r).handlers = (p.grouped.method.region r).handlers := by
    intro r
    obtain ⟨top, htop⟩ := wires.region r
    rw [htop]
  have hs : p.grouped.Settled p.regions := by
    refine p.settled hm fun r hr h hh b hb => ?_
    rw [← hregions] at hr
    rw [← hhandlers] at hh
    rw [← wires.graph.isLive_eq (sound.body_lt h b hb)]
    exact hbodies r hr h hh b (by rwa [wires.handler])
  refine ⟨fun r hr h hh => ⟨?_, hbodies r hr h hh⟩, p.edgesLive_final hm hs⟩
  rw [hregions] at hr
  rw [hhandlers] at hh
  obtain ⟨e, he, hlive⟩ := hs.entries r hr h hh
  refine ⟨e, by rw [wires.handler, he], ?_⟩
  rwa [wires.graph.isLive_eq (lt_of_isLive hlive)]

end Passage

/-- After a recovery that succeeds, the handlers that the regions list have their entries and their
whole code exactly if no block of it was flagged from the start or is in the body of a handler that
was removed. Where they do, no live block is next to one that is gone. -/
theorem process_keepsCode (c : Config) {m : Method} (hm : m.Pristine) {handled : Bool}
    (hok : (process c m).result = .ok handled) :
    ((process c m).method.KeepsCode ↔
      ∀ r ∈ (process c m).method.regions, ∀ h ∈ ((process c m).method.region r).handlers,
        ∀ b ∈ ((process c m).method.handler h).body, (m.graph.flags b).remove = false ∧
          ∀ k, ((process c m).method.handler k).removed = true →
            b ∉ ((process c m).method.handler k).body) ∧
    ((process c m).method.KeepsCode → (process c m).method.graph.NeighboursLive) := by
  rcases passage_of_ok hok with ⟨-, hmethod⟩ | ⟨⟨p⟩⟩
  · rw [hmethod]
    have hnone : ∀ r, (m.region r).handlers = [] := by
      intro r
      rw [Method.region, hm.forest]
      rfl
    refine ⟨⟨fun _ r _ h hh => ?_, fun _ r _ h hh => ?_⟩, fun _ => ?_⟩
    · rw [hnone] at hh
      cases hh
    · rw [hnone] at hh
      cases hh
    · exact hm.edgesLive.neighboursLive hm.wellFormed
  · rw [p.method]
    have wf := (p.wires_final hm.toFresh).1.sound.method.wellFormed
    refine ⟨⟨fun hkeeps r hr h hh b hb => ?_, fun hapart => ?_⟩, fun hkeeps => ?_⟩
    · exact (p.isLive_body_iff hm hb).mp ((hkeeps r hr h hh).2 b hb)
    · refine (p.keepsCode_of_bodies hm fun r hr h hh b hb => ?_).1
      exact (p.isLive_body_iff hm hb).mpr (hapart r hr h hh b hb)
    · have hbodies := p.keepsCode_of_bodies hm fun r hr h hh => (hkeeps r hr h hh).2
      exact hbodies.2.neighboursLive wf

/-- Block 1 is covered by the second handler, which starts in block 4. The first one starts in block
3 and covers nothing. The edge that stands in for the way to block 4 comes from `source`. -/
def uncoveredFirst (source : BlockId) : Method where
  name := "m"
  graph :=
    let plain : Graph :=
      { blocks := #[
          { offset := 0, succs := [1] },
          { offset := 2, instrs := [{ opcode := .invoke, offset := 2, catches := some ⟨[1]⟩ }],
            preds := [0], succs := [2] },
          { offset := 4, preds := [1, 3, 4] },
          { offset := 6,
            instrs := [{ opcode := .moveException, offset := 6, entry := some 0 },
              { opcode := .invoke, offset := 8, catches := some ⟨[1]⟩ }],
            succs := [2] },
          { offset := 10, instrs := [{ opcode := .moveException, offset := 10, entry := some 1 }],
            succs := [2], tmpEdge := some source }]
        live := [0, 1, 2, 3, 4] }
    plain.addEdge source 4
  enter := some 0
  handlers := #[{ number := 0, offset := 6, types := ["A"] },
    { number := 1, offset := 10, types := ["B"] }]
  registered := [0, 1]

/-- The first handler goes with block 3, and the second one keeps block 4. -/
theorem process_keepsCode_uncoveredFirst :
    (uncoveredFirst 1).Pristine ∧ (process {} (uncoveredFirst 1)).result = .ok true ∧
      (process {} (uncoveredFirst 1)).method.regions = [0] ∧
      ((process {} (uncoveredFirst 1)).method.region 0).handlers = [1] ∧
      ((process {} (uncoveredFirst 1)).method.handler 0).removed = true ∧
      (process {} (uncoveredFirst 1)).method.KeepsCode ∧
      (process {} (uncoveredFirst 1)).method.graph.NeighboursLive := by
  have hm : (uncoveredFirst 1).Pristine := by decide +kernel
  have hok : (process {} (uncoveredFirst 1)).result = .ok true := by decide +kernel
  have hapart : ∀ r ∈ (process {} (uncoveredFirst 1)).method.regions,
      ∀ h ∈ ((process {} (uncoveredFirst 1)).method.region r).handlers,
      ∀ b ∈ ((process {} (uncoveredFirst 1)).method.handler h).body,
        ((uncoveredFirst 1).graph.flags b).remove = false ∧
          ∀ k < (process {} (uncoveredFirst 1)).method.handlers.size,
            ((process {} (uncoveredFirst 1)).method.handler k).removed = true →
              b ∉ ((process {} (uncoveredFirst 1)).method.handler k).body := by decide +kernel
  obtain ⟨hiff, hnext⟩ := process_keepsCode {} hm hok
  have hkeeps := hiff.mpr fun r hr h hh b hb => by
    obtain ⟨hflag, hbodies⟩ := hapart r hr h hh b hb
    refine ⟨hflag, fun k hk => ?_⟩
    by_cases hlt : k < (process {} (uncoveredFirst 1)).method.handlers.size
    · exact hbodies k hlt hk
    · rw [Method.handler_of_size_le (Nat.le_of_not_lt hlt)] at hk
      cases hk
  exact ⟨hm, hok, by decide +kernel, by decide +kernel, by decide +kernel, hkeeps, hnext hkeeps⟩

/-- Block 4 is in the body of the first handler too, since the edge that stands in comes from block
3. It goes with that handler, though it is the entry of the second one, which the region of block 1
still lists, and the blocks that were put around that region still lead to it. -/
theorem process_drops_listed_entry :
    (uncoveredFirst 3).Pristine ∧ (process {} (uncoveredFirst 3)).result = .ok true ∧
      ¬(process {} (uncoveredFirst 3)).method.KeepsCode ∧
      ¬(process {} (uncoveredFirst 3)).method.graph.NeighboursLive := by
  have hregion : 0 ∈ (process {} (uncoveredFirst 3)).method.regions := by decide +kernel
  have hlisted : 1 ∈ ((process {} (uncoveredFirst 3)).method.region 0).handlers := by
    decide +kernel
  have hbody : 4 ∈ ((process {} (uncoveredFirst 3)).method.handler 1).body := by decide +kernel
  have hgone : (process {} (uncoveredFirst 3)).method.graph.isLive 4 = false := by decide +kernel
  have hlive : (process {} (uncoveredFirst 3)).method.graph.isLive 5 = true := by decide +kernel
  have hedge : 4 ∈ (process {} (uncoveredFirst 3)).method.graph.succs 5 := by decide +kernel
  refine ⟨by decide +kernel, by decide +kernel, fun hkeeps => ?_, fun hnext => ?_⟩
  · have hkept := (hkeeps 0 hregion 1 hlisted).2 4 hbody
    rw [hgone] at hkept
    cases hkept
  · have hkept := hnext 5 hlive 4 (Or.inr hedge)
    rw [hgone] at hkept
    cases hkept

end Recovery

end TryRegions
