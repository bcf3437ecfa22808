import TryRegions.Proofs.Recovery.Passage

/-! Bodies of handlers and dominance. The body of a handler is what its entry dominates while
entries are set up. No root leads into it past all entries then, and nothing that follows makes such
a way: edges are only taken away, or lead to entries, or go on where edges went before. The entry
may still lose its dominance, by ways over the entries of other handlers and by ways that begin at a
block that lost the edges that led to it. -/

open Relation

namespace TryRegions

section Plain

variable {g g' : Graph} {root : BlockId → Prop} {b : BlockId}

/-- A root leads to the block, and there is no entry on the way, the block itself included. -/
inductive Graph.Plain (g : Graph) (root : BlockId → Prop) : BlockId → Prop where
  | root {r : BlockId} (hroot : root r) (hentry : ¬g.isEntry r = true) : Plain g root r
  | step {a b : BlockId} (ha : Plain g root a) (hb : b ∈ g.succs a) (hentry : ¬g.isEntry b = true) :
      Plain g root b

namespace Graph.Plain

theorem not_isEntry (h : g.Plain root b) : ¬g.isEntry b = true := by
  cases h with
  | root _ hentry => exact hentry
  | step _ _ hentry => exact hentry

theorem of_path {r : BlockId} {blocks : List BlockId} (path : g.Path r b blocks) (hr : root r)
    (hplain : ∀ x ∈ blocks, ¬g.isEntry x = true) : g.Plain root b := by
  induction path with
  | start => exact .root hr (hplain _ List.mem_cons_self)
  | step path hc ih =>
    refine .step (ih fun x hx => hplain x (List.mem_append_left _ hx)) hc (hplain _ ?_)
    exact List.mem_append_right _ List.mem_cons_self

theorem exists_path (h : g.Plain root b) :
    ∃ r blocks, root r ∧ g.Path r b blocks ∧ ∀ x ∈ blocks, ¬g.isEntry x = true := by
  induction h with
  | @root r hroot hentry =>
    refine ⟨r, [r], hroot, .start, fun x hx => ?_⟩
    rwa [List.mem_singleton.mp hx]
  | @step a b _ hb hentry ih =>
    obtain ⟨r, blocks, hroot, path, hplain⟩ := ih
    refine ⟨r, blocks ++ [b], hroot, path.step hb, fun x hx => ?_⟩
    rcases List.mem_append.mp hx with hx | hx
    · exact hplain x hx
    · rwa [List.mem_singleton.mp hx]

/-- Ways past entries are not made where entries stay and edges between other blocks were there. -/
theorem narrow (h : g'.Plain root b) (hentry : ∀ a, g.isEntry a = true → g'.isEntry a = true)
    (hedge : ∀ a c, ¬g'.isEntry a = true → c ∈ g'.succs a → c ∈ g.succs a) : g.Plain root b := by
  induction h with
  | root hroot hplain => exact .root hroot fun h => hplain (hentry _ h)
  | step ha hb hplain ih =>
    exact .step ih (hedge _ _ ha.not_isEntry hb) fun h => hplain (hentry _ h)

end Graph.Plain

/-- An extension makes no way past entries between the blocks that were there: what leads on from
one of them over new blocks is an edge of the graph as it was. -/
theorem Graph.Extends.plain (ext : g.Extends g') (wf : g.WellFormed)
    (hroot : ∀ r, root r → r < g.size) (h : g'.Plain root b) :
    (b < g.size → g.Plain root b) ∧
      (g.size ≤ b → ∃ u < g.size, g.Plain root u ∧ g'.Leads g.size u b) := by
  induction h with
  | @root r hr hentry =>
    have hlt := hroot r hr
    refine ⟨fun _ => .root hr ?_, fun hle => absurd hlt (Nat.not_lt.mpr hle)⟩
    rwa [← ext.isEntry_eq hlt]
  | @step a b ha hb hentry ih =>
    have hleads : ∃ u < g.size, g.Plain root u ∧ g'.Leads g.size u b := by
      by_cases hlt : a < g.size
      · exact ⟨a, hlt, ih.1 hlt, .edge hb⟩
      · obtain ⟨u, hu, hplain, hleads⟩ := ih.2 (Nat.le_of_not_lt hlt)
        exact ⟨u, hu, hplain, hleads.append
          ⟨Nat.le_of_not_lt hlt, Bool.eq_false_iff.mpr ha.not_isEntry⟩ (.edge hb)⟩
    refine ⟨fun hlt => ?_, fun _ => hleads⟩
    obtain ⟨u, hu, hplain, hleads⟩ := hleads
    rw [ext.isEntry_eq hlt] at hentry
    rw [ext.leads _ u b (Nat.le_refl _) hu hlt (Bool.eq_false_iff.mpr hentry),
      leads_iff_mem_succs wf fun w hw hw' => absurd hw' (Nat.not_lt.mpr hw)] at hleads
    exact hplain.step hleads hentry

end Plain

namespace Recovery

open RecoverM TryRegions.Graph Dominance

variable {m : Method} {s t : State}

/-- While entries are set up, the roots of `m` stay roots, and none of them leads into the body of a
handler past all entries. -/
structure Collected (m : Method) (s : State) : Prop where
  wellFormed : s.method.graph.WellFormed
  current : s.Current
  isRoot : ∀ r, IsRoot m.graph m.enter r → IsRoot s.method.graph s.method.enter r
  body : ∀ h, ∀ b ∈ (s.method.handler h).body,
    ¬s.method.graph.Plain (IsRoot m.graph m.enter) b

theorem Entering.isRoot (h : Entering s t) (wf : s.method.graph.WellFormed) {r : BlockId}
    (hr : IsRoot s.method.graph s.method.enter r) : IsRoot t.method.graph t.method.enter r := by
  refine ⟨h.isLive hr.1, ?_⟩
  rw [h.quiet.enter]
  refine hr.2.imp_right fun hpreds => ?_
  cases h with
  | note h => exact (h.annotated.preds r).trans hpreds
  | disconnect hcut =>
    obtain ⟨-, rfl⟩ := disconnect_eq_ok.mp hcut
    refine List.eq_nil_iff_forall_not_mem.mpr fun a ha => ?_
    have hold := (wf.mem_preds_removeEdge.mp ha).1
    rw [hpreds] at hold
    cases hold
  | @own b h hlive hempty =>
    exact ((annotated_modify_handler s.method.graph b h).preds r).trans hpreds
  | collect hentry hlive hdom => exact hpreds
  | @standIn b h offset hlive hsome =>
    obtain ⟨wf', hsuccs⟩ := withStandIn_rewired offset h wf (lt_of_isLive hlive)
    refine List.eq_nil_iff_forall_not_mem.mpr fun a ha => ?_
    -- A stand-in is made only in front of a block that something leads to.
    rcases (hsuccs a r).mp ((wf'.mirrored a r).mpr ha) with hold | ⟨-, rfl⟩
    · have hold := (wf.mirrored a r).mp hold
      rw [hpreds] at hold
      cases hold
    · exact hsome hpreds

theorem mem_body_modifyHandler {m : Method} {h x : HandlerId} {f : Handler → Handler} {c : BlockId}
    (hc : c ∈ ((m.modifyHandler h f).handler x).body) :
    c ∈ (m.handler x).body ∨ c ∈ (f (m.handler h)).body := by
  rw [Method.handler_modifyHandler] at hc
  split at hc
  · rename_i hx
    rw [hx.1]
    exact Or.inr hc
  · exact Or.inl hc

namespace Collected

theorem step (hs : Collected m s) (h : Entering s t) : Collected m t := by
  refine ⟨wellFormed_of_edits h.quiet.graph hs.wellFormed, h.quiet.current hs.current,
    fun r hr => h.isRoot hs.wellFormed (hs.isRoot r hr), ?_⟩
  have wf := hs.wellFormed
  cases h with
  | note h =>
    intro x b hb hplain
    rw [h.body] at hb
    refine hs.body x b hb (hplain.narrow (fun a ha => ?_) fun a c _ hc => ?_)
    · rwa [h.isEntry]
    · rwa [← h.annotated.succs]
  | disconnect hcut =>
    obtain ⟨-, rfl⟩ := disconnect_eq_ok.mp hcut
    intro x b hb hplain
    refine hs.body x b hb (hplain.narrow (fun a ha => ?_) fun a c _ hc => ?_)
    · rwa [State.graph_withGraph, isEntry_eq_core, core_removeEdge, ← isEntry_eq_core]
    · exact (wf.mem_succs_removeEdge.mp hc).1
  | @own b h hlive hpreds =>
    have hentry := isEntry_modify_handler (lt_of_isLive hlive) h
    have hold : ∀ x, ∀ c ∈ (s.method.handler x).body, ¬(s.method.graph.modify b fun k =>
        { k with handler := some h }).Plain (IsRoot m.graph m.enter) c := by
      intro x c hc hplain
      refine hs.body x c hc (hplain.narrow (fun a ha => (hentry a).mpr (Or.inr ha)) ?_)
      intro a d _ hd
      rwa [(annotated_modify_handler s.method.graph b h).succs] at hd
    intro x c hc
    rcases mem_body_modifyHandler hc with hc | hc
    · exact hold x c hc
    · rcases mem_insertNew.mp hc with hc | rfl
      · exact hold h c hc
      · exact fun hplain => hplain.not_isEntry ((hentry c).mpr (Or.inl rfl))
  | @collect b h blocks hentry hlive hdom =>
    intro x c hc
    rcases mem_body_modifyHandler hc with hc | hc
    · exact hs.body x c hc
    · rcases mem_foldl_addBlock.mp hc with hc | hc
      · exact hs.body h c hc
      · intro hplain
        rcases hdom hs.current wf c hc with rfl | hdom
        · exact hplain.not_isEntry hentry
        · -- A way past all entries would go past the one that dominates the block.
          obtain ⟨r, way, hroot, path, hway⟩ := hplain.exists_path
          exact hway b (hdom.2 r (hs.isRoot r hroot) way path) hentry
  | @standIn b h offset hlive hpreds =>
    have hentry := isEntry_withStandIn (g := s.method.graph) (b := b) offset h
    obtain ⟨-, hsuccs⟩ := withStandIn_rewired offset h wf (lt_of_isLive hlive)
    have hold : ∀ x, ∀ c ∈ (s.method.handler x).body,
        ¬(s.method.graph.withStandIn b offset h).Plain (IsRoot m.graph m.enter) c := by
      intro x c hc hplain
      refine hs.body x c hc (hplain.narrow (fun a ha => (hentry a).mpr (Or.inr ha)) ?_)
      intro a d ha hd
      refine ((hsuccs a d).mp hd).resolve_right fun hnew => ha ((hentry a).mpr (Or.inl hnew.1))
    intro x c hc
    rcases mem_body_modifyHandler hc with hc | hc
    · exact hold x c hc
    · rcases mem_insertNew.mp hc with hc | rfl
      · exact hold h c hc
      · exact fun hplain => hplain.not_isEntry ((hentry _).mpr (Or.inl rfl))

theorem run (hs : Collected m s) (h : ReflTransGen Entering s t) : Collected m t := by
  induction h with
  | refl => exact hs
  | tail _ hstep ih => exact ih.step hstep

end Collected

variable {c : Config}

namespace Passage

theorem collected (p : Passage c m) (hm : m.Fresh) : Collected m p.entered := by
  have same := m.graph.sameFlow_promoted
  have wf := (p.sound_start hm).method.wellFormed
  have hstart : Collected m p.start := by
    refine ⟨wf, p.current_start, fun r hr => ?_, fun h b hb => ?_⟩
    · rw [p.start_method]
      exact ⟨(same.isLive r).trans hr.1, hr.2.imp_right (same.preds r).trans⟩
    · have hnone : b ∈ (m.handler h).body := by rwa [p.start_method] at hb
      rw [hm.body] at hnone
      cases hnone
  exact hstart.run ((enters_setUpEntries wf).ok p.enters).1

/-- No root of the method leads into a body past all entries. -/
theorem body_not_plain (p : Passage c m) (hm : m.Fresh) (h : HandlerId) {b : BlockId}
    (hb : b ∈ (p.final.method.handler h).body) :
    ¬p.final.method.graph.Plain (IsRoot m.graph m.enter) b := by
  intro hplain
  have hready := p.prepares hm
  have wf := hready.sound.method.wellFormed
  have sound := (p.grouping hm).sound.method
  obtain ⟨wires, -⟩ := p.wires_final hm
  have hculled := p.culled hm
  rw [wires.handler] at hb
  have hsize : m.graph.size ≤ p.grouped.method.graph.size := by
    have hle := hready.graph.size_le
    rwa [p.start_method, m.graph.sameFlow_promoted.size, ← hculled.size] at hle
  have hroot : ∀ r, IsRoot m.graph m.enter r → r < p.grouped.method.graph.size := fun r hr =>
    Nat.lt_of_lt_of_le (lt_of_isLive hr.1) hsize
  have hgrouped := (wires.graph.plain sound.wellFormed hroot hplain).1
    (sound.body_lt h b hb)
  rw [hculled.body] at hb
  refine (p.collected hm).body h b hb (hgrouped.narrow (fun a ha => ?_) fun a d _ hd => ?_)
  · rwa [hculled.isEntry]
  · exact mem_succs_of_cuts (traced_of_regroups (p.regroups hm)).graph wf hd

end Passage

/-- A way that may lead into the code of a handler past its entry `e`: it begins at a block that was
no root of `m`, or goes over another entry. -/
def Detour (m : Method) (g : Graph) (e r : BlockId) (way : List BlockId) : Prop :=
  ¬IsRoot m.graph m.enter r ∨ ∃ x ∈ way, g.isEntry x = true ∧ x ≠ e

/-- After a recovery that succeeds, every handler that is left has an entry. The entry dominates a
block of the handler's body unless the block is not reached or a detour leads to it past the
entry. -/
theorem process_dominates_body (c : Config) {m : Method} (hm : m.Fresh) {handled : Bool}
    (hok : (process c m).result = .ok handled) :
    ∃ tree, DomTree.build (process c m).method.graph (process c m).method.enter = .ok tree ∧
      ∀ h ∈ (process c m).method.registered,
        ∃ e, ((process c m).method.handler h).entry = some e ∧
          ∀ b ∈ ((process c m).method.handler h).body,
            (tree.dominates e b = true ↔ tree.isReachable b = true ∧
              ∀ r way, IsRoot (process c m).method.graph (process c m).method.enter r →
                (process c m).method.graph.Path r b way →
                Detour m (process c m).method.graph e r way → e ∈ way) := by
  rcases passage_of_ok hok with ⟨hnone, hmethod⟩ | ⟨⟨p⟩⟩
  · rw [hmethod]
    refine ⟨_, build_eq hm.wellFormed _, fun h hh => ?_⟩
    rw [hnone] at hh
    cases hh
  · obtain ⟨wires, -⟩ := p.wires_final hm
    have wf := wires.sound.method.wellFormed
    rw [p.method]
    refine ⟨_, build_eq wf _, fun h hh => ?_⟩
    rw [wires.registered] at hh
    obtain ⟨e, he⟩ := Option.isSome_iff_exists.mp ((p.grouping hm).hasEntry h hh)
    refine ⟨e, by rw [wires.handler, he], fun b hb => ?_⟩
    rw [dominates_iff wf, isReachable_iff wf]
    refine ⟨fun hdom => ⟨hdom.1, fun r way hr path _ => hdom.2 r hr way path⟩, fun hdom => ?_⟩
    refine ⟨hdom.1, fun r hr way path => ?_⟩
    by_cases hdetour : Detour m p.final.method.graph e r way
    · exact hdom.2 r way hr path hdetour
    · -- A way that is no detour and has no entry on it does not lead into the body.
      obtain ⟨hroot, hentries⟩ := not_or.mp hdetour
      by_contra hmem
      refine p.body_not_plain hm h hb (.of_path path (not_not.mp hroot) fun x hx hentry => ?_)
      exact hentries ⟨x, hx, hentry, fun heq => hmem (heq ▸ hx)⟩

/-- Block 1 is covered by two handlers. The first one starts in block 3, which the second one covers
in its turn, and which the stand-in edge to the second one's block 4 comes from. -/
def coveredBody : Method where
  name := "m"
  graph :=
    { blocks := #[
        { offset := 0, succs := [1, 3] },
        { offset := 2, instrs := [{ opcode := .invoke, offset := 2, catches := some ⟨[0, 1]⟩ }],
          preds := [0], succs := [2] },
        { offset := 4, preds := [1, 3, 4] },
        { offset := 6,
          instrs := [{ opcode := .moveException, offset := 6, entry := some 0 },
            { opcode := .invoke, offset := 8, catches := some ⟨[1]⟩ }],
          preds := [0], succs := [2, 4], tmpEdge := some 0 },
        { offset := 10, instrs := [{ opcode := .moveException, offset := 10, entry := some 1 }],
          preds := [3], succs := [2], tmpEdge := some 3 }]
      live := [0, 1, 2, 3, 4] }
  enter := some 0
  handlers := #[{ number := 0, offset := 6, types := ["A"] },
    { number := 1, offset := 10, types := ["B"] }]
  registered := [0, 1]

theorem process_dominates_body_coveredBody :
    coveredBody.Fresh ∧ (process {} coveredBody).result = .ok true ∧
      0 ∈ (process {} coveredBody).method.registered ∧
      4 ∈ ((process {} coveredBody).method.handler 0).body ∧
      ∃ tree, DomTree.build (process {} coveredBody).method.graph
          (process {} coveredBody).method.enter = .ok tree ∧
        (tree.dominates 3 4 = true ↔ tree.isReachable 4 = true ∧ ∀ r way,
          IsRoot (process {} coveredBody).method.graph (process {} coveredBody).method.enter r →
          (process {} coveredBody).method.graph.Path r 4 way →
          Detour coveredBody (process {} coveredBody).method.graph 3 r way → 3 ∈ way) := by
  have hm : coveredBody.Fresh := by decide +kernel
  have hok : (process {} coveredBody).result = .ok true := by decide +kernel
  have hregistered : 0 ∈ (process {} coveredBody).method.registered := by decide +kernel
  have hbody : 4 ∈ ((process {} coveredBody).method.handler 0).body := by decide +kernel
  have hentry : ((process {} coveredBody).method.handler 0).entry = some 3 := by decide +kernel
  obtain ⟨tree, htree, hall⟩ := process_dominates_body {} hm hok
  obtain ⟨e, he, hdom⟩ := hall 0 hregistered
  obtain rfl : e = 3 := Option.some.inj (he.symm.trans hentry)
  exact ⟨hm, hok, hregistered, hbody, tree, htree, hdom 4 hbody⟩

/-- Block 4 is in the body of the handler that starts in block 3, since the stand-in edge from there
was all that led to it. It is the entry of the other handler and is reached past block 3. -/
theorem process_body_undominated :
    coveredBody.Fresh ∧ (process {} coveredBody).result = .ok true ∧
      0 ∈ (process {} coveredBody).method.registered ∧
      ((process {} coveredBody).method.handler 0).entry = some 3 ∧
      4 ∈ ((process {} coveredBody).method.handler 0).body ∧
      ∃ tree, DomTree.build (process {} coveredBody).method.graph
        (process {} coveredBody).method.enter = .ok tree ∧ tree.dominates 3 4 = false := by
  refine ⟨by decide +kernel, by decide +kernel, by decide +kernel, by decide +kernel,
    by decide +kernel, _, build_eq ?_ _, ?_⟩
  · decide +kernel
  · decide +kernel

end Recovery

end TryRegions
