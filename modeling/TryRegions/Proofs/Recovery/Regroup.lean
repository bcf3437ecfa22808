import TryRegions.Proofs.Recovery.Grouping
import TryRegions.Proofs.Recovery.Trace

/-! The steps that grouping is made of. Each of them marks or widens a clause, takes something out
of the graph, or changes regions; nothing is added to the graph. What grouping does to handlers,
flags and edges is said once for each step and follows for a whole run. -/

open Relation

namespace TryRegions.Graph

/-- Flagging blocks for removal flags no other block. -/
theorem remove_flagged {g : Graph} {bs : List BlockId} (hbs : ∀ b ∈ bs, b < g.size) (b : BlockId) :
    ((bs.foldl (fun g b => g.modify b (·.addFlags { remove := true })) g).flags b).remove = true ↔
      (g.flags b).remove = true ∨ b ∈ bs := by
  induction bs generalizing g with
  | nil => simp
  | cons a bs ih =>
    have ha := hbs a List.mem_cons_self
    rw [List.foldl_cons, ih fun b hb => by
      rw [size_modify]; exact hbs b (List.mem_cons_of_mem a hb)]
    rw [flags_modify g a b _ (BlockFlags.union · { remove := true }) fun _ => rfl, List.mem_cons]
    by_cases hab : a = b
    · subst hab
      simp [ha, BlockFlags.union]
    · simp [hab, Ne.symm hab]

end TryRegions.Graph

namespace TryRegions.Recovery

open RecoverM TryRegions.Graph

variable {P : BlockId → Prop} {s t u : State}

/-- A step that leaves the nesting of regions alone. -/
inductive Cull : State → State → Prop where
  | note {s t : State} (hmethod : t.method = { s.method with diagnostics := t.method.diagnostics })
      (htree : t.tree = s.tree) : Cull s t
  | widen {s : State} (h : HandlerId) (types : List TypeName) (hcaptures : s.method.Captures h) :
      Cull s { s with method := s.method.addTypes h types }
  | mark {s : State} {h : HandlerId} {m : Method} (hmark : s.method.markRemoved h = .ok m) :
      Cull s { s with method := m }
  | disconnect {s : State} {a b : BlockId} {g : Graph}
      (hcut : s.method.graph.disconnect a b = .ok g) : Cull s (s.withGraph g)
  | sweep {s : State} :
      Cull s { s with
        method := { s.method with graph := s.method.graph.detachMarked }.forgetRemoved }
  | fill {s : State} (r : RegionId) {change : Region → Region}
      (hchange : ∀ k, (change k).outer = k.outer ∧ (change k).inner = k.inner ∧
        (change k).blocks = k.blocks) :
      Cull s { s with method := s.method.modifyRegion r change }

/-- A step of grouping. Regions that are made anew hold blocks that satisfy `P`. -/
inductive Regroup (P : BlockId → Prop) : State → State → Prop where
  | cull {s t : State} (h : Cull s t) : Regroup P s t
  | reforest {s : State} {forest : Forest} (nextRegion : Nat)
      (hholds : s.method.forest.HoldsFrom P forest) :
      Regroup P s { s with nextRegion, method := { s.method with forest } }

theorem Cull.quiet (h : Cull s t) : Quiet Cut s t := by
  cases h with
  | note hmethod htree =>
    refine .of_same ?_ ?_ htree ?_
    · rw [hmethod]
    · rw [hmethod]
    · rw [hmethod]
      exact .refl _
  | widen h types hcaptures => exact .annotated (.mapBlocks _ fun _ => ⟨rfl, rfl, rfl⟩) rfl rfl rfl
  | mark hmark =>
    obtain ⟨-, rfl⟩ := Method.markRemoved_eq_ok.mp hmark
    refine .annotated (.foldl (fun g b => ?_) _ _) rfl rfl rfl
    exact .modify g b fun _ => ⟨rfl, rfl, rfl⟩
  | disconnect hcut => exact .withGraph (.disconnect hcut)
  | sweep => exact ⟨.of_graph (.single .detachMarked) rfl rfl, .refl _⟩
  | fill r hchange =>
    exact .of_same rfl rfl rfl (.modify _ r fun k => ⟨(hchange k).1, (hchange k).2.1⟩)

theorem quiet_of_culls (h : ReflTransGen Cull s t) : Quiet Cut s t := by
  induction h with
  | refl => exact .refl s
  | tail _ hstep ih => exact ih.trans hstep.quiet

theorem Regroup.traced (h : Regroup P s t) : Traced Cut s t := by
  cases h with
  | cull h => exact h.quiet.toTraced
  | reforest nextRegion hholds => exact .of_graph .refl rfl rfl

/-- Grouping only takes away from the graph. -/
theorem traced_of_regroups (h : ReflTransGen (Regroup P) s t) : Traced Cut s t := by
  induction h with
  | refl => exact .refl s
  | tail _ hstep ih => exact ih.trans hstep.traced

theorem regroups_of_culls (h : ReflTransGen Cull s t) : ReflTransGen (Regroup P) s t :=
  ReflTransGen.mono (fun _ _ => Regroup.cull) _ _ h

theorem Cull.sameBlocks (h : Cull s t) (r : RegionId) :
    (t.method.region r).blocks = (s.method.region r).blocks := by
  cases h with
  | note hmethod htree => rw [hmethod]; rfl
  | widen h types hcaptures => rfl
  | mark hmark =>
    obtain ⟨-, rfl⟩ := Method.markRemoved_eq_ok.mp hmark
    rfl
  | disconnect hcut => rfl
  | sweep => rfl
  | fill q hchange =>
    show ((s.method.forest.modify q _).get r).blocks = (s.method.forest.get r).blocks
    rw [Forest.get_modify]
    split
    · exact (hchange _).2.2
    · rfl

/-- What regions hold at last was there at first or satisfies `P`. -/
theorem holds_of_regroups (h : ReflTransGen (Regroup P) s t) (r : RegionId) {b : BlockId}
    (hb : b ∈ (t.method.region r).blocks) : P b ∨ ∃ q, b ∈ (s.method.region q).blocks := by
  induction h generalizing r with
  | refl => exact Or.inr ⟨r, hb⟩
  | tail _ hstep ih =>
    cases hstep with
    | cull hstep =>
      rw [hstep.sameBlocks] at hb
      exact ih r hb
    | reforest nextRegion hholds =>
      rcases hholds r b hb with hP | ⟨q, hq⟩
      · exact Or.inl hP
      · exact ih q hq

/-- From `s` to `t` handlers keep their code. A block is flagged for removal only with the body of a
handler that is removed, and it leaves the graph only if it is flagged. -/
structure Culled (s t : State) : Prop where
  size : t.method.graph.size = s.method.graph.size
  isEntry : ∀ b, t.method.graph.isEntry b = s.method.graph.isEntry b
  isSplitter : ∀ b, t.method.graph.IsSplitter b ↔ s.method.graph.IsSplitter b
  entry : ∀ h, (t.method.handler h).entry = (s.method.handler h).entry
  body : ∀ h, (t.method.handler h).body = (s.method.handler h).body
  removed : ∀ h, (s.method.handler h).removed = true → (t.method.handler h).removed = true
  flag_kept : ∀ b, (s.method.graph.flags b).remove = true → (t.method.graph.flags b).remove = true
  flag_of : ∀ b, (t.method.graph.flags b).remove = true → (s.method.graph.flags b).remove = true ∨
    ∃ h, (t.method.handler h).removed = true ∧ b ∈ (s.method.handler h).body
  flag_removed : ∀ h, (t.method.handler h).removed = true → (s.method.handler h).removed = true ∨
    ∀ b ∈ (s.method.handler h).body, (t.method.graph.flags b).remove = true
  isLive : ∀ b, t.method.graph.isLive b = true → s.method.graph.isLive b = true
  isLive_of : ∀ b, s.method.graph.isLive b = true →
    t.method.graph.isLive b = true ∨ (t.method.graph.flags b).remove = true

namespace Culled

theorem trans (h : Culled s t) (h' : Culled t u) : Culled s u where
  size := h'.size.trans h.size
  isEntry b := (h'.isEntry b).trans (h.isEntry b)
  isSplitter b := (h'.isSplitter b).trans (h.isSplitter b)
  entry k := (h'.entry k).trans (h.entry k)
  body k := (h'.body k).trans (h.body k)
  removed k hk := h'.removed k (h.removed k hk)
  flag_kept b hb := h'.flag_kept b (h.flag_kept b hb)
  flag_of b hb := by
    rcases h'.flag_of b hb with hflag | ⟨k, hk, hbody⟩
    · rcases h.flag_of b hflag with hflag | ⟨k, hk, hbody⟩
      · exact Or.inl hflag
      · exact Or.inr ⟨k, h'.removed k hk, hbody⟩
    · rw [h.body] at hbody
      exact Or.inr ⟨k, hk, hbody⟩
  flag_removed k hk := by
    rcases h'.flag_removed k hk with hold | hbody
    · rcases h.flag_removed k hold with hold | hbody
      · exact Or.inl hold
      · exact Or.inr fun b hb => h'.flag_kept b (hbody b hb)
    · rw [h.body] at hbody
      exact Or.inr hbody
  isLive b hb := h.isLive b (h'.isLive b hb)
  isLive_of b hb := by
    rcases h.isLive_of b hb with hlive | hflag
    · exact h'.isLive_of b hlive
    · exact Or.inr (h'.flag_kept b hflag)

/-- A step that changes neither flags nor what handlers own. -/
theorem of_flags (hsize : t.method.graph.size = s.method.graph.size)
    (hisEntry : ∀ b, t.method.graph.isEntry b = s.method.graph.isEntry b)
    (hflags : ∀ b, t.method.graph.flags b = s.method.graph.flags b)
    (hhandler : ∀ h, (t.method.handler h).extent = (s.method.handler h).extent)
    (hlive : ∀ b, t.method.graph.isLive b = true → s.method.graph.isLive b = true)
    (hlive_of : ∀ b, s.method.graph.isLive b = true →
      t.method.graph.isLive b = true ∨ (s.method.graph.flags b).remove = true) : Culled s t := by
  have hremoved : ∀ h, (t.method.handler h).removed = (s.method.handler h).removed :=
    fun h => congrArg (fun k => k.2.2) (hhandler h)
  constructor
  case size => exact hsize
  case isEntry => exact hisEntry
  case isSplitter => exact fun b => isSplitter_congr (hflags b)
  case entry => exact fun h => congrArg Prod.fst (hhandler h)
  case body => exact fun h => congrArg (fun k => k.2.1) (hhandler h)
  case removed =>
    intro h hh
    rwa [hremoved]
  case flag_kept =>
    intro b hb
    rwa [hflags]
  case flag_of =>
    intro b hb
    rw [hflags] at hb
    exact Or.inl hb
  case flag_removed =>
    intro h hh
    rw [hremoved] at hh
    exact Or.inl hh
  case isLive => exact hlive
  case isLive_of =>
    intro b hb
    rw [hflags]
    exact hlive_of b hb

theorem of_graph (hgraph : t.method.graph = s.method.graph)
    (hhandlers : t.method.handlers = s.method.handlers) : Culled s t := by
  have hhandler : t.method.handler = s.method.handler := by
    unfold Method.handler
    rw [hhandlers]
  refine of_flags (congrArg _ hgraph) (fun _ => ?_) (fun _ => ?_) (fun _ => ?_) (fun _ hb => ?_)
    fun _ hb => Or.inl ?_
  · rw [hgraph]
  · rw [hgraph]
  · rw [hhandler]
  · rwa [← hgraph]
  · rwa [hgraph]

theorem refl (s : State) : Culled s s := of_graph rfl rfl

theorem mark {h : HandlerId} {m : Method} (hmark : s.method.markRemoved h = .ok m) :
    Culled s { s with method := m } := by
  obtain ⟨hbody, rfl⟩ := Method.markRemoved_eq_ok.mp hmark
  have hown := fun k => Method.handler_modifyHandler_eq (fun k => (k.entry, k.body)) s.method h k
    (fun k => { k with removed := true }) fun _ => rfl
  have hremoved : ∀ k,
      ((s.method.modifyHandler h fun k => { k with removed := true }).handler k).removed = true ↔
        (s.method.handler k).removed = true ∨ k = h ∧ h < s.method.handlers.size := by
    intro k
    rw [Method.handler_modifyHandler]
    split
    · rename_i hk
      obtain ⟨rfl, hlt⟩ := hk
      simp [hlt]
    · rename_i hk
      refine ⟨Or.inl, Or.rec id fun hk' => absurd ⟨hk'.1.symm, ?_⟩ hk⟩
      exact hk'.1 ▸ hk'.2
  have hflag := remove_flagged hbody
  have hsame : s.method.graph.SameFlow ((s.method.handler h).body.foldl
      (fun g b => g.modify b (·.addFlags { remove := true })) s.method.graph) :=
    .foldl _ (fun g b => .modify g b (·.addFlags { remove := true }) (fun _ => rfl) (fun _ => rfl)
      fun _ => rfl) _ _
  constructor
  case size => exact hsame.size
  case isEntry =>
    exact fun b => isEntry_congr (map_block?_foldl Block.handler b _
      (fun g c => map_block?_modify _ g c b (·.addFlags { remove := true }) fun _ => rfl) _ _)
  case isSplitter =>
    intro b
    apply isSplitter_iff_of_map
    refine map_block?_foldl _ b _ (fun g c => map_block?_modify _ g c b _ fun k => ?_) _ _
    simp [Block.addFlags, BlockFlags.union]
  case entry => exact fun k => congrArg Prod.fst (hown k)
  case body => exact fun k => congrArg Prod.snd (hown k)
  case removed => exact fun k hk => (hremoved k).mpr (Or.inl hk)
  case flag_kept => exact fun b hb => (hflag b).mpr (Or.inl hb)
  case flag_of =>
    intro b hb
    rcases (hflag b).mp hb with hold | hb
    · exact Or.inl hold
    · refine Or.inr ⟨h, (hremoved h).mpr (Or.inr ⟨rfl, ?_⟩), hb⟩
      by_contra hlt
      rw [Method.handler_of_size_le (Nat.le_of_not_lt hlt)] at hb
      cases hb
  case flag_removed =>
    intro k hk
    rcases (hremoved k).mp hk with hold | ⟨rfl, -⟩
    · exact Or.inl hold
    · exact Or.inr fun b hb => (hflag b).mpr (Or.inr hb)
  case isLive => exact fun b hb => by rwa [← hsame.isLive]
  case isLive_of => exact fun b hb => Or.inl ((hsame.isLive b).trans hb)

end Culled

theorem Cull.culled (h : Cull s t) (wf : s.method.graph.WellFormed) : Culled s t := by
  cases h with
  | note hmethod htree => exact .of_graph (by rw [hmethod]) (by rw [hmethod])
  | widen h types hcaptures =>
    have hsame : s.method.graph.SameFlow (s.method.addTypes h types).graph :=
      .mapBlocks _ _ (fun _ => rfl) (fun _ => rfl) fun _ => rfl
    refine .of_flags hsame.size (fun b => isEntry_congr ?_) (fun b => flags_congr ?_) (fun k => ?_)
      (fun b hb => ?_) fun b hb => Or.inl ((hsame.isLive b).trans hb)
    · exact Method.map_block?_modifyBinders _ _ _ _ b fun _ _ => rfl
    · exact Method.map_block?_modifyBinders _ _ _ _ b fun _ _ => rfl
    · exact Method.handler_modifyHandler_eq Handler.extent _ _ _ _ fun _ => rfl
    · rwa [← hsame.isLive]
  | mark hmark => exact .mark hmark
  | disconnect hcut =>
    obtain ⟨-, rfl⟩ := disconnect_eq_ok.mp hcut
    refine .of_flags (size_removeEdge ..) ?_ ?_ (fun _ => rfl) ?_ ?_
    · intro b
      rw [State.graph_withGraph, isEntry_eq_core, core_removeEdge, ← isEntry_eq_core]
    · intro b
      rw [State.graph_withGraph, flags_eq_core, core_removeEdge, ← flags_eq_core]
    · intro b hb
      rwa [State.graph_withGraph, isLive_eq_core, core_removeEdge, ← isLive_eq_core] at hb
    · intro b hb
      rw [State.graph_withGraph, isLive_eq_core, core_removeEdge, ← isLive_eq_core]
      exact Or.inl hb
  | sweep =>
    have gone := detachMarked_detached wf
    have hlive : ∀ b, ¬s.method.graph.Marked b →
        s.method.graph.detachMarked.isLive b = s.method.graph.isLive b := by
      intro b hb
      rw [isLive_eq_core, gone.core_kept b hb, ← isLive_eq_core]
    refine .of_flags gone.size (isEntry_detachMarked wf) (flags_detachMarked wf) (fun _ => rfl)
      (fun b hb => ?_) fun b hb => ?_
    · rw [← hlive b fun hmarked => not_isLive_detachMarked wf hmarked hb]
      exact hb
    · by_cases hflag : (s.method.graph.flags b).remove = true
      · exact Or.inr hflag
      · exact Or.inl ((hlive b fun hmarked => hflag hmarked.2).trans hb)
  | fill r hchange => exact .of_graph rfl rfl

theorem culled_of_regroups (h : ReflTransGen (Regroup P) s t) (wf : s.method.graph.WellFormed) :
    Culled s t := by
  induction h with
  | refl => exact .refl s
  | tail hrun hstep ih =>
    have wf := wellFormed_of_edits (ReflTransGen.mono (fun _ _ => Edit.cut) _ _
      (traced_of_regroups hrun).graph) wf
    cases hstep with
    | cull hstep => exact ih.trans (hstep.culled wf)
    | reforest nextRegion hholds => exact ih.trans (.of_graph rfl rfl)

section Culls

theorem culls_record (e : Event) : Moves (ReflTransGen Cull) (record e) s fun _ _ => True :=
  .modify (.single (.note rfl rfl)) trivial

theorem culls_removeHandler (h : HandlerId) :
    Moves (ReflTransGen Cull) (removeHandler h) s fun _ _ => True := by
  refine .of_method (.of_ofExcept fun m hm => ?_)
  refine Moves.andThen (Q := fun _ _ => True) (.modify (.single (.mark hm)) trivial) fun _ t _ => ?_
  split
  · exact .of_ask fun g hg => .modify (.single (.disconnect hg)) trivial
  · exact .pure trivial

theorem culls_dropUnreachable (covered : HandlerId → List BlockId) (h : HandlerId) :
    Moves (ReflTransGen Cull) (dropUnreachable covered h) s fun _ _ => True := by
  refine .of_method ?_
  dsimp only
  split
  · exact .pure trivial
  · exact (culls_removeHandler h).andThen fun _ t _ => .modify (.single (.note rfl rfl)) trivial

theorem captures_addTypes {m : Method} {h x : HandlerId} (types : List TypeName) :
    (m.addTypes h types).Captures x ↔ m.Captures x :=
  Method.captures_congr (m.handler_modifyHandler_eq Handler.entry h x _ fun _ => rfl)
    (m.code_addTypes h types)

theorem captures_markRemoved {m m' : Method} {h x : HandlerId} (hmark : m.markRemoved h = .ok m') :
    m'.Captures x ↔ m.Captures x := by
  refine Method.captures_congr ?_ fun b => code_of_instrs (Method.instrs_markRemoved hmark b)
  obtain ⟨-, rfl⟩ := Method.markRemoved_eq_ok.mp hmark
  exact m.handler_modifyHandler_eq Handler.entry h x _ fun _ => rfl

/-- The clauses that become one all bind the caught value to a register. -/
theorem captures_of_mergeable {m : Method} {clauses : List HandlerId}
    (hmerge : mergeable m clauses = .ok true) : ∀ h ∈ clauses, m.Captures h := by
  obtain ⟨hbinds, hsame⟩ := of_mergeable hmerge
  obtain ⟨r, hbound⟩ := boundRegister_of_sameContinuation hsame
  intro h hh
  obtain ⟨-, e, k, he, hk, hends⟩ := of_onlyBinds (hbinds h hh)
  obtain ⟨i, hlast, hopcode⟩ := (Option.any_eq_true ..).mp hends
  have hresult : i.result.isSome = true := by
    have hregister := hbound h hh
    simp only [boundRegister, he, hk, hlast, Option.bind_eq_bind, Option.bind_some] at hregister
    obtain ⟨register, hregister, -⟩ := Option.bind_eq_some_iff.mp hregister
    rw [hregister]
    rfl
  refine Method.captures_iff.mpr ⟨e, i, he, ?_, of_decide_eq_true hopcode, hresult⟩
  rw [instrs_eq hk]
  exact hlast

theorem culls_absorbClause {first : HandlerId} (hfirst : s.method.Captures first) (h : HandlerId) :
    Moves (ReflTransGen Cull) (absorbClause first h) s fun _ t => t.method.Captures first := by
  refine Moves.bind (Q := fun _ t => t.method.Captures first)
    (.modify (.single (.widen first _ hfirst)) ((captures_addTypes _).mpr hfirst))
    fun _ t _ ht => ?_
  refine .of_method (.of_ofExcept fun m hm => .modify (.single (.mark hm)) ?_)
  exact (captures_markRemoved hm).mpr ht

theorem culls_mergeClauses (r : RegionId) :
    Moves (ReflTransGen Cull) (mergeClauses r) s fun _ _ => True := by
  refine .of_method (.of_ofExcept fun merges hmerge => ?_)
  cases merges with
  | false => exact .pure trivial
  | true =>
    have hcaptures := captures_of_mergeable hmerge
    split
    · split
      · exact .pure trivial
      · rename_i first rest hclauses
        rw [hclauses] at hcaptures
        refine (Moves.loop (fun _ t => t.method.Captures first)
          (fun h _ t _ ht => culls_absorbClause ht h)
          (hcaptures first List.mem_cons_self)).andThen fun _ t _ => ?_
        exact .of_method ((culls_record _).andThen fun _ u _ => .pure trivial)
    · exact .pure trivial

theorem culls_mergeAllClauses (regions : List RegionId) :
    Moves (ReflTransGen Cull) (mergeAllClauses regions) s fun _ _ => True := by
  refine (Moves.collect (fun _ _ _ => True) (fun r _ _ _ _ _ => culls_mergeClauses r)
    trivial).andThen fun merged t _ => ?_
  split
  · exact .modify (.single .sweep) trivial
  · exact .pure trivial

theorem culls_sortClauses (types : TypeHierarchy) (r : RegionId) :
    Moves (ReflTransGen Cull) (sortClauses types r) s fun _ _ => True := by
  refine .of_method ?_
  dsimp only
  split
  · exact .violate
  · exact .modify (.single (.fill r fun _ => ⟨rfl, rfl, rfl⟩)) trivial

theorem culls_dropHandlers :
    Moves (ReflTransGen Cull) dropHandlers s fun covered _ =>
      covered = coveredBlocks s.method.graph := by
  refine .of_method (Moves.andThen (.each fun _ _ _ _ => culls_record _) fun _ t _ => ?_)
  have hsweep : ∀ u, Moves (ReflTransGen Cull) (do
      modifyMethod fun m => { m with graph := m.graph.detachMarked }.forgetRemoved
      return coveredBlocks s.method.graph) u fun covered _ =>
        covered = coveredBlocks s.method.graph :=
    fun u => Moves.andThen (Q := fun _ _ => True) (.modify (.single .sweep) trivial)
      fun _ _ _ => .pure rfl
  split
  · exact Moves.andThen (.each fun h _ _ _ => culls_removeHandler h) fun _ u _ => hsweep u
  · exact Moves.andThen (.each fun h _ _ _ => culls_dropUnreachable _ h) fun _ u _ => hsweep u

end Culls

section Regroups

theorem regroups_reforest {f : Method → Method} {forest : Forest}
    (h : f s.method = { s.method with forest }) (hholds : s.method.forest.HoldsFrom P forest) :
    Moves (ReflTransGen (Regroup P)) (modifyMethod f) s fun _ _ => True := by
  refine .modify (.single ?_) trivial
  rw [h]
  exact .reforest s.nextRegion hholds

theorem regroups_newRegion (hs : List HandlerId) {blocks : List BlockId}
    (hblocks : ∀ b ∈ blocks, P b ∨ ∃ q, b ∈ (s.method.region q).blocks) :
    Moves (ReflTransGen (Regroup P)) (newRegion hs blocks) s fun _ _ => True := by
  have hholds : s.method.forest.HoldsFrom P (s.method.forest.push
      { number := s.nextRegion, handlers := hs, blocks }) := (Forest.HoldsFrom.refl _).push hblocks
  exact .of_get (Moves.andThen (Q := fun _ _ => True) ⟨.single (.reforest _ hholds), trivial⟩
    fun _ _ _ => .pure trivial)

theorem regroups_regionOf {covered : HandlerId → List BlockId} {h : HandlerId}
    (hcovered : ∀ b ∈ covered h, P b) :
    Moves (ReflTransGen (Regroup P)) (regionOf covered h) s fun _ _ => True :=
  .of_method (regroups_newRegion _ fun b hb => Or.inl (hcovered b (List.mem_filter.mp hb).1))

theorem regroups_merge (regions : List RegionId) (outer inner : RegionId) (hs : List HandlerId)
    {blocks : List BlockId} (hblocks : ∀ b ∈ blocks, ∃ q, b ∈ (s.method.region q).blocks) :
    Moves (ReflTransGen (Regroup P)) (merge regions outer inner hs blocks) s fun _ _ => True := by
  refine (regroups_newRegion hs fun b hb => Or.inr (hblocks b hb)).andThen fun merged t _ => ?_
  exact Moves.andThen (regroups_reforest rfl ((Forest.HoldsFrom.refl _).sameContent
    (inherit_sameContent t.method.forest merged [outer, inner]))) fun _ _ _ => .pure trivial

theorem regroups_relate (regions : List RegionId) (outer inner : RegionId) :
    Moves (ReflTransGen (Regroup P)) (relate regions outer inner) s fun _ _ => True := by
  have hboth : ∀ b ∈ appendNew (s.method.region outer).blocks (s.method.region inner).blocks,
      ∃ q, b ∈ (s.method.region q).blocks := by
    intro b hb
    rcases mem_appendNew.mp hb with hb | hb
    · exact ⟨outer, hb⟩
    · exact ⟨inner, hb⟩
  have hsame : s.method.forest.HoldsFrom P s.method.forest := .refl _
  refine .of_method (.of_ofExcept fun r _ => ?_)
  cases r with
  | sameBlocks =>
    exact (regroups_merge _ _ _ _ fun b hb => ⟨outer, hb⟩).andThen fun _ _ _ => .pure trivial
  | absorb =>
    have hgrown : s.method.forest.HoldsFrom P (s.method.forest.modify outer fun r => { r with
        blocks := appendNew (s.method.region outer).blocks (s.method.region inner).blocks }) :=
      hsame.modify outer fun b hb => Or.inr (hboth b hb)
    have hmoved := hgrown.sameContent (.rehang _ (s.method.region inner).inner (some outer))
    exact Moves.andThen (regroups_reforest rfl (hmoved.modify inner nofun)) fun _ _ _ =>
      .pure trivial
  | nest =>
    have hlisted : s.method.forest.HoldsFrom P (s.method.forest.modify inner fun r => { r with
        handlers := (s.method.region inner).handlers.filter fun h =>
          decide (h ∉ (s.method.region outer).handlers) }) :=
      hsame.modify inner fun b hb => Or.inr ⟨inner, hb⟩
    have hlinked := hlisted.sameContent (.link _ inner outer)
    exact Moves.andThen (regroups_reforest rfl (hlinked.modify outer fun b hb =>
      Or.inr (hboth b hb))) fun _ _ _ => .pure trivial
  | sameClauses => exact (regroups_merge _ _ _ _ hboth).andThen fun _ _ _ => .pure trivial
  | unrelated => exact .pure trivial

theorem regroups_relatePairs (regions : List RegionId) (pairs : List (RegionId × RegionId)) :
    Moves (ReflTransGen (Regroup P)) (relatePairs regions pairs) s fun _ _ => True := by
  induction pairs generalizing s with
  | nil => exact .pure trivial
  | cons p pairs ih =>
    refine .of_method ?_
    split
    · exact ih
    · refine (regroups_relate regions p.1 p.2).andThen ?_
      rintro ⟨result, changed⟩ t -
      cases changed with
      | true => exact .pure trivial
      | false => exact ih

theorem regroups_combineAll (fuel : Nat) (regions : List RegionId) :
    Moves (ReflTransGen (Regroup P)) (combineAll fuel regions) s fun _ _ => True := by
  induction fuel generalizing s regions with
  | zero => exact .pure trivial
  | succ fuel ih =>
    refine (regroups_relatePairs regions _).andThen ?_
    rintro ⟨result, changed⟩ t -
    cases changed with
    | true => exact ih result
    | false => exact .pure trivial

theorem regroups_clearRegion (r : RegionId) :
    Moves (ReflTransGen (Regroup P)) (clearRegion r) s fun _ _ => True := by
  refine .of_method ?_
  dsimp only
  split
  · exact .fault
  · refine Moves.andThen (regroups_reforest rfl ((Forest.HoldsFrom.refl _).modify r fun b hb =>
      Or.inr ⟨r, (List.mem_filter.mp hb).1⟩)) fun _ t _ => ?_
    split
    · exact .pure trivial
    · refine .of_method (Moves.andThen ((culls_record _).relax fun _ => regroups_of_culls)
        fun _ u _ => ?_)
      refine Moves.andThen (regroups_reforest rfl ?_) fun _ _ _ => .pure trivial
      exact ((Forest.HoldsFrom.refl _).sameContent (.unlink _ r)).sameContent (.rehang _ _ _)

theorem regroups_clearRegions (regions : List RegionId) :
    Moves (ReflTransGen (Regroup P)) (clearRegions regions) s fun _ _ => True := by
  refine Moves.andThen (Moves.pick (fun _ _ _ => True)
    (fun r _ _ _ _ _ => regroups_clearRegion r) trivial) fun kept t _ => ?_
  exact Moves.andThen (Q := fun _ _ => True) (.modify (.single (.cull .sweep)) trivial)
    fun _ _ _ => .pure trivial

theorem regroups_makeRegions (types : TypeHierarchy) {covered : HandlerId → List BlockId}
    (hcovered : ∀ h, ∀ b ∈ covered h, P b) (handlers : List HandlerId) :
    Moves (ReflTransGen (Regroup P)) (makeRegions types covered handlers) s fun _ _ => True := by
  refine Moves.andThen (Moves.collect (fun _ _ _ => True)
    (fun h _ _ _ _ _ => regroups_regionOf (hcovered h)) trivial) fun regions t _ => ?_
  refine (regroups_combineAll _ regions).andThen fun regions u _ => ?_
  refine ((culls_mergeAllClauses regions).relax fun _ => regroups_of_culls).andThen fun _ v _ => ?_
  refine (regroups_clearRegions regions).andThen fun regions w _ => ?_
  have htidy : Moves (ReflTransGen Cull) (do
      regions.forM (sortClauses types)
      let m ← method
      regions.forM fun r => record (.resultRegion (m.regionText r))
      return regions) w fun _ _ => True := by
    refine Moves.andThen (.each fun r _ _ _ => culls_sortClauses types r) fun _ x _ => ?_
    exact .of_method (Moves.andThen (.each fun _ _ _ _ => culls_record _) fun _ _ _ =>
      .pure trivial)
  exact htidy.relax fun _ => regroups_of_culls

theorem regroups_group (types : TypeHierarchy)
    (hcovered : ∀ h, ∀ b ∈ coveredBlocks s.method.graph h, P b) :
    Moves (ReflTransGen (Regroup P)) (group types) s fun _ _ => True := by
  rw [group_eq]
  refine (culls_dropHandlers.relax fun _ => regroups_of_culls).bind ?_
  rintro _ t - rfl
  refine .of_method ?_
  split
  · exact .pure trivial
  · exact regroups_makeRegions types hcovered _

end Regroups

end TryRegions.Recovery
