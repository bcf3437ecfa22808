import TryRegions.Proofs.Forest
import TryRegions.Proofs.Method.Edits
import TryRegions.Proofs.Recovery.Nesting
import TryRegions.Recovery.Grouping

/-! Taking handlers and blocks away. Blocks only leave; between those that stay every edge stays,
apart from edges to the entries of handlers. -/

namespace TryRegions

namespace Graph

def catches (g : Graph) (b : BlockId) : Option CatchSet := (g.block? b).bind Block.catches

theorem catches_eq_core (g : Graph) (b : BlockId) :
    g.catches b = (g.core b).bind Block.catches := by
  rw [catches, core]
  cases g.block? b <;> rfl

theorem catches_eq_role (g : Graph) (b : BlockId) :
    g.catches b = (g.role b).bind Block.Role.catches := by
  rw [catches_eq_core, role]
  cases g.core b <;> rfl

/-- Blocks may be gone; what is left is as it was, apart from edges to entries. -/
structure Trimmed (g g' : Graph) : Prop where
  wellFormed : g'.WellFormed
  clean_lt : ∀ a, ∀ b ∈ g'.clean a, b < g'.size
  size : g'.size = g.size
  isEntry : ∀ b, g'.isEntry b = g.isEntry b
  catches : ∀ b, g'.catches b = g.catches b
  isLive : ∀ b, g'.isLive b = true → g.isLive b = true
  edges : ∀ u v, g'.isLive u = true → g'.isLive v = true → g.isEntry v = false →
    (v ∈ g'.succs u ↔ v ∈ g.succs u)

namespace Trimmed

variable {g g' g'' : Graph}

theorem trans (h : Trimmed g g') (h' : Trimmed g' g'') : Trimmed g g'' where
  wellFormed := h'.wellFormed
  clean_lt := h'.clean_lt
  size := h'.size.trans h.size
  isEntry b := (h'.isEntry b).trans (h.isEntry b)
  catches b := (h'.catches b).trans (h.catches b)
  isLive b hb := h.isLive b (h'.isLive b hb)
  edges u v hu hv hentry := by
    rw [h'.edges u v hu hv (by rwa [h.isEntry]),
      h.edges u v (h'.isLive u hu) (h'.isLive v hv) hentry]

theorem of_sameFlow (wf : g.WellFormed) (same : g.SameFlow g')
    (hview : ∀ b, (g'.block? b).map (fun k => (k.handler, k.catches)) =
      (g.block? b).map fun k => (k.handler, k.catches))
    (hclean : ∀ a, ∀ b ∈ g'.clean a, b < g'.size) : Trimmed g g' where
  wellFormed := same.wellFormed wf
  clean_lt := hclean
  size := same.size
  isEntry b := by
    have h := congrArg (Option.any fun k => k.1.isSome) (hview b)
    rwa [Option.any_map, Option.any_map] at h
  catches b := by
    have h := congrArg (Option.bind · fun k => k.2) (hview b)
    rwa [Option.bind_map, Option.bind_map] at h
  isLive b hb := by rwa [← same.isLive]
  edges u v _ _ _ := by rw [same.succs]

theorem refl (wf : g.WellFormed) (hclean : ∀ a, ∀ b ∈ g.clean a, b < g.size) : Trimmed g g :=
  of_sameFlow wf (.refl g) (fun _ => rfl) hclean

theorem modify (h : Trimmed g g') (b : BlockId) (f : Block → Block)
    (hsuccs : ∀ k, (f k).succs = k.succs) (hpreds : ∀ k, (f k).preds = k.preds)
    (hclean : ∀ k, (f k).clean ⊆ k.clean) (hdetached : ∀ k, (f k).detached = k.detached)
    (hview : ∀ k, ((f k).handler, (f k).catches) = (k.handler, k.catches)) :
    Trimmed g (g'.modify b f) := by
  exact h.trans (of_sameFlow h.wellFormed (.modify g' b f hsuccs hpreds hdetached)
    (fun c => map_block?_modify _ g' b c f hview) (clean_lt_modify h.clean_lt b hclean))

theorem flagged (h : Trimmed g g') (bs : List BlockId) :
    Trimmed g (bs.foldl (fun g b => g.modify b (·.addFlags { remove := true })) g') := by
  induction bs generalizing g' with
  | nil => exact h
  | cons b bs ih =>
    exact ih (h.modify b (·.addFlags { remove := true }) (fun _ => rfl) (fun _ => rfl)
      (fun _ => List.Subset.refl _) (fun _ => rfl) fun _ => rfl)

theorem mapInstrs (wf : g.WellFormed) (hclean : ∀ a, ∀ b ∈ g.clean a, b < g.size)
    (change : Instr → Instr) :
    Trimmed g (g.mapBlocks fun k => { k with instrs := k.instrs.map change }) := by
  have same := SameFlow.mapBlocks g (fun k => { k with instrs := k.instrs.map change })
    (fun _ => rfl) (fun _ => rfl) (fun _ => rfl)
  exact of_sameFlow wf same (map_block?_mapBlocks _ g _ fun _ => rfl)
    (clean_lt_mapBlocks hclean fun _ => rfl)

theorem removeEdge (wf : g.WellFormed) (hclean : ∀ a, ∀ b ∈ g.clean a, b < g.size)
    (source : BlockId) {target : BlockId} (hentry : g.isEntry target = true) :
    Trimmed g (g.removeEdge source target) := by
  have without := Rewired.removeEdge wf source target
  refine ⟨without.wellFormed, fun a b hb => ?_, without.size, fun b => ?_, fun b => ?_,
    fun b hb => ?_, fun u v _ _ hv => ?_⟩
  · rw [without.size]
    exact hclean a b (without.clean a hb)
  · rw [isEntry_eq_core, isEntry_eq_core, without.core]
  · rw [catches_eq_core, catches_eq_core, without.core]
  · rwa [isLive_eq_core, without.core, ← isLive_eq_core] at hb
  · rw [without.mem_succs]
    refine ⟨And.left, fun h => ⟨h, fun hst => ?_⟩⟩
    rw [hst.2, hentry] at hv
    cases hv

theorem detachMarked (wf : g.WellFormed) (hclean : ∀ a, ∀ b ∈ g.clean a, b < g.size) :
    Trimmed g g.detachMarked := by
  have detached := detachMarked_detached wf
  have hkept : ∀ b, g.detachMarked.isLive b = true → ¬g.Marked b :=
    fun b hb hmarked => not_isLive_detachMarked wf hmarked hb
  constructor
  case wellFormed => exact detached.wellFormed
  case clean_lt =>
    intro a b hb
    rw [detached.size]
    exact hclean a b (detached.clean a hb)
  case size => exact detached.size
  case isEntry => exact isEntry_detachMarked wf
  case catches =>
    intro b
    rw [catches_eq_core, catches_eq_core]
    by_cases hb : g.Marked b
    · rw [detached.core_gone b hb]
      cases g.core b <;> rfl
    · rw [detached.core_kept b hb]
  case isLive =>
    intro b hb
    have hcore := detached.core_kept b (hkept b hb)
    rwa [isLive_eq_core, hcore, ← isLive_eq_core] at hb
  case edges =>
    intro u v hu hv _
    rw [detached.mem_succs]
    exact ⟨And.left, fun h => ⟨h, hkept u hu, hkept v hv⟩⟩

end Trimmed

end Graph

namespace Recovery

open RecoverM

/-- Handlers and blocks are taken away: handlers keep their entries and bodies, and those that were
removed stay so. -/
structure Trims (s t : State) : Prop where
  sound : t.Sound
  graph : s.method.graph.Trimmed t.method.graph
  enter : t.method.enter = s.method.enter
  handlers_size : t.method.handlers.size = s.method.handlers.size
  entry : ∀ h, (t.method.handler h).entry = (s.method.handler h).entry
  body : ∀ h, (t.method.handler h).body = (s.method.handler h).body
  removed : ∀ h, (s.method.handler h).removed = true → (t.method.handler h).removed = true
  registered : t.method.registered.Sublist s.method.registered

namespace Trims

variable {s t u : State}

theorem refl (hs : s.Sound) : Trims s s :=
  ⟨hs, .refl hs.method.wellFormed hs.method.clean_lt, rfl, rfl, fun _ => rfl, fun _ => rfl,
    fun _ h => h, List.Sublist.refl _⟩

theorem trans (h : Trims s t) (h' : Trims t u) : Trims s u where
  sound := h'.sound
  graph := h.graph.trans h'.graph
  enter := h'.enter.trans h.enter
  handlers_size := h'.handlers_size.trans h.handlers_size
  entry x := (h'.entry x).trans (h.entry x)
  body x := (h'.body x).trans (h.body x)
  removed x hx := h'.removed x (h.removed x hx)
  registered := h'.registered.trans h.registered

theorem of_reshapes (h : Reshapes s t) (hs : s.Sound) : Trims s t := by
  have hmethod := h.method
  refine ⟨h.sound, ?_, ?_, ?_, fun x => ?_, fun x => ?_, fun x hx => ?_, ?_⟩
  · rw [h.graph]
    exact .refl hs.method.wellFormed hs.method.clean_lt
  · rw [hmethod]
  · rw [hmethod]
  · rw [h.handler]
  · rw [h.handler]
  · rwa [h.handler]
  · rw [hmethod]

end Trims

/-- The regions stay as they are too, and only the handlers that `widened` names get new classes. -/
structure Prunes (widened : HandlerId → Prop) (s t : State) : Prop extends Trims s t where
  forest : t.method.forest = s.method.forest
  types : ∀ h, ¬widened h → (t.method.handler h).types = (s.method.handler h).types

namespace Prunes

variable {widened : HandlerId → Prop} {s t u : State}

theorem refl (hs : s.Sound) : Prunes widened s s := ⟨.refl hs, rfl, fun _ _ => rfl⟩

theorem trans (h : Prunes widened s t) (h' : Prunes widened t u) : Prunes widened s u :=
  ⟨h.toTrims.trans h'.toTrims, h'.forest.trans h.forest,
    fun x hx => (h'.types x hx).trans (h.types x hx)⟩

instance : IsTrans State (Prunes widened) := ⟨fun _ _ _ => trans⟩

theorem of_parts (hs : s.Sound) (hgraph : s.method.graph.Trimmed t.method.graph)
    (henter : t.method.enter = s.method.enter)
    (hsize : t.method.handlers.size = s.method.handlers.size)
    (hentry : ∀ h, (t.method.handler h).entry = (s.method.handler h).entry)
    (hbody : ∀ h, (t.method.handler h).body = (s.method.handler h).body)
    (hremoved : ∀ h, (s.method.handler h).removed = true → (t.method.handler h).removed = true)
    (htypes : ∀ h, ¬widened h → (t.method.handler h).types = (s.method.handler h).types)
    (hregistered : t.method.registered.Sublist s.method.registered)
    (hforest : t.method.forest = s.method.forest) (htree : t.tree = s.tree) :
    Prunes widened s t := by
  have hregion : ∀ r, t.method.region r = s.method.region r := fun r => by
    rw [Method.region, Method.region, hforest]
  refine ⟨⟨⟨?_, ?_⟩, hgraph, henter, hsize, hentry, hbody, hremoved, hregistered⟩, hforest, htypes⟩
  · constructor
    case wellFormed => exact hgraph.wellFormed
    case clean_lt => exact hgraph.clean_lt
    case enter_lt =>
      intro e he
      rw [hgraph.size]
      exact hs.method.enter_lt e (henter ▸ he)
    case isEntry =>
      intro h e he
      rw [hgraph.isEntry]
      exact hs.method.isEntry h e (hentry h ▸ he)
    case body_lt =>
      intro h b hb
      rw [hgraph.size]
      exact hs.method.body_lt h b (hbody h ▸ hb)
    case blocks_lt =>
      intro r b hb
      rw [hgraph.size]
      exact hs.method.blocks_lt r b (hregion r ▸ hb)
    case hasEntry =>
      intro r h hh
      rw [hentry]
      exact hs.method.hasEntry r h (hregion r ▸ hh)
  · rw [htree, hgraph.size]
    exact hs.tree_within

/-- A step that changes nothing of the method but its graph. -/
theorem of_graph (hs : s.Sound) {g : Graph} (h : s.method.graph.Trimmed g) :
    Prunes widened s (s.withGraph g) :=
  of_parts hs h rfl rfl (fun _ => rfl) (fun _ => rfl) (fun _ h => h) (fun _ _ => rfl)
    (List.Sublist.refl _) rfl rfl

/-- A step that changes nothing but the log and the diagnostics. -/
theorem of_notes (hs : s.Sound) {log : List LogEntry} {diagnostics : List Diagnostic} :
    Prunes widened s { s with method := { s.method with diagnostics }, log } :=
  of_parts hs (.refl hs.method.wellFormed hs.method.clean_lt) rfl rfl (fun _ => rfl)
    (fun _ => rfl) (fun _ h => h) (fun _ _ => rfl) (List.Sublist.refl _) rfl rfl

end Prunes

section

variable {widened : HandlerId → Prop} {V : Violation → Prop} {s : State}

theorem markRemoved_prunes (widened : HandlerId → Prop) (hs : s.Sound) (h : HandlerId) :
    ∃ m, s.method.markRemoved h = .ok m ∧ Prunes widened s { s with method := m } ∧
      (h < s.method.handlers.size → (m.handler h).removed = true) := by
  have hbody : ((s.method.handler h).body.all fun b => decide (b < s.method.graph.size)) = true :=
    List.all_eq_true.mpr fun b hb => decide_eq_true (hs.method.body_lt h b hb)
  refine ⟨_, by rw [Method.markRemoved, if_pos hbody], ?_, fun hlt => ?_⟩
  · have kept := fun {β : Type} (view : Handler → β)
        (hview : ∀ k : Handler, view { k with removed := true } = view k) x =>
      s.method.handler_modifyHandler_eq view h x (fun k => { k with removed := true }) hview
    refine .of_parts hs ?_ rfl (s.method.size_modifyHandler h _) (kept Handler.entry fun _ => rfl)
      (kept Handler.body fun _ => rfl) (fun x hx => ?_)
      (fun x _ => kept Handler.types (fun _ => rfl) x) (List.Sublist.refl _) rfl rfl
    · exact (Graph.Trimmed.refl hs.method.wellFormed hs.method.clean_lt).flagged _
    · show ((s.method.modifyHandler h fun k => { k with removed := true }).handler x).removed = true
      rw [Method.handler_modifyHandler]
      split
      · rfl
      · exact hx
  · show ((s.method.modifyHandler h fun k => { k with removed := true }).handler h).removed = true
    rw [Method.handler_modifyHandler, if_pos ⟨rfl, hlt⟩]

theorem steps_removeHandler (hs : s.Sound) (h : HandlerId) :
    Steps V (Prunes widened) (removeHandler h) s
      fun _ t => h < s.method.handlers.size → (t.method.handler h).removed = true := by
  obtain ⟨m, hm, marks, hremoved⟩ := markRemoved_prunes widened hs h
  refine steps_method_bind.mpr ((steps_ofExcept_bind hm).mpr ?_)
  refine Steps.bind (Q := fun _ t => t = { s with method := m }) (.modify marks rfl) ?_
  rintro - - - rfl
  split
  · rename_i enter entry henter hentry
    have hisEntry := marks.sound.method.isEntry h entry hentry
    refine (yields_disconnect (marks.sound.method.enter_lt enter henter)
      (Graph.lt_of_isEntry hisEntry)).mpr ⟨.of_graph marks.sound ?_, hremoved⟩
    exact .removeEdge marks.sound.method.wellFormed marks.sound.method.clean_lt enter hisEntry
  · exact .pure (.refl marks.sound) hremoved

/-- A handler is removed or has its entry. -/
theorem steps_dropUnreachable (hs : s.Sound) (covered : HandlerId → List BlockId) {h : HandlerId}
    (hlt : h < s.method.handlers.size) :
    Steps V (Prunes widened) (dropUnreachable covered h) s fun _ t =>
      (t.method.handler h).removed = true ∨ (t.method.handler h).entry.isSome = true := by
  refine steps_method_bind.mpr ?_
  dsimp only
  split
  · rename_i hkeep
    exact .pure (.refl hs) (Or.inr (Bool.and_eq_true_iff.mp hkeep).2)
  · refine (steps_removeHandler hs h).bind fun _ t ht hremoved => ?_
    exact .modify (.of_notes ht.sound) (Or.inl (hremoved hlt))

/-- Removed handlers are forgotten and marked blocks detached. -/
theorem prunes_sweep (hs : s.Sound) :
    Prunes widened s { s with
      method := { s.method with graph := s.method.graph.detachMarked }.forgetRemoved } :=
  .of_parts hs (.detachMarked hs.method.wellFormed hs.method.clean_lt) rfl rfl (fun _ => rfl)
    (fun _ => rfl) (fun _ h => h) (fun _ _ => rfl) List.filter_sublist rfl rfl

end

end Recovery

end TryRegions
