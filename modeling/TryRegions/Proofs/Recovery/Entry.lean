import TryRegions.Proofs.Method.Edits
import TryRegions.Proofs.Recovery.Sound
import TryRegions.Recovery.Entry

/-! Setting up the entries of handlers. A block whose first instruction is marked loses the edge
that stood in for the exceptional one; no other edge between blocks that were there changes, and
each new block is an entry itself. -/

namespace TryRegions

/-- The handler whose code starts in the block, if its first instruction is marked. -/
def Block.marker (k : Block) : Option HandlerId := k.instrs.head?.bind (·.entry)

namespace Graph

def marker (g : Graph) (b : BlockId) : Option HandlerId := (g.block? b).bind Block.marker

/-- The source of the edge that stands in for an exceptional edge to the block. -/
def tmpEdge (g : Graph) (b : BlockId) : Option BlockId := (g.block? b).bind Block.tmpEdge

/-- The mark of a block and its edge that stands in. -/
def marks (g : Graph) (b : BlockId) : Option (Option HandlerId × Option BlockId) :=
  (g.block? b).map fun k => (k.marker, k.tmpEdge)

/-- The role of a block, apart from being an entry. -/
def trait (g : Graph) (b : BlockId) : Option Block.Role :=
  (g.block? b).map fun k => { k.role with handler := none }

theorem marker_eq_marks (g : Graph) (b : BlockId) : g.marker b = (g.marks b).bind Prod.fst := by
  rw [marker, marks]
  cases g.block? b <;> rfl

theorem tmpEdge_eq_marks (g : Graph) (b : BlockId) : g.tmpEdge b = (g.marks b).bind Prod.snd := by
  rw [tmpEdge, marks]
  cases g.block? b <;> rfl

theorem marks_eq_core (g : Graph) (b : BlockId) :
    g.marks b = (g.core b).map fun k => (k.marker, k.tmpEdge) := by
  rw [marks, core, Option.map_map]
  rfl

theorem trait_eq_core (g : Graph) (b : BlockId) :
    g.trait b = (g.core b).map fun k => { k.role with handler := none } := by
  rw [trait, core, Option.map_map]
  rfl

theorem remove_eq_trait (g : Graph) (b : BlockId) :
    (g.flags b).remove = (g.trait b).any fun r => r.remove := by
  rw [remove_eq_role, role, trait_eq_core, Option.any_map, Option.any_map]

/-- The blocks that `done` says lost their marks; the edges that `cut` says are gone; what is new is
an entry. -/
structure Readied (done : BlockId → Prop) (cut : BlockId → BlockId → Prop) (g g' : Graph) :
    Prop where
  wellFormed : g'.WellFormed
  clean_lt : ∀ a, ∀ b ∈ g'.clean a, b < g'.size
  size_le : g.size ≤ g'.size
  trait_kept : ∀ c < g.size, g'.trait c = g.trait c
  isEntry_kept : ∀ c, g.isEntry c = true → g'.isEntry c = true
  marks_kept : ∀ c < g.size, ¬done c → g'.marks c = g.marks c
  created : ∀ c, g.size ≤ c → c < g'.size → g'.isEntry c = true ∧ g'.trait c = some {}
  edges : ∀ u v, u < g.size → v < g.size → (v ∈ g'.succs u ↔ v ∈ g.succs u ∧ ¬cut u v)

namespace Readied

variable {g g' g'' : Graph} {done done' : BlockId → Prop} {cut cut' : BlockId → BlockId → Prop}

theorem trans (h : Readied done cut g g') (h' : Readied done' cut' g' g'') :
    Readied (fun c => done c ∨ done' c) (fun u v => cut u v ∨ cut' u v) g g'' where
  wellFormed := h'.wellFormed
  clean_lt := h'.clean_lt
  size_le := Nat.le_trans h.size_le h'.size_le
  trait_kept c hc :=
    (h'.trait_kept c (Nat.lt_of_lt_of_le hc h.size_le)).trans (h.trait_kept c hc)
  isEntry_kept c hc := h'.isEntry_kept c (h.isEntry_kept c hc)
  marks_kept c hc hdone := by
    rw [h'.marks_kept c (Nat.lt_of_lt_of_le hc h.size_le) fun hd => hdone (Or.inr hd)]
    exact h.marks_kept c hc fun hd => hdone (Or.inl hd)
  created c hc hc' := by
    by_cases hmid : c < g'.size
    · obtain ⟨hentry, htrait⟩ := h.created c hc hmid
      exact ⟨h'.isEntry_kept c hentry, (h'.trait_kept c hmid).trans htrait⟩
    · exact h'.created c (Nat.le_of_not_lt hmid) hc'
  edges u v hu hv := by
    rw [h'.edges u v (Nat.lt_of_lt_of_le hu h.size_le) (Nat.lt_of_lt_of_le hv h.size_le),
      h.edges u v hu hv, and_assoc, not_or]

theorem congr (h : Readied done cut g g') (hdone : ∀ c < g.size, done c → done' c)
    (hcut : ∀ u v, u < g.size → v < g.size → (cut u v ↔ cut' u v)) : Readied done' cut' g g' :=
  { h with
    marks_kept := fun c hc hd => h.marks_kept c hc fun hd' => hd (hdone c hc hd')
    edges := fun u v hu hv => by rw [h.edges u v hu hv, hcut u v hu hv] }

/-- No block is flagged for removal that was not. -/
theorem remove_eq (h : Readied done cut g g') (b : BlockId) :
    (g'.flags b).remove = (g.flags b).remove := by
  rw [remove_eq_trait, remove_eq_trait]
  by_cases hb : b < g.size
  · rw [h.trait_kept b hb]
  · have hnone : g.trait b = none := by
      rw [trait, block?_eq_none.mpr (Nat.le_of_not_lt hb)]
      rfl
    rw [hnone]
    by_cases hb' : b < g'.size
    · rw [(h.created b (Nat.le_of_not_lt hb) hb').2]
      rfl
    · rw [trait, block?_eq_none.mpr (Nat.le_of_not_lt hb')]
      rfl

/-- No block is new and no edge changes. -/
theorem of_sameFlow (wf : g.WellFormed) (same : g.SameFlow g')
    (htrait : ∀ c, g'.trait c = g.trait c)
    (hentry : ∀ c, g.isEntry c = true → g'.isEntry c = true)
    (hmarks : ∀ c, ¬done c → g'.marks c = g.marks c)
    (hclean : ∀ a, ∀ b ∈ g'.clean a, b < g'.size) : Readied done (fun _ _ => False) g g' where
  wellFormed := same.wellFormed wf
  clean_lt := hclean
  size_le := Nat.le_of_eq same.size.symm
  trait_kept c _ := htrait c
  isEntry_kept := hentry
  marks_kept c _ := hmarks c
  created c hc hc' := absurd hc' (by rw [same.size]; exact Nat.not_lt.mpr hc)
  edges u v _ _ := by simp [same.succs]

theorem refl (wf : g.WellFormed) (hclean : ∀ a, ∀ b ∈ g.clean a, b < g.size) :
    Readied done (fun _ _ => False) g g :=
  of_sameFlow wf (.refl g) (fun _ => rfl) (fun _ h => h) (fun _ _ => rfl) hclean

/-- A block changes that is done with, and no edge does. -/
theorem modify (wf : g.WellFormed) (hclean : ∀ a, ∀ b ∈ g.clean a, b < g.size) (b : BlockId)
    (f : Block → Block) (hsuccs : ∀ k, (f k).succs = k.succs) (hpreds : ∀ k, (f k).preds = k.preds)
    (hcleans : ∀ k, (f k).clean = k.clean)
    (htrait : ∀ k, { (f k).role with handler := none } = { k.role with handler := none })
    (hentry : ∀ k, k.handler.isSome = true → (f k).handler.isSome = true) :
    Readied (· = b) (fun _ _ => False) g (g.modify b f) := by
  have hdetached : ∀ k, (f k).detached = k.detached := fun k =>
    congrArg Block.Role.detached (htrait k)
  refine of_sameFlow wf (.modify g b f hsuccs hpreds hdetached)
    (fun c => map_block?_modify _ g b c f htrait) (fun c hc => ?_) (fun c hc => ?_)
    (clean_lt_modify hclean b fun k => by rw [hcleans]; exact List.Subset.refl _)
  · unfold isEntry at hc ⊢
    rw [block?_modify]
    split
    · rw [Option.any_map]
      cases hk : g.block? c with
      | none => rw [hk] at hc; cases hc
      | some k => rw [hk] at hc; exact hentry k hc
    · exact hc
  · rw [marks, marks, block?_modify, if_neg (Ne.symm hc)]

/-- The instructions of all blocks change, but not which of them are marked. -/
theorem mapInstrs (wf : g.WellFormed) (hclean : ∀ a, ∀ b ∈ g.clean a, b < g.size)
    (change : Instr → Instr) (hchange : ∀ i, (change i).entry = i.entry) :
    Readied done (fun _ _ => False) g
      (g.mapBlocks fun k => { k with instrs := k.instrs.map change }) := by
  have same := SameFlow.mapBlocks g (fun k => { k with instrs := k.instrs.map change })
    (fun _ => rfl) (fun _ => rfl) (fun _ => rfl)
  have hmarker : ∀ k : Block, { k with instrs := k.instrs.map change }.marker = k.marker := by
    intro k
    show ((k.instrs.map change).head?.bind fun i => i.entry) = k.instrs.head?.bind fun i => i.entry
    rw [List.head?_map, Option.bind_map]
    congr 1
    funext i
    exact hchange i
  refine of_sameFlow wf same (map_block?_mapBlocks _ g _ fun _ => rfl) (fun c hc => ?_)
    (fun c _ => map_block?_mapBlocks _ g _ (fun k => by rw [hmarker]) c)
    (clean_lt_mapBlocks hclean fun _ => rfl)
  have hrole := map_block?_mapBlocks Block.role g
    (fun k => { k with instrs := k.instrs.map change }) (fun _ => rfl) c
  rwa [isEntry_eq_role, role_eq, hrole, ← role_eq, ← isEntry_eq_role]

theorem removeEdge (wf : g.WellFormed) (hclean : ∀ a, ∀ b ∈ g.clean a, b < g.size)
    (p b : BlockId) : Readied done (fun u v => u = p ∧ v = b) g (g.removeEdge p b) := by
  have without := Graph.Rewired.removeEdge wf p b
  constructor
  case wellFormed => exact without.wellFormed
  case clean_lt =>
    intro a c hc
    rw [without.size]
    exact hclean a c (without.clean a hc)
  case size_le => exact Nat.le_of_eq without.size.symm
  case trait_kept =>
    intro c _
    rw [trait_eq_core, trait_eq_core, without.core]
  case isEntry_kept =>
    intro c hc
    rwa [isEntry_eq_core, without.core, ← isEntry_eq_core]
  case marks_kept =>
    intro c _ _
    rw [marks_eq_core, marks_eq_core, without.core]
  case created =>
    intro c hc hc'
    rw [without.size] at hc'
    exact absurd hc' (Nat.not_lt.mpr hc)
  case edges => exact fun u v _ _ => without.mem_succs u v

/-- A new block that leads to `b`, made an entry by `f`. -/
theorem standIn (wf : g.WellFormed) (hclean : ∀ a, ∀ b ∈ g.clean a, b < g.size) {b : BlockId}
    (hb : b < g.size) (offset : Int) (f : Block → Block) (hsuccs : ∀ k, (f k).succs = k.succs)
    (hpreds : ∀ k, (f k).preds = k.preds) (hcleans : ∀ k, (f k).clean = k.clean)
    (h : HandlerId) (hrole : ∀ k, (f k).role = { k.role with handler := some h }) :
    Readied done (fun _ _ => False) g
      (((g.newBlock offset).modify g.size f).addEdge g.size b) := by
  have same := SameFlow.modify (g.newBlock offset) g.size f hsuccs hpreds
    fun k => congrArg Block.Role.detached (hrole k)
  have hsize : g.size < ((g.newBlock offset).modify g.size f).size := by
    rw [same.size, size_newBlock]
    exact Nat.lt_succ_self _
  have linked := Rewired.addEdge (same.wellFormed (wf.newBlock offset)) hsize
    (Nat.lt_trans hb hsize)
  have hcore : ∀ c, (((g.newBlock offset).modify g.size f).addEdge g.size b).core c =
      if c = g.size then some (f { offset }).core else g.core c := by
    intro c
    rw [linked.core, core, block?_modify, block?_newBlock]
    by_cases hc : c = g.size
    · rw [if_pos hc.symm, if_pos hc, if_pos hc]
      rfl
    · rw [if_neg (Ne.symm hc), if_neg hc, if_neg hc]
      rfl
  constructor
  case wellFormed => exact linked.wellFormed
  case clean_lt =>
    intro a c hc
    have hc' := clean_modify_subset _ _ _ f (fun k => by rw [hcleans]; exact List.Subset.refl _)
      (linked.clean a hc)
    rw [clean_newBlock] at hc'
    rw [linked.size]
    exact Nat.lt_trans (hclean a c hc') hsize
  case size_le =>
    rw [linked.size]
    exact Nat.le_of_lt hsize
  case trait_kept =>
    intro c hc
    rw [trait_eq_core, hcore, if_neg (Nat.ne_of_lt hc), ← trait_eq_core]
  case isEntry_kept =>
    intro c hc
    have hne : c ≠ g.size := by
      rintro rfl
      rw [isEntry, block?_eq_none.mpr (Nat.le_refl _)] at hc
      cases hc
    rwa [isEntry_eq_core, hcore, if_neg hne, ← isEntry_eq_core]
  case marks_kept =>
    intro c hc _
    rw [marks_eq_core, hcore, if_neg (Nat.ne_of_lt hc), ← marks_eq_core]
  case created =>
    intro c hc hc'
    rw [linked.size, same.size, size_newBlock] at hc'
    obtain rfl : c = g.size := Nat.le_antisymm (Nat.le_of_lt_succ hc') hc
    have hnew : (f { offset }).core.role = { handler := some h } := hrole { offset }
    rw [isEntry_eq_role, role, trait_eq_core, hcore, if_pos rfl, Option.map_some, Option.map_some,
      hnew]
    exact ⟨rfl, rfl⟩
  case edges =>
    intro u v hu hv
    rw [linked.mem_succs, same.succs, succs_newBlock]
    simp [Nat.ne_of_lt hu]

end Readied

end Graph

/-- What is sound stays so when entries are made and handlers get theirs. -/
theorem Method.Sound.readied {m m' : Method} {done : BlockId → Prop}
    {cut : BlockId → BlockId → Prop} (hm : m.Sound) (hgraph : m.graph.Readied done cut m'.graph)
    (henter : m'.enter = m.enter) (hforest : m'.forest = m.forest)
    (hentry : ∀ h e, (m'.handler h).entry = some e →
      (m.handler h).entry = some e ∨ m'.graph.isEntry e = true)
    (hsome : ∀ h, (m.handler h).entry.isSome = true → (m'.handler h).entry.isSome = true)
    (hbody : ∀ h, ∀ b ∈ (m'.handler h).body, b ∈ (m.handler h).body ∨ b < m'.graph.size) :
    m'.Sound := by
  have hregion : ∀ r, m'.region r = m.region r := fun r => by
    rw [Method.region, Method.region, hforest]
  constructor
  case wellFormed => exact hgraph.wellFormed
  case clean_lt => exact hgraph.clean_lt
  case enter_lt =>
    intro e he
    rw [henter] at he
    exact Nat.lt_of_lt_of_le (hm.enter_lt e he) hgraph.size_le
  case isEntry =>
    intro h e he
    rcases hentry h e he with hold | hnew
    · exact hgraph.isEntry_kept e (hm.isEntry h e hold)
    · exact hnew
  case body_lt =>
    intro h b hb
    rcases hbody h b hb with hold | hnew
    · exact Nat.lt_of_lt_of_le (hm.body_lt h b hold) hgraph.size_le
    · exact hnew
  case blocks_lt =>
    intro r b hb
    rw [hregion] at hb
    exact Nat.lt_of_lt_of_le (hm.blocks_lt r b hb) hgraph.size_le
  case hasEntry =>
    intro r h hh
    rw [hregion] at hh
    exact hsome h (hm.hasEntry r h hh)

namespace Recovery

open RecoverM

structure Prepares (done : BlockId → Prop) (cut : BlockId → BlockId → Prop) (s t : State) :
    Prop where
  sound : t.Sound
  graph : s.method.graph.Readied done cut t.method.graph
  enter : t.method.enter = s.method.enter
  registered : t.method.registered = s.method.registered
  forest : t.method.forest = s.method.forest
  handlers_size : t.method.handlers.size = s.method.handlers.size

namespace Prepares

variable {done done' : BlockId → Prop} {cut cut' : BlockId → BlockId → Prop} {s t u : State}

theorem trans (h : Prepares done cut s t) (h' : Prepares done' cut' t u) :
    Prepares (fun c => done c ∨ done' c) (fun a b => cut a b ∨ cut' a b) s u where
  sound := h'.sound
  graph := h.graph.trans h'.graph
  enter := h'.enter.trans h.enter
  registered := h'.registered.trans h.registered
  forest := h'.forest.trans h.forest
  handlers_size := h'.handlers_size.trans h.handlers_size

theorem congr (h : Prepares done cut s t)
    (hdone : ∀ c < s.method.graph.size, done c → done' c)
    (hcut : ∀ a b, a < s.method.graph.size → b < s.method.graph.size → (cut a b ↔ cut' a b)) :
    Prepares done' cut' s t :=
  { h with graph := h.graph.congr hdone hcut }

instance : IsTrans State (Prepares done fun _ _ => False) :=
  ⟨fun _ _ _ h h' => (h.trans h').congr (fun _ _ hd => hd.elim id id) fun _ _ _ _ => or_self_iff⟩

theorem refl (hs : s.Sound) : Prepares done (fun _ _ => False) s s :=
  ⟨hs, .refl hs.method.wellFormed hs.method.clean_lt, rfl, rfl, rfl, rfl⟩

/-- A step that changes nothing but the graph. -/
theorem of_graph (hs : s.Sound) {g : Graph} (h : s.method.graph.Readied done cut g) :
    Prepares done cut s (s.withGraph g) where
  sound := ⟨hs.method.readied h rfl rfl (fun _ _ he => Or.inl he) (fun _ hh => hh)
      fun _ _ hb => Or.inl hb, fun t ht => (hs.tree_within t ht).mono h.size_le⟩
  graph := h
  enter := rfl
  registered := rfl
  forest := rfl
  handlers_size := rfl

end Prepares

variable {V : Violation → Prop} {s : State}

/-- Clean edges that were computed anew change nothing that counts here. -/
theorem Prepares.of_refreshes {t : State} {done : BlockId → Prop} (hs : s.Sound)
    (h : Refreshes s t) : Prepares done (fun _ _ => False) s t where
  sound := h.sound
  graph := by
    have hclean := h.sound.method.clean_lt
    rcases h.graph with hg | hg
    · rw [hg]
      exact .refl hs.method.wellFormed hs.method.clean_lt
    · rw [hg] at hclean ⊢
      refine .of_sameFlow hs.method.wellFormed (.refreshAll _)
        (Graph.map_block?_refreshAll _ (fun _ _ => rfl) _) (fun c hc => ?_)
        (fun c _ => Graph.map_block?_refreshAll _ (fun _ _ => rfl) _ c) hclean
      have hrole := Graph.map_block?_refreshAll Block.role (fun _ _ => rfl) s.method.graph c
      rwa [Graph.isEntry_eq_role, Graph.role_eq, hrole, ← Graph.role_eq, ← Graph.isEntry_eq_role]
  enter := by rw [h.method]
  registered := by rw [h.method]
  forest := by rw [h.method]
  handlers_size := by rw [h.method]

theorem yields_clearMark (hs : s.Sound) (b : BlockId) {E : Violation → State → Prop} :
    Yields (modifyGraph fun g => g.modify b fun k =>
        { k with instrs := k.instrs.modify 0 fun i => { i with entry := none } }) s
      (fun _ t => Prepares (· = b) (fun _ _ => False) s t ∧
        t.method.graph.tmpEdge b = s.method.graph.tmpEdge b) E := by
  refine yields_modifyGraph.mpr ⟨.of_graph hs (.modify hs.method.wellFormed hs.method.clean_lt b _
    (fun _ => rfl) (fun _ => rfl) (fun _ => rfl) (fun _ => rfl) fun _ h => h), ?_⟩
  rw [State.graph_withGraph, Graph.tmpEdge, Graph.tmpEdge, Graph.block?_modify, if_pos rfl]
  cases s.method.graph.block? b <;> rfl

theorem yields_dropTmpEdge (hs : s.Sound) {b : BlockId} (hb : b < s.method.graph.size)
    (htmp : ∀ p, s.method.graph.tmpEdge b = some p → p < s.method.graph.size)
    {E : Violation → State → Prop} :
    Yields (dropTmpEdge b) s (fun _ t =>
      Prepares (· = b) (fun u v => v = b ∧ s.method.graph.tmpEdge b = some u) s t) E := by
  obtain ⟨k, hk⟩ := Graph.exists_block hb
  have htmpEdge : s.method.graph.tmpEdge b = k.tmpEdge := by rw [Graph.tmpEdge, hk]; rfl
  refine yields_bind.mpr ((yields_block hk).mpr ?_)
  rw [htmpEdge] at htmp ⊢
  cases hp : k.tmpEdge with
  | none => exact yields_pure.mpr ((Prepares.refl hs).congr (fun _ _ h => h) (by simp))
  | some p =>
    have cutting : Prepares (· = b) (fun u v => u = p ∧ v = b) s
        (s.withGraph (s.method.graph.removeEdge p b)) :=
      .of_graph hs (.removeEdge hs.method.wellFormed hs.method.clean_lt p b)
    refine yields_bind.mpr ((yields_disconnect (htmp p hp) hb).mpr (yields_modifyGraph.mpr ?_))
    refine (cutting.trans (.of_graph cutting.sound (.modify cutting.sound.method.wellFormed
      cutting.sound.method.clean_lt b (fun k => { k with tmpEdge := none }) (fun _ => rfl)
      (fun _ => rfl) (fun _ => rfl) (fun _ => rfl) fun _ h => h))).congr ?_ ?_
    · exact fun c _ hc => hc.elim id id
    · intro u v _ _
      simp only [or_false, Option.some.injEq]
      exact ⟨fun h => ⟨h.2, h.1.symm⟩, fun h => ⟨h.2.symm, h.1⟩⟩

/-- The record of a handler changes, and at most a block that is done with. -/
theorem Prepares.of_handler (hs : s.Sound) {b : BlockId} (h : HandlerId) (f : Handler → Handler)
    {g : Graph} (hgraph : s.method.graph.Readied (· = b) (fun _ _ => False) g)
    (hentry : ∀ k e, (f k).entry = some e → k.entry = some e ∨ g.isEntry e = true)
    (hsome : ∀ k, k.entry.isSome = true → (f k).entry.isSome = true)
    (hbody : ∀ k, ∀ c ∈ (f k).body, c ∈ k.body ∨ c < g.size) :
    Prepares (· = b) (fun _ _ => False) s
      { s with method := { s.method.modifyHandler h f with graph := g } } where
  sound := by
    have hhandler : ∀ x, ({ s.method.modifyHandler h f with graph := g } : Method).handler x =
        if h = x ∧ x < s.method.handlers.size then f (s.method.handler x)
        else s.method.handler x := fun x => s.method.handler_modifyHandler h x f
    refine ⟨hs.method.readied hgraph rfl rfl (fun x e he => ?_) (fun x hx => ?_) fun x c hc => ?_,
      fun t ht => (hs.tree_within t ht).mono hgraph.size_le⟩
    · rw [hhandler] at he
      split at he
      · exact hentry _ e he
      · exact Or.inl he
    · rw [hhandler]
      split
      · exact hsome _ hx
      · exact hx
    · rw [hhandler] at hc
      split at hc
      · exact hbody _ c hc
      · exact Or.inl hc
  graph := hgraph
  enter := rfl
  registered := rfl
  forest := rfl
  handlers_size := s.method.size_modifyHandler h f

theorem foldl_addBlock_eq (l : List BlockId) (k : Handler) :
    l.foldl Handler.addBlock k = { k with body := l.foldl insertNew k.body } := by
  induction l generalizing k with
  | nil => rfl
  | cons b l ih => exact ih (k.addBlock b)

theorem foldl_addBlock_entry (l : List BlockId) (k : Handler) :
    (l.foldl Handler.addBlock k).entry = k.entry := by rw [foldl_addBlock_eq]

theorem mem_foldl_addBlock {l : List BlockId} {k : Handler} {c : BlockId} :
    c ∈ (l.foldl Handler.addBlock k).body ↔ c ∈ k.body ∨ c ∈ l := by
  induction l generalizing k with
  | nil => simp
  | cons b l ih =>
    rw [List.foldl_cons, ih, Handler.addBlock, mem_insertNew, List.mem_cons, or_assoc]

theorem steps_ownEntry (hs : s.Sound) {b : BlockId} (hb : b < s.method.graph.size)
    (h : HandlerId) :
    Steps V (Prepares (· = b) fun _ _ => False) (ownEntry b h) s fun _ _ => True := by
  have hself :
      (s.method.graph.modify b fun k => { k with handler := some h }).isEntry b = true := by
    obtain ⟨k, hk⟩ := Graph.exists_block hb
    rw [Graph.isEntry, Graph.block?_modify, if_pos rfl, hk]
    rfl
  have own : Prepares (· = b) (fun _ _ => False) s { s with
      method := ((s.method.modifyHandler h
        (fun k => { k with entry := some b }.addBlock b)).modifyBlock b
          (fun k => { k with handler := some h })) } := by
    refine .of_handler hs h _ (.modify hs.method.wellFormed hs.method.clean_lt b _ (fun _ => rfl)
      (fun _ => rfl) (fun _ => rfl) (fun _ => rfl) fun _ _ => rfl) (fun k e he => ?_)
      (fun _ _ => rfl) fun k c hc => ?_
    · cases he
      exact Or.inr hself
    · rcases mem_insertNew.mp hc with hc | rfl
      · exact Or.inl hc
      · exact Or.inr (Graph.lt_of_isEntry hself)
  refine Steps.bind (Q := fun _ _ => True) ⟨own, trivial⟩ fun _ t ht _ => ?_
  have htree : Steps V (Prepares (· = b) fun _ _ => False) domTree t fun _ _ => True :=
    (yields_domTree ht.sound).mono (fun _ _ h => ⟨.of_refreshes ht.sound h.1, trivial⟩)
      fun _ _ hv => hv
  refine htree.bind fun tree u hu _ => ?_
  have hbu : b < u.method.graph.size :=
    Nat.lt_of_lt_of_le hb (Nat.le_trans ht.graph.size_le hu.graph.size_le)
  obtain ⟨l, hl, hlt⟩ := tree.dominatedFrom_eq_ok hu.sound.method.wellFormed b hbu
  refine (steps_ask_bind hl).mpr (Steps.modify (.of_handler hu.sound h
    (fun k => l.foldl Handler.addBlock k)
    (.refl hu.sound.method.wellFormed hu.sound.method.clean_lt) (fun k e he => ?_)
    (fun k hk => ?_) fun k c hc => ?_) trivial)
  · rw [foldl_addBlock_entry] at he
    exact Or.inl he
  · rw [foldl_addBlock_entry]
    exact hk
  · exact (mem_foldl_addBlock.mp hc).imp_right fun hc => (hlt c hc).1

theorem steps_standInEntry (hs : s.Sound) {b : BlockId} (hb : b < s.method.graph.size)
    (h : HandlerId) :
    Steps V (Prepares (· = b) fun _ _ => False) (standInEntry b h) s fun _ _ => True := by
  obtain ⟨k, hk⟩ := Graph.exists_block hb
  have made : s.method.graph.Readied (· = b) (fun _ _ => False) _ :=
    .standIn hs.method.wellFormed hs.method.clean_lt hb k.offset
      (fun k => { k.addFlags { synthetic := true } with handler := some h }) (fun _ => rfl)
      (fun _ => rfl) (fun _ => rfl) h fun k => by
        simp [Block.role, Block.addFlags, BlockFlags.union]
  have hsize : s.method.graph.size < ((s.method.graph.newBlock k.offset).modify
      s.method.graph.size fun k =>
        { k.addFlags { synthetic := true } with handler := some h }).size := by
    rw [Graph.size_modify, Graph.size_newBlock]
    exact Nat.lt_succ_self _
  have hentry := (made.created _ (Nat.le_refl _) (by rw [Graph.size_addEdge]; exact hsize)).1
  have entered := Prepares.of_handler hs h
    (fun k => { k with entry := some s.method.graph.size }.addBlock s.method.graph.size) made
    (fun k e he => ?_) (fun _ _ => rfl) fun k c hc => ?_
  · refine (steps_block_bind hk).mpr (yields_bind.mpr (yields_newBlock.mpr (yields_bind.mpr ?_)))
    refine yields_modifyGraph.mpr (yields_bind.mpr ?_)
    exact (yields_connect hsize (Nat.lt_trans hb hsize)).mpr (yields_modify.mpr ⟨entered, trivial⟩)
  · cases he
    exact Or.inr hentry
  · rcases mem_insertNew.mp hc with hc | rfl
    · exact Or.inl hc
    · exact Or.inr (Graph.lt_of_isEntry hentry)

theorem steps_bindVariable (hs : s.Sound) {b : BlockId} (hb : b < s.method.graph.size)
    (h : HandlerId) :
    Steps V (Prepares (· = b) fun _ _ => False) (bindVariable b h) s fun _ _ => True := by
  have unbound : s.method.graph.Readied (· = b) (fun _ _ => False)
      (s.method.modifyBinders h fun i => { i with binds := none }).graph := by
    refine .mapInstrs hs.method.wellFormed hs.method.clean_lt _ fun i => ?_
    split <;> rfl
  have named : ∀ arg : Option Operand, Steps V (Prepares (· = b) fun _ _ => False)
      (modifyMethod fun m => m.setArg h arg) s fun _ _ => True := fun arg =>
    ⟨.of_handler hs h (fun k => { k with arg }) unbound (fun _ _ he => Or.inl he)
      (fun _ hk => hk) fun _ _ hc => Or.inl hc, trivial⟩
  have bound : ∀ change : Instr → Instr, s.method.graph.Readied (· = b) (fun _ _ => False)
      ((s.method.modifyBinders h fun i => { i with binds := none }).graph.modify b fun k =>
        { k with instrs := k.instrs.modify (k.instrs.length - 1) change }) := fun change =>
    (unbound.trans (.modify unbound.wellFormed unbound.clean_lt b
      (fun k => { k with instrs := k.instrs.modify (k.instrs.length - 1) change }) (fun _ => rfl)
      (fun _ => rfl) (fun _ => rfl) (fun _ => rfl) fun _ h => h)).congr
        (fun _ _ hc => hc.elim id id) fun _ _ _ _ => or_self_iff
  obtain ⟨k, hk⟩ := Graph.exists_block hb
  refine (steps_block_bind hk).mpr (steps_method_bind.mpr ?_)
  dsimp only
  split
  · split
    · rename_i r _ _
      exact ⟨.of_handler hs h _ (bound _) (fun _ _ he => Or.inl he) (fun _ hk => hk)
        fun _ _ hc => Or.inl hc, trivial⟩
    · exact named _
  · exact named _

/-- The set-up of one block: the edge that stands in goes away if the block is marked. -/
theorem yields_setUpEntry (hs : s.Sound) {b : BlockId} (hb : b < s.method.graph.size)
    (htmp : ∀ p, s.method.graph.tmpEdge b = some p → p < s.method.graph.size)
    {E : Violation → State → Prop} :
    Yields (setUpEntry b) s (fun _ t => Prepares (· = b)
      (fun u v => v = b ∧ (s.method.graph.marker b).isSome = true ∧
        s.method.graph.tmpEdge b = some u) s t) E := by
  obtain ⟨k, hk⟩ := Graph.exists_block hb
  have hmarker : s.method.graph.marker b = k.instrs.head?.bind (·.entry) := by
    rw [Graph.marker, hk]
    rfl
  refine yields_bind.mpr ((yields_block hk).mpr ?_)
  rw [hmarker]
  cases k.instrs.head?.bind (·.entry) with
  | none => exact yields_pure.mpr ((Prepares.refl hs).congr (fun _ _ hc => hc) (by simp))
  | some h =>
    refine yields_bind.mpr ((yields_clearMark hs b).mono ?_ fun _ _ hv => hv)
    rintro - s₁ ⟨h₁, htmp₁⟩
    have hb₁ := Nat.lt_of_lt_of_le hb h₁.graph.size_le
    refine yields_bind.mpr ((yields_dropTmpEdge h₁.sound hb₁ fun p hp => ?_).mono
      (fun _ s₂ h₂ => ?_) fun _ _ hv => hv)
    · exact Nat.lt_of_lt_of_le (htmp p (htmp₁ ▸ hp)) h₁.graph.size_le
    · have hb₂ := Nat.lt_of_lt_of_le hb₁ h₂.graph.size_le
      have entered : ∀ x : RecoverM Unit,
          Steps (fun _ => False) (Prepares (· = b) fun _ _ => False) x s₂ (fun _ _ => True) →
          Yields (x >>= fun _ => bindVariable b h) s₂ (fun _ t => Prepares (· = b)
            (fun u v => v = b ∧ (some h).isSome = true ∧ s.method.graph.tmpEdge b = some u) s t)
            E := by
        intro x hx
        refine Yields.mono (hx.bind fun _ t ht _ =>
          steps_bindVariable ht.sound (Nat.lt_of_lt_of_le hb₂ ht.graph.size_le) h)
          (fun _ t ht => ?_) fun _ _ hv => hv.1.elim
        rw [htmp₁] at h₂
        refine ((h₁.trans h₂).trans ht.1).congr (fun c _ hc => ?_) fun u v _ _ => by simp
        rcases hc with (hc | hc) | hc <;> exact hc
      obtain ⟨k₂, hk₂⟩ := Graph.exists_block hb₂
      refine yields_bind.mpr ((yields_block hk₂).mpr ?_)
      split
      · exact entered _ (steps_ownEntry h₂.sound hb₂ h)
      · exact entered _ (steps_standInEntry h₂.sound hb₂ h)

/-- The marked blocks that are live have lost the edges that stood in; no other edges are gone. -/
theorem yields_setUpEntries (hs : s.Sound)
    (htmp : ∀ b p, s.method.graph.tmpEdge b = some p → p < s.method.graph.size)
    {E : Violation → State → Prop} :
    Yields setUpEntries s (fun _ t => Prepares (fun b => b ∈ s.method.graph.live)
      (fun u v => v ∈ s.method.graph.live ∧ (s.method.graph.marker v).isSome = true ∧
        s.method.graph.tmpEdge v = some u) s t) E := by
  have wf := hs.method.wellFormed
  refine yields_bind.mpr (yields_graph.mpr ?_)
  -- The blocks in front of those that are left are done.
  refine Yields.mono (Yields.forM (fun rest t => rest.Nodup ∧
      (∀ b ∈ rest, b ∈ s.method.graph.live) ∧
      Prepares (fun b => b ∈ s.method.graph.live ∧ b ∉ rest) (fun u v =>
        (v ∈ s.method.graph.live ∧ v ∉ rest) ∧ (s.method.graph.marker v).isSome = true ∧
          s.method.graph.tmpEdge v = some u) s t)
    (fun b rest t ⟨hnodup, hlive, ht⟩ => ?_) ⟨?_, fun _ hb => hb, ?_⟩) (fun _ t ⟨_, _, ht⟩ => ?_)
    fun _ _ hv => hv
  · have hb := hlive b List.mem_cons_self
    have hlt := wf.live_lt hb
    have hmarks := ht.graph.marks_kept b hlt fun h => h.2 List.mem_cons_self
    rw [List.nodup_cons] at hnodup
    refine (yields_setUpEntry ht.sound (Nat.lt_of_lt_of_le hlt ht.graph.size_le)
      fun p hp => ?_).mono (fun _ u hu => ⟨hnodup.2,
        fun c hc => hlive c (List.mem_cons_of_mem _ hc), ?_⟩) fun _ _ hv => hv
    · rw [Graph.tmpEdge_eq_marks, hmarks, ← Graph.tmpEdge_eq_marks] at hp
      exact Nat.lt_of_lt_of_le (htmp b p hp) ht.graph.size_le
    · rw [Graph.marker_eq_marks, Graph.tmpEdge_eq_marks, hmarks, ← Graph.tmpEdge_eq_marks,
        ← Graph.marker_eq_marks] at hu
      refine (ht.trans hu).congr (fun c _ hc => ?_) fun a c _ _ => ?_
      · rcases hc with ⟨hc, hrest⟩ | rfl
        · exact ⟨hc, fun h => hrest (List.mem_cons_of_mem _ h)⟩
        · exact ⟨hb, hnodup.1⟩
      · by_cases hcb : c = b
        · subst hcb
          simp [hb, hnodup.1]
        · simp [hcb]
  · exact wf.live_ascending.imp Nat.ne_of_lt
  · refine (Prepares.refl hs).congr (fun _ _ h => h) fun u v _ _ => ?_
    constructor
    · exact False.elim
    · exact fun h => h.1.2 h.1.1
  · exact ht.congr (fun _ _ h => h.1) fun u v _ _ => by simp

end Recovery

end TryRegions
