import TryRegions.Proofs.Graph.Rewiring

/-! Graphs that grow without a change to the flow between the blocks that were there. Blocks put on
an edge, exceptional edges to the entries of handlers and blocks that lead nowhere all leave it as
it is, where flow from one old block to another may pass through new blocks that are no entries. -/

namespace TryRegions

/-- A way over at least one edge, on which every block between the two ends satisfies `through`. -/
inductive Route (edge : BlockId → BlockId → Prop) (through : BlockId → Prop) :
    BlockId → BlockId → Prop where
  | edge {u v : BlockId} (h : edge u v) : Route edge through u v
  | via {u w v : BlockId} (h : edge u w) (hw : through w) (rest : Route edge through w v) :
      Route edge through u v

namespace Route

variable {edge edge' : BlockId → BlockId → Prop} {through : BlockId → Prop} {u v : BlockId}

theorem exists_edge (h : Route edge through u v) : ∃ w, edge u w := by
  cases h with
  | edge h => exact ⟨_, h⟩
  | via h _ _ => exact ⟨_, h⟩

theorem append {w : BlockId} (h : Route edge through u v) (hv : through v)
    (h' : Route edge through v w) : Route edge through u w := by
  induction h with
  | edge h => exact .via h hv h'
  | via h hw _ ih => exact .via h hw (ih hv h')

/-- A way on which every edge is replaced by a way. Its ends and all blocks between them satisfy
`P`, so that only edges between such blocks matter. -/
theorem translate {through' P : BlockId → Prop} (h : Route edge through u v)
    (hthrough : ∀ w, through w → through' w ∧ P w)
    (hedge : ∀ a b, P a → P b → edge a b → Route edge' through' a b) (hu : P u) (hv : P v) :
    Route edge' through' u v := by
  induction h with
  | edge h => exact hedge _ _ hu hv h
  | via h hw _ ih =>
    obtain ⟨hw', hP⟩ := hthrough _ hw
    exact (hedge _ _ hu hP h).append hw' (ih hP hv)

theorem replace {through' : BlockId → Prop} (h : Route edge through u v)
    (hthrough : ∀ w, through w → through' w)
    (hedge : ∀ a b, edge a b → Route edge' through' a b) : Route edge' through' u v :=
  h.translate (P := fun _ => True) (fun w hw => ⟨hthrough w hw, trivial⟩)
    (fun a b _ _ => hedge a b) trivial trivial

/-- Edges to blocks where no way goes on make no new ways. -/
theorem iff_of_extra (hsub : ∀ a b, edge a b → edge' a b)
    (hextra : ∀ a b, edge' a b → edge a b ∨ ¬through b ∨ ∀ x, ¬edge' b x)
    (hv : ∀ a, edge' a v → edge a v) : Route edge' through u v ↔ Route edge through u v := by
  constructor
  · intro h
    induction h with
    | edge h => exact .edge (hv _ h)
    | @via a b _ h hb rest ih =>
      rcases hextra a b h with hold | hnot | hdead
      · exact .via hold hb (ih hv)
      · exact absurd hb hnot
      · obtain ⟨x, hx⟩ := rest.exists_edge
        exact absurd hx (hdead x)
  · intro h
    induction h with
    | edge h => exact .edge (hsub _ _ h)
    | via h hw _ ih => exact .via (hsub _ _ h) hw (ih hv)

/-- The edges when the block `mid` is left out, which leads to `next` only. -/
def Skipping (edge : BlockId → BlockId → Prop) (mid next u v : BlockId) : Prop :=
  u ≠ mid ∧ v ≠ mid ∧ (edge u v ∨ edge u mid ∧ v = next)

theorem iff_skipping {mid next : BlockId} (hmid : through mid)
    (hout : ∀ x, edge mid x ↔ x = next) (hne : next ≠ mid) (hu : u ≠ mid) (hv : v ≠ mid) :
    Route edge through u v ↔ Route (Skipping edge mid next) through u v := by
  constructor
  · -- A way that starts in `mid` goes on from `next`, so the induction carries both cases.
    intro h
    suffices hboth : (u ≠ mid → Route (Skipping edge mid next) through u v) ∧
        (u = mid → v = next ∨ through next ∧ Route (Skipping edge mid next) through next v) from
      hboth.1 hu
    clear hu
    induction h with
    | @edge a b h =>
      refine ⟨fun ha => .edge ⟨ha, hv, Or.inl h⟩, ?_⟩
      rintro rfl
      exact Or.inl ((hout b).mp h)
    | @via a b _ h hb _ ih =>
      obtain ⟨hother, hsame⟩ := ih hv
      constructor
      · intro ha
        by_cases hbm : b = mid
        · subst hbm
          rcases hsame rfl with rfl | ⟨hthrough, rest⟩
          · exact .edge ⟨ha, hv, Or.inr ⟨h, rfl⟩⟩
          · exact .via ⟨ha, hne, Or.inr ⟨h, rfl⟩⟩ hthrough rest
        · exact .via ⟨ha, hbm, Or.inl h⟩ hb (hother hbm)
      · rintro rfl
        obtain rfl := (hout b).mp h
        exact Or.inr ⟨hb, hother hne⟩
  · intro h
    clear hu
    induction h with
    | @edge a b h =>
      obtain ⟨-, -, h | ⟨h, rfl⟩⟩ := h
      · exact .edge h
      · exact .via h hmid (.edge ((hout b).mpr rfl))
    | @via a b _ h hb _ ih =>
      obtain ⟨-, -, h | ⟨h, rfl⟩⟩ := h
      · exact .via h hb (ih hv)
      · exact .via h hmid (.via ((hout b).mpr rfl) hb (ih hv))

end Route

/-- What a block is to the handlers, and whether it stays. -/
structure Block.Role where
  handler : Option HandlerId := none
  catches : Option CatchSet := none
  detached : Bool := false
  remove : Bool := false

def Block.role (k : Block) : Block.Role := ⟨k.handler, k.catches, k.detached, k.flags.remove⟩

namespace Graph

def role (g : Graph) (b : BlockId) : Option Block.Role := (g.core b).map Block.role

theorem role_eq (g : Graph) (b : BlockId) : g.role b = (g.block? b).map Block.role := by
  rw [role, core, Option.map_map]
  rfl

theorem isEntry_eq_role (g : Graph) (b : BlockId) :
    g.isEntry b = (g.role b).any fun r => r.handler.isSome := by
  rw [isEntry_eq_core, role, Option.any_map]
  rfl

theorem isLive_eq_role (g : Graph) (b : BlockId) :
    g.isLive b = (g.role b).any fun r => !r.detached := by
  rw [isLive_eq_core, role, Option.any_map]
  rfl

theorem remove_eq_role (g : Graph) (b : BlockId) :
    (g.flags b).remove = (g.role b).any fun r => r.remove := by
  rw [flags_eq_core, role, Option.any_map]
  cases g.core b <;> rfl

theorem isEntry_congr {g g' : Graph} {b : BlockId}
    (h : (g'.block? b).map Block.handler = (g.block? b).map Block.handler) :
    g'.isEntry b = g.isEntry b := by
  have hview := congrArg (Option.any Option.isSome) h
  rwa [Option.any_map, Option.any_map] at hview

theorem flags_congr {g g' : Graph} {b : BlockId}
    (h : (g'.block? b).map Block.flags = (g.block? b).map Block.flags) :
    g'.flags b = g.flags b := by
  have hview := congrArg (fun k => k.elim {} id) h
  rwa [Option.elim_map, Option.elim_map] at hview

theorem isSplitter_iff_of_map {g g' : Graph} {b : BlockId}
    (h : (g'.block? b).map (fun k => (k.flags.topSplitter, k.flags.bottomSplitter)) =
      (g.block? b).map fun k => (k.flags.topSplitter, k.flags.bottomSplitter)) :
    g'.IsSplitter b ↔ g.IsSplitter b := by
  have hview : ∀ g : Graph, g.IsSplitter b ↔ ((g.block? b).map fun k =>
      (k.flags.topSplitter, k.flags.bottomSplitter)).any (fun f => f.1 || f.2) = true := by
    intro g
    rw [IsSplitter, flags]
    cases g.block? b <;> simp
  rw [hview, h, ← hview]

theorem map_block?_modify {β : Type} (view : Block → β) (g : Graph) (b c : BlockId)
    (f : Block → Block) (hf : ∀ k, view (f k) = view k) :
    ((g.modify b f).block? c).map view = (g.block? c).map view := by
  rw [block?_modify]
  split
  · rw [Option.map_map]
    congr 1
    funext k
    exact hf k
  · rfl

theorem map_block?_foldl {β : Type} (view : Block → β) (c : BlockId)
    (step : Graph → BlockId → Graph)
    (hstep : ∀ g b, ((step g b).block? c).map view = (g.block? c).map view) (l : List BlockId)
    (g : Graph) : ((l.foldl step g).block? c).map view = (g.block? c).map view := by
  induction l generalizing g with
  | nil => rfl
  | cons b l ih => rw [List.foldl_cons, ih, hstep]

/-- The clean edges of a block are all that computing them anew changes. -/
theorem map_block?_refreshAll {β : Type} (view : Block → β)
    (hview : ∀ k cs, view { k with clean := cs } = view k) (g : Graph) (c : BlockId) :
    (g.refreshAll.block? c).map view = (g.block? c).map view :=
  map_block?_foldl view c refresh
    (fun g b => map_block?_modify view g b c _ fun k => hview k _) g.live g

theorem map_block?_mapLive {β : Type} (view : Block → β) (g : Graph) (c : BlockId)
    (f : Block → Block) (hf : ∀ k, view (f k) = view k) :
    ((g.mapLive f).block? c).map view = (g.block? c).map view :=
  map_block?_foldl view c _ (fun g b => map_block?_modify view g b c f hf) g.live g

theorem role_modify_eq (g : Graph) (b c : BlockId) (f : Block → Block)
    (hf : ∀ k, (f k).role = k.role) : (g.modify b f).role c = g.role c := by
  rw [role_eq, role_eq]
  exact map_block?_modify Block.role g b c f hf

/-- Where a way from one of the first `n` blocks to another may pass: blocks that were made later
and are not the entry of a handler. -/
def Between (g : Graph) (n : Nat) (w : BlockId) : Prop := n ≤ w ∧ g.isEntry w = false

/-- There is a way from `u` to `v`, directly or over blocks between the first `n`. -/
def Leads (g : Graph) (n : Nat) (u v : BlockId) : Prop :=
  Route (fun a b => b ∈ g.succs a) (g.Between n) u v

section Split

variable {g : Graph} {b : BlockId} (wf : g.WellFormed) (hb : b < g.size)
include wf hb

theorem mem_succs_splitAbove_new (c : BlockId) : c ∈ (g.splitAbove b).succs g.size ↔ c = b := by
  have hnone : g.succs g.size = [] := by
    rw [succs, block?_eq_none.mpr (Nat.le_refl _)]
    rfl
  rw [(splitAbove_rewired wf hb).mem_succs, hnone]
  simp

/-- When the new block is left out again, the edges are those of before. -/
theorem skipping_splitAbove :
    Route.Skipping (fun a c => c ∈ (g.splitAbove b).succs a) g.size b =
      fun a c => c ∈ g.succs a := by
  have split := splitAbove_rewired wf hb
  funext a c
  refine propext ⟨?_, fun hc => ?_⟩
  · rintro ⟨ha, hc, h | ⟨h, rfl⟩⟩
    · rcases (split.mem_succs a c).mp h with h | h | h
      · exact h.1
      · exact absurd h.2 hc
      · exact absurd h.1 ha
    · rcases (split.mem_succs a g.size).mp h with h | h | h
      · exact absurd (wf.succs_lt a _ h.1) (Nat.lt_irrefl _)
      · exact h.1
      · exact absurd h.1 ha
  · refine ⟨Nat.ne_of_lt (lt_of_mem_succs hc), Nat.ne_of_lt (wf.succs_lt a c hc), ?_⟩
    by_cases hcb : c = b
    · subst hcb
      exact Or.inr ⟨(split.mem_succs a g.size).mpr (Or.inr (Or.inl ⟨hc, rfl⟩)), rfl⟩
    · exact Or.inl ((split.mem_succs a c).mpr (Or.inl ⟨hc, hcb⟩))

/-- The split changes no way between other blocks, if it may pass through the new one. -/
theorem route_splitAbove_iff {through : BlockId → Prop} (hnew : through g.size) {u v : BlockId}
    (hu : u ≠ g.size) (hv : v ≠ g.size) :
    Route (fun a c => c ∈ (g.splitAbove b).succs a) through u v ↔
      Route (fun a c => c ∈ g.succs a) through u v := by
  have hskip : Route (fun a c => c ∈ (g.splitAbove b).succs a) through u v ↔
      Route (Route.Skipping (fun a c => c ∈ (g.splitAbove b).succs a) g.size b) through u v :=
    Route.iff_skipping hnew (mem_succs_splitAbove_new wf hb) (Nat.ne_of_lt hb) hu hv
  rwa [skipping_splitAbove wf hb] at hskip

end Split

/-- Every block of `g` has the role that it had, the blocks that `g'` adds have none, and ways
between blocks of `g` lead where they led; ways to the entries of handlers may be new. -/
structure Extends (g g' : Graph) : Prop where
  wellFormed : g'.WellFormed
  clean_lt : ∀ a, ∀ b ∈ g'.clean a, b < g'.size
  size_le : g.size ≤ g'.size
  role_kept : ∀ b < g.size, g'.role b = g.role b
  role_new : ∀ b, g.size ≤ b → b < g'.size → g'.role b = some {}
  leads : ∀ n u v, n ≤ g.size → u < n → v < n → g.isEntry v = false →
    (g'.Leads n u v ↔ g.Leads n u v)

namespace Extends

variable {g g' g'' : Graph}

theorem isEntry_eq (h : g.Extends g') {b : BlockId} (hb : b < g.size) :
    g'.isEntry b = g.isEntry b := by
  rw [isEntry_eq_role, isEntry_eq_role, h.role_kept b hb]

theorem isLive_eq (h : g.Extends g') {b : BlockId} (hb : b < g.size) :
    g'.isLive b = g.isLive b := by
  rw [isLive_eq_role, isLive_eq_role, h.role_kept b hb]

theorem refl (wf : g.WellFormed) (hclean : ∀ a, ∀ b ∈ g.clean a, b < g.size) : g.Extends g :=
  ⟨wf, hclean, Nat.le_refl _, fun _ _ => rfl, fun _ hb hb' => absurd hb' (Nat.not_lt.mpr hb),
    fun _ _ _ _ _ _ _ => Iff.rfl⟩

theorem trans (h : g.Extends g') (h' : g'.Extends g'') : g.Extends g'' where
  wellFormed := h'.wellFormed
  clean_lt := h'.clean_lt
  size_le := Nat.le_trans h.size_le h'.size_le
  role_kept b hb := (h'.role_kept b (Nat.lt_of_lt_of_le hb h.size_le)).trans (h.role_kept b hb)
  role_new b hb hb' := by
    by_cases hmid : b < g'.size
    · rw [h'.role_kept b hmid, h.role_new b hb hmid]
    · exact h'.role_new b (Nat.le_of_not_lt hmid) hb'
  leads n u v hn hu hv hentry := by
    rw [h'.leads n u v (Nat.le_trans hn h.size_le) hu hv, h.leads n u v hn hu hv hentry]
    rwa [h.isEntry_eq (Nat.lt_of_lt_of_le hv hn)]

/-- No edge and no role changes. -/
theorem of_sameFlow (wf : g.WellFormed) (same : g.SameFlow g') (hrole : ∀ b, g'.role b = g.role b)
    (hclean : ∀ a, ∀ b ∈ g'.clean a, b < g'.size) : g.Extends g' where
  wellFormed := same.wellFormed wf
  clean_lt := hclean
  size_le := Nat.le_of_eq same.size.symm
  role_kept b _ := hrole b
  role_new b hb hb' := absurd hb' (by rw [same.size]; exact Nat.not_lt.mpr hb)
  leads n u v _ _ _ _ := by
    have hbetween : g'.Between n = g.Between n := by
      funext w
      rw [Between, Between, isEntry_eq_role, isEntry_eq_role, hrole]
    unfold Leads
    rw [hbetween]
    simp only [same.succs]

/-- A change of blocks that keeps edges and roles. -/
theorem modify (h : g.Extends g') (b : BlockId) (f : Block → Block)
    (hsuccs : ∀ k, (f k).succs = k.succs) (hpreds : ∀ k, (f k).preds = k.preds)
    (hclean : ∀ k, (f k).clean ⊆ k.clean) (hrole : ∀ k, (f k).role = k.role) :
    g.Extends (g'.modify b f) := by
  have hdetached : ∀ k, (f k).detached = k.detached := fun k =>
    congrArg Block.Role.detached (hrole k)
  exact h.trans (of_sameFlow h.wellFormed (.modify g' b f hsuccs hpreds hdetached)
    (fun c => role_modify_eq g' b c f hrole) (clean_lt_modify h.clean_lt b hclean))

theorem refresh (h : g.Extends g') (b : BlockId) : g.Extends (g'.refresh b) := by
  refine h.trans (of_sameFlow h.wellFormed (.refresh g' b)
    (fun c => role_modify_eq g' b c _ fun _ => rfl) fun a c hc => ?_)
  have hsize : (g'.refresh b).size = g'.size := size_modify g' b _
  rw [hsize]
  unfold clean Graph.refresh at hc
  rw [block?_modify] at hc
  by_cases hba : b = a
  · subst hba
    rw [if_pos rfl] at hc
    apply h.wellFormed.succs_lt b c
    unfold succs
    cases hk : g'.block? b with
    | none => rw [hk] at hc; cases hc
    | some k => rw [hk] at hc; exact (List.mem_filter.mp hc).1
  · rw [if_neg hba] at hc
    exact h.clean_lt a c hc

theorem refreshAll (h : g.Extends g') : g.Extends g'.refreshAll := by
  have hfold : ∀ (l : List BlockId) (g' : Graph), g.Extends g' →
      g.Extends (l.foldl Graph.refresh g') := by
    intro l
    induction l with
    | nil => exact fun _ h => h
    | cons b l ih => exact fun g' h => ih _ (h.refresh b)
  exact hfold g'.live g' h

/-- The roles of a graph with other edges are those that it had. -/
theorem role_rewired {edge : BlockId → BlockId → Prop} (h : g.Rewired g' edge) (b : BlockId) :
    g'.role b = g.role b := by
  rw [role, role, h.core]

theorem between_rewired {edge : BlockId → BlockId → Prop} (h : g.Rewired g' edge) (n : Nat) :
    g'.Between n = g.Between n := by
  funext w
  rw [Between, Between, isEntry_eq_role, isEntry_eq_role, role_rewired h]

/-- Other edges among the same blocks, with the same ways between blocks of `g`. -/
theorem rewired {edge : BlockId → BlockId → Prop} (h : g.Extends g') (h' : g'.Rewired g'' edge)
    (hleads : ∀ n u v, n ≤ g.size → u < n → v < n → g'.isEntry v = false →
      (Route edge (g'.Between n) u v ↔ g'.Leads n u v)) : g.Extends g'' where
  wellFormed := h'.wellFormed
  clean_lt a b hb := by
    rw [h'.size]
    exact h.clean_lt a b (h'.clean a hb)
  size_le := by
    rw [h'.size]
    exact h.size_le
  role_kept b hb := (role_rewired h' b).trans (h.role_kept b hb)
  role_new b hb hb' := (role_rewired h' b).trans (h.role_new b hb (h'.size ▸ hb'))
  leads n u v hn hu hv hentry := by
    have hsuccs : (fun a b => b ∈ g''.succs a) = edge := by
      funext a b
      exact propext (h'.mem_succs a b)
    have hentry' : g'.isEntry v = false := by
      rwa [h.isEntry_eq (Nat.lt_of_lt_of_le hv hn)]
    unfold Leads
    rw [hsuccs, between_rewired h', hleads n u v hn hu hv hentry']
    exact h.leads n u v hn hu hv hentry

theorem newBlock (h : g.Extends g') (offset : Int) : g.Extends (g'.newBlock offset) := by
  have hrole : ∀ a, (g'.newBlock offset).role a = if a = g'.size then some {} else g'.role a := by
    intro a
    rw [role, core_newBlock]
    split <;> rfl
  refine h.trans ⟨h.wellFormed.newBlock offset, fun a b hb => ?_, ?_, fun b hb => ?_,
    fun b hb hb' => ?_, fun n u v _ _ _ _ => ?_⟩
  · rw [clean_newBlock] at hb
    rw [size_newBlock]
    exact Nat.lt_succ_of_lt (h.clean_lt a b hb)
  · rw [size_newBlock]
    exact Nat.le_succ _
  · rw [hrole, if_neg (Nat.ne_of_lt hb)]
  · rw [size_newBlock] at hb'
    rw [hrole, if_pos (Nat.le_antisymm (Nat.le_of_lt_succ hb') hb)]
  · have hbetween : (g'.newBlock offset).Between n = g'.Between n := by
      funext w
      rw [Between, Between, isEntry_eq_role, isEntry_eq_role, hrole]
      split
      · rename_i hw
        rw [hw, role_eq, block?_eq_none.mpr (Nat.le_refl _)]
        rfl
      · rfl
    unfold Leads
    rw [hbetween]
    simp only [succs_newBlock]

/-- A new edge makes no new way between blocks of `g` if it leads to the entry of a handler or to a
new block that leads nowhere, or if it is not new at all. -/
theorem addEdge (h : g.Extends g') {source target : BlockId} (hs : source < g'.size)
    (ht : target < g'.size)
    (harmless : g'.isEntry target = true ∨
      (g.size ≤ target ∧ source ≠ target ∧ g'.succs target = []) ∨ target ∈ g'.succs source) :
    g.Extends (g'.addEdge source target) := by
  refine h.rewired (.addEdge h.wellFormed hs ht) fun n u v hn hu hv hentry => ?_
  refine Route.iff_of_extra (fun a b hb => Or.inl hb) (fun a b hb => ?_) (fun a ha => ?_)
  · rcases hb with hb | ⟨rfl, rfl⟩
    · exact Or.inl hb
    · rcases harmless with hent | ⟨-, hne, hdead⟩ | hold
      · refine Or.inr (Or.inl fun hbetween => ?_)
        rw [hbetween.2] at hent
        cases hent
      · refine Or.inr (Or.inr fun x hx => ?_)
        rcases hx with hx | ⟨heq, -⟩
        · rw [hdead] at hx
          cases hx
        · exact hne heq.symm
      · exact Or.inl hold
  · rcases ha with ha | ⟨rfl, rfl⟩
    · exact ha
    · rcases harmless with hent | ⟨hnew, -, -⟩ | hold
      · rw [hent] at hentry
        cases hentry
      · exact absurd (Nat.lt_of_lt_of_le hv hn) (Nat.not_lt.mpr hnew)
      · exact hold

/-- A new block on the edges to `b`. -/
theorem splitAbove (wf : g.WellFormed) (hclean : ∀ a, ∀ b ∈ g.clean a, b < g.size) {b : BlockId}
    (hb : b < g.size) : g.Extends (g.splitAbove b) := by
  have split := splitAbove_rewired wf hb
  have hrole : ∀ a, (g.splitAbove b).role a = if a = g.size then some {} else g.role a := by
    intro a
    rw [role, core_splitAbove wf hb]
    split <;> rfl
  have hentry : ∀ a, (g.splitAbove b).isEntry a = g.isEntry a := by
    intro a
    rw [isEntry_eq_role, isEntry_eq_role, hrole]
    by_cases ha : a = g.size
    · subst ha
      rw [role_eq, block?_eq_none.mpr (Nat.le_refl _)]
      simp
    · rw [if_neg ha]
  constructor
  case wellFormed => exact split.wellFormed
  case clean_lt =>
    intro a c hc
    have hc' := split.clean a hc
    rw [clean_newBlock] at hc'
    rw [size_splitAbove wf hb]
    exact Nat.lt_succ_of_lt (hclean a c hc')
  case size_le =>
    rw [size_splitAbove wf hb]
    exact Nat.le_succ _
  case role_kept =>
    intro a ha
    rw [hrole, if_neg (Nat.ne_of_lt ha)]
  case role_new =>
    intro a ha ha'
    rw [size_splitAbove wf hb] at ha'
    rw [hrole, if_pos (Nat.le_antisymm (Nat.le_of_lt_succ ha') ha)]
  case leads =>
    intro n u v hn hu hv _
    have hbetween : (g.splitAbove b).Between n = g.Between n := by
      funext w
      rw [Between, Between, hentry]
    have hnew : g.Between n g.size := by
      refine ⟨hn, ?_⟩
      rw [isEntry, block?_eq_none.mpr (Nat.le_refl _)]
      rfl
    have hu' : u ≠ g.size := Nat.ne_of_lt (Nat.lt_of_lt_of_le hu hn)
    have hv' : v ≠ g.size := Nat.ne_of_lt (Nat.lt_of_lt_of_le hv hn)
    unfold Leads
    rw [hbetween]
    exact route_splitAbove_iff wf hb hnew hu' hv'

/-- An edge to a new block on the way to `next` is turned to lead to `next` itself. -/
theorem redirect (h : g.Extends g') {source mid next : BlockId} (hmid : g.size ≤ mid)
    (hentry : g'.isEntry mid = false) (hout : ∀ x, x ∈ g'.succs mid ↔ x = next) (hne : next ≠ mid)
    (hsource : mid ∈ g'.succs source) : g.Extends (g'.redirect source mid next) := by
  have hnext : next < g'.size := h.wellFormed.succs_lt mid next ((hout next).mpr rfl)
  have hsm : source ≠ mid := by
    rintro rfl
    exact hne.symm ((hout source).mp hsource)
  refine h.rewired (.redirect h.wellFormed hsource (Ne.symm hne) hnext) ?_
  intro n u v hn hu hv _
  have hbetween : g'.Between n mid := ⟨Nat.le_trans hn hmid, hentry⟩
  have hu' : u ≠ mid := Nat.ne_of_lt (Nat.lt_of_lt_of_le hu (Nat.le_trans hn hmid))
  have hv' : v ≠ mid := Nat.ne_of_lt (Nat.lt_of_lt_of_le hv (Nat.le_trans hn hmid))
  have hout' : ∀ x, x ∈ g'.succs mid ∧ ¬(mid = source ∧ x = mid) ∨ mid = source ∧ x = next ↔
      x = next := by
    intro x
    rw [hout]
    simp [Ne.symm hsm]
  have hskip : Route.Skipping
      (fun a c => c ∈ g'.succs a ∧ ¬(a = source ∧ c = mid) ∨ a = source ∧ c = next) mid next =
      Route.Skipping (fun a c => c ∈ g'.succs a) mid next := by
    funext a c
    refine propext (and_congr_right fun _ => and_congr_right fun hc => ?_)
    by_cases ha : a = source
    · subst ha
      simp [hc, hsource, Ne.symm hne]
    · simp [ha]
  refine (Route.iff_skipping hbetween hout' hne hu' hv').trans ?_
  rw [hskip]
  exact (Route.iff_skipping hbetween hout hne hu' hv').symm

end Extends

end Graph

end TryRegions
