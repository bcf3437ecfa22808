import TryRegions.Proofs.Graph.Edits

/-! Edits made of several edge edits: a block split off the top of another one, and blocks that are
isolated and detached. Each is described by the edges that it leaves. -/

namespace TryRegions.Graph

/-- `g'` is `g` with the edges that `edge` says, and nothing else changed. -/
structure Rewired (g g' : Graph) (edge : BlockId → BlockId → Prop) : Prop where
  wellFormed : g'.WellFormed
  size : g'.size = g.size
  live : g'.live = g.live
  core : ∀ b, g'.core b = g.core b
  clean : ∀ b, g'.clean b ⊆ g.clean b
  mem_succs : ∀ a c, c ∈ g'.succs a ↔ edge a c

namespace Rewired

variable {g g' g'' : Graph} {edge edge' : BlockId → BlockId → Prop}

theorem refl (wf : g.WellFormed) (h : ∀ a c, c ∈ g.succs a ↔ edge a c) : g.Rewired g edge :=
  ⟨wf, rfl, rfl, fun _ => rfl, fun _ => List.Subset.refl _, h⟩

theorem trans (h : g.Rewired g' edge) (h' : g'.Rewired g'' edge') : g.Rewired g'' edge' where
  wellFormed := h'.wellFormed
  size := h'.size.trans h.size
  live := h'.live.trans h.live
  core b := (h'.core b).trans (h.core b)
  clean b := List.Subset.trans (h'.clean b) (h.clean b)
  mem_succs := h'.mem_succs

theorem congr (h : g.Rewired g' edge) (he : ∀ a c, edge a c ↔ edge' a c) : g.Rewired g' edge' :=
  { h with mem_succs := fun a c => (h.mem_succs a c).trans (he a c) }

theorem addEdge (wf : g.WellFormed) {source target : BlockId} (hs : source < g.size)
    (ht : target < g.size) :
    g.Rewired (g.addEdge source target) fun a c => c ∈ g.succs a ∨ a = source ∧ c = target where
  wellFormed := wf.addEdge hs ht
  size := size_addEdge g source target
  live := rfl
  core := core_addEdge
  clean b := by simp [clean_addEdge]
  mem_succs _ _ := mem_succs_addEdge hs

theorem removeEdge (wf : g.WellFormed) (source target : BlockId) :
    g.Rewired (g.removeEdge source target)
      fun a c => c ∈ g.succs a ∧ ¬(a = source ∧ c = target) where
  wellFormed := wf.removeEdge source target
  size := size_removeEdge g source target
  live := rfl
  core := core_removeEdge
  clean := clean_removeEdge_subset
  mem_succs _ _ := wf.mem_succs_removeEdge

theorem redirect (wf : g.WellFormed) {source old new : BlockId} (hold : old ∈ g.succs source)
    (hne : old ≠ new) (hnew : new < g.size) :
    g.Rewired (g.redirect source old new)
      fun a c => c ∈ g.succs a ∧ ¬(a = source ∧ c = old) ∨ a = source ∧ c = new where
  wellFormed := wf.redirect hold hne hnew
  size := size_redirect g source old new
  live := rfl
  core := core_redirect
  clean b := by simp [clean_redirect]
  mem_succs _ _ := wf.mem_succs_redirect hold hne

/-- Turning the edges from several blocks to `b`, so that they lead to `new`. -/
theorem foldl_redirect (wf : g.WellFormed) {b new : BlockId} (hne : b ≠ new) (hnew : new < g.size)
    (ps : List BlockId) (hnodup : ps.Nodup) (hps : ∀ p ∈ ps, b ∈ g.succs p) :
    g.Rewired (ps.foldl (fun h p => h.redirect p b new) g)
      fun a c => c ∈ g.succs a ∧ ¬(a ∈ ps ∧ c = b) ∨ a ∈ ps ∧ c = new := by
  induction ps generalizing g with
  | nil => exact refl wf (by simp)
  | cons p ps ih =>
    rw [List.nodup_cons] at hnodup
    have first := redirect wf (hps p List.mem_cons_self) hne hnew
    have others : ∀ q ∈ ps, b ∈ (g.redirect p b new).succs q := by
      intro q hq
      refine (first.mem_succs q b).mpr (Or.inl ⟨hps q (List.mem_cons_of_mem _ hq), fun h => ?_⟩)
      exact hnodup.1 (h.1 ▸ hq)
    refine (first.trans (ih first.wellFormed (by rwa [first.size]) hnodup.2 others)).congr ?_
    intro a c
    rw [first.mem_succs, List.mem_cons]
    by_cases hap : a = p
    · subst hap
      simp only [hnodup.1, true_and, false_and, not_false_iff, and_true, or_false]
    · simp only [hap, false_and, not_false_iff, and_true, or_false, false_or]

end Rewired

/-! ### Taking edges away -/

/-- `g'` is `g` without the edges that are not to be kept, and nothing else changed: the others stay
in their order, at both of their ends. Clean edges go with the edges, as far as they are listed in
the same order. -/
structure Filtered (g g' : Graph) (keep : BlockId → BlockId → Bool) : Prop where
  size : g'.size = g.size
  live : g'.live = g.live
  core : ∀ b, g'.core b = g.core b
  succs : ∀ a, g'.succs a = (g.succs a).filter (keep a)
  preds : ∀ c, g'.preds c = (g.preds c).filter (keep · c)
  clean_subset : ∀ a, g'.clean a ⊆ g.clean a
  clean : ∀ a, (g.clean a).Sublist (g.succs a) → g'.clean a = (g.clean a).filter (keep a)

namespace Filtered

variable {g g' g'' : Graph} {keep keep' : BlockId → BlockId → Bool}

theorem refl (g : Graph) : g.Filtered g fun _ _ => true where
  size := rfl
  live := rfl
  core _ := rfl
  succs a := by simp
  preds c := by simp
  clean_subset _ := List.Subset.refl _
  clean a _ := by simp

theorem trans (h : g.Filtered g' keep) (h' : g'.Filtered g'' keep') :
    g.Filtered g'' fun a c => keep' a c && keep a c where
  size := h'.size.trans h.size
  live := h'.live.trans h.live
  core b := (h'.core b).trans (h.core b)
  succs a := by rw [h'.succs, h.succs, List.filter_filter]
  preds c := by rw [h'.preds, h.preds, List.filter_filter]
  clean_subset a := List.Subset.trans (h'.clean_subset a) (h.clean_subset a)
  clean a hsub := by
    have heq := h.clean a hsub
    have hsub' : (g'.clean a).Sublist (g'.succs a) := by
      rw [heq, h.succs]
      exact hsub.filter _
    rw [h'.clean a hsub', heq, List.filter_filter]

/-- Only edges that are there matter. -/
theorem congr (h : g.Filtered g' keep) (wf : g.WellFormed)
    (hkeep : ∀ a c, c ∈ g.succs a → (keep a c = true ↔ keep' a c = true)) :
    g.Filtered g' keep' where
  size := h.size
  live := h.live
  core := h.core
  succs a := (h.succs a).trans
    (List.filter_congr fun c hc => Bool.eq_iff_iff.mpr (hkeep a c hc))
  preds c := (h.preds c).trans
    (List.filter_congr fun a ha => Bool.eq_iff_iff.mpr (hkeep a c ((wf.mirrored a c).mpr ha)))
  clean_subset := h.clean_subset
  clean a hsub := (h.clean a hsub).trans
    (List.filter_congr fun c hc => Bool.eq_iff_iff.mpr (hkeep a c (hsub.subset hc)))

theorem rewired (h : g.Filtered g' keep) (wf : g.WellFormed) :
    g.Rewired g' fun a c => c ∈ g.succs a ∧ keep a c = true where
  wellFormed :=
    { mirrored := fun a c => by
        rw [h.succs, h.preds, List.mem_filter, List.mem_filter, wf.mirrored]
      succs_nodup := fun a => h.succs a ▸ (wf.succs_nodup a).filter _
      preds_nodup := fun c => h.preds c ▸ (wf.preds_nodup c).filter _
      succs_lt := fun a c hc => by
        rw [h.succs] at hc
        rw [h.size]
        exact wf.succs_lt a c (List.mem_filter.mp hc).1
      mem_live := fun b => by
        rw [h.live, isLive_eq_core, h.core, ← isLive_eq_core]
        exact wf.mem_live b
      live_ascending := h.live ▸ wf.live_ascending }
  size := h.size
  live := h.live
  core := h.core
  clean := h.clean_subset
  mem_succs a c := by rw [h.succs, List.mem_filter]

theorem erase_if_eq_filter {p : Prop} [Decidable p] {l : List BlockId} (hl : l.Nodup)
    (x : BlockId) : (if p then l.erase x else l) = l.filter fun c => decide ¬(p ∧ c = x) := by
  by_cases hp : p
  · rw [if_pos hp, hl.erase_eq_filter]
    exact List.filter_congr fun c _ => by by_cases hc : c = x <;> simp [hp, hc]
  · simp [hp]

theorem removeEdge (wf : g.WellFormed) (source target : BlockId) :
    g.Filtered (g.removeEdge source target) fun a c => decide ((a, c) ≠ (source, target)) where
  size := size_removeEdge g source target
  live := rfl
  core := core_removeEdge
  succs a := by
    rw [succs_removeEdge, erase_if_eq_filter (wf.succs_nodup a)]
    exact List.filter_congr fun c hc => by simp [lt_of_mem_succs hc, eq_comm]
  preds c := by
    rw [preds_removeEdge, erase_if_eq_filter (wf.preds_nodup c)]
    exact List.filter_congr fun a ha => by simp [lt_of_mem_preds ha, eq_comm, and_comm]
  clean_subset := clean_removeEdge_subset
  clean a hsub := by
    rw [clean_removeEdge, erase_if_eq_filter ((wf.succs_nodup a).sublist hsub)]
    exact List.filter_congr fun c hc => by simp [lt_of_mem_clean hc, eq_comm]

theorem foldl_removeEdge (wf : g.WellFormed) (edges : List (BlockId × BlockId)) :
    g.Filtered (edges.foldl (fun h e => h.removeEdge e.1 e.2) g)
      fun a c => decide ((a, c) ∉ edges) := by
  induction edges generalizing g with
  | nil => exact (refl g).congr wf (by simp)
  | cons e edges ih =>
    have first := removeEdge wf e.1 e.2
    refine (first.trans (ih (first.rewired wf).wellFormed)).congr wf fun a c _ => ?_
    rw [Bool.and_eq_true, decide_eq_true_eq, decide_eq_true_eq, decide_eq_true_eq, List.mem_cons,
      not_or, and_comm]

/-- A block that is isolated loses all its edges, a loop at it included. -/
theorem isolate (wf : g.WellFormed) (b : BlockId) :
    g.Filtered (g.isolate b) fun a c => decide (a ≠ b) && decide (c ≠ b) := by
  have into := foldl_removeEdge wf ((g.preds b).map fun p => (p, b))
  rw [List.foldl_map] at into
  have out := foldl_removeEdge (into.rewired wf).wellFormed
    ((((g.preds b).foldl (fun h p => h.removeEdge p b) g).succs b).map fun s => (b, s))
  rw [List.foldl_map] at out
  refine (into.trans out).congr wf fun a c hc => ?_
  have hinto : (a, c) ∈ (g.preds b).map (fun p => (p, b)) ↔ c = b := by
    simp only [List.mem_map, Prod.mk.injEq, ← wf.mirrored]
    exact ⟨fun ⟨_, _, _, h⟩ => h.symm, fun h => ⟨a, h ▸ hc, rfl, h.symm⟩⟩
  have hout : (a, c) ∈ (((g.preds b).foldl (fun h p => h.removeEdge p b) g).succs b).map
      (fun s => (b, s)) ↔ a = b ∧ (b, c) ∉ (g.preds b).map (fun p => (p, b)) := by
    rw [into.succs]
    simp only [List.mem_map, List.mem_filter, decide_eq_true_eq, Prod.mk.injEq]
    constructor
    · rintro ⟨s, ⟨-, hs⟩, rfl, rfl⟩
      exact ⟨rfl, hs⟩
    · rintro ⟨rfl, h⟩
      exact ⟨c, ⟨hc, h⟩, rfl, rfl⟩
  rw [Bool.and_eq_true, Bool.and_eq_true, decide_eq_true_eq, decide_eq_true_eq, decide_eq_true_eq,
    decide_eq_true_eq, hout, hinto]
  constructor
  · rintro ⟨hfrom, hto⟩
    refine ⟨?_, hto⟩
    rintro rfl
    exact hfrom ⟨rfl, mt hinto.mp hto⟩
  · exact fun h => ⟨fun h' => h.1 h'.1, h.2⟩

theorem foldl_isolate (wf : g.WellFormed) (bs : List BlockId) :
    g.Filtered (bs.foldl Graph.isolate g) fun a c => decide (a ∉ bs) && decide (c ∉ bs) := by
  induction bs generalizing g with
  | nil => exact (refl g).congr wf (by simp)
  | cons b bs ih =>
    have first := isolate wf b
    refine (first.trans (ih (first.rewired wf).wellFormed)).congr wf fun a c _ => ?_
    simp only [Bool.and_eq_true, decide_eq_true_eq, List.mem_cons, not_or]
    tauto

end Filtered

/-! ### Splitting a block off the top of another one -/

section Split

variable {g : Graph} {b : BlockId} (wf : g.WellFormed) (hb : b < g.size)
include wf hb

/-- After a split the edges to `b` lead to the new block, and from it one leads to `b`. -/
theorem splitAbove_rewired :
    (g.newBlock ((g.block? b).elim 0 Block.offset)).Rewired (g.splitAbove b) fun a c =>
      c ∈ g.succs a ∧ c ≠ b ∨ b ∈ g.succs a ∧ c = g.size ∨ a = g.size ∧ c = b := by
  have turned := Rewired.foldl_redirect (wf.newBlock ((g.block? b).elim 0 Block.offset))
    (Nat.ne_of_lt hb) (by simp) (g.preds b) (wf.preds_nodup b) (fun p hp => by
      rw [succs_newBlock]
      exact (wf.mirrored p b).mpr hp)
  have hsize : g.size < (((g.preds b).foldl (fun h p => h.redirect p b g.size)
      (g.newBlock ((g.block? b).elim 0 Block.offset)))).size := by
    rw [turned.size, size_newBlock]
    exact Nat.lt_succ_self _
  refine (turned.trans (Rewired.addEdge turned.wellFormed hsize (Nat.lt_trans hb hsize))).congr ?_
  intro a c
  rw [turned.mem_succs, succs_newBlock, ← wf.mirrored a b, or_assoc]
  by_cases hcb : c = b
  · subst hcb
    simp
  · simp [hcb]

theorem size_splitAbove : (g.splitAbove b).size = g.size + 1 := by
  rw [(splitAbove_rewired wf hb).size, size_newBlock]

theorem core_splitAbove (a : BlockId) :
    (g.splitAbove b).core a =
      if a = g.size then some { offset := (g.block? b).elim 0 Block.offset } else g.core a := by
  rw [(splitAbove_rewired wf hb).core, core_newBlock]

end Split

/-! ### Detaching blocks -/

section Detach

variable {g : Graph}

/-- The block is live and flagged for removal. -/
def Marked (g : Graph) (b : BlockId) : Prop := g.isLive b = true ∧ (g.flags b).remove = true

instance (g : Graph) (b : BlockId) : Decidable (g.Marked b) :=
  inferInstanceAs (Decidable (_ ∧ _))

/-- `g'` is `g` without the blocks that are gone and without their edges. -/
structure Detached (g g' : Graph) (gone : BlockId → Prop) : Prop where
  wellFormed : g'.WellFormed
  size : g'.size = g.size
  core_kept : ∀ b, ¬gone b → g'.core b = g.core b
  core_gone : ∀ b, gone b → g'.core b = (g.core b).map fun k => { k with detached := true }
  clean : ∀ b, g'.clean b ⊆ g.clean b
  mem_succs : ∀ a c, c ∈ g'.succs a ↔ c ∈ g.succs a ∧ ¬gone a ∧ ¬gone c

/-- The blocks `bs` with the sign that they are detached, and no edge changed. -/
def signed (g : Graph) (bs : List BlockId) : Graph :=
  bs.foldl (fun h b => h.modify b fun k => { k with detached := true }) g

theorem core_signed (bs : List BlockId) (b : BlockId) :
    (g.signed bs).core b =
      if b ∈ bs then (g.core b).map fun k => { k with detached := true } else g.core b := by
  unfold signed
  induction bs generalizing g with
  | nil => simp
  | cons a bs ih =>
    rw [List.foldl_cons, ih, core_modify g a b _ (fun k => { k with detached := true })]
    · by_cases ha : a = b
      · subst ha
        by_cases hmem : a ∈ bs
        · simp [hmem, Function.comp_def]
        · simp [hmem]
      · simp [ha, Ne.symm ha]
    · exact fun _ => rfl

theorem signed_edges (bs : List BlockId) :
    (g.signed bs).size = g.size ∧ (g.signed bs).live = g.live ∧
      ∀ b, (g.signed bs).succs b = g.succs b ∧ (g.signed bs).preds b = g.preds b ∧
        (g.signed bs).clean b = g.clean b := by
  unfold signed
  induction bs generalizing g with
  | nil => exact ⟨rfl, rfl, fun b => ⟨rfl, rfl, rfl⟩⟩
  | cons a bs ih =>
    obtain ⟨hsize, hlive, hedges⟩ := ih (g := g.modify a fun k => { k with detached := true })
    refine ⟨hsize.trans (size_modify _ _ _), hlive, fun b => ?_⟩
    obtain ⟨hsuccs, hpreds, hclean⟩ := hedges b
    refine ⟨hsuccs.trans ?_, hpreds.trans ?_, hclean.trans ?_⟩
    · exact succs_modify_eq g a b _ fun _ => rfl
    · exact preds_modify_eq g a b _ fun _ => rfl
    · exact clean_modify_eq g a b _ fun _ => rfl

theorem isLive_signed (bs : List BlockId) (b : BlockId) :
    (g.signed bs).isLive b = (g.isLive b && decide (b ∉ bs)) := by
  rw [isLive_eq_core, core_signed, isLive_eq_core]
  split
  · rename_i hb
    cases g.core b <;> simp [hb]
  · rename_i hb
    simp [hb]

/-- The live blocks that are flagged for removal. -/
def marked (g : Graph) : List BlockId := g.live.filter fun b => (g.flags b).remove

theorem WellFormed.mem_marked (wf : g.WellFormed) {b : BlockId} : b ∈ g.marked ↔ g.Marked b := by
  rw [marked, List.mem_filter, wf.mem_live]
  rfl

/-- The graph whose marked blocks are signed as detached and live no more, but keep their edges. -/
def struck (g : Graph) : Graph :=
  ({ g with live := g.live.filter fun b => !(g.flags b).remove } : Graph).signed g.marked

theorem struck_edges (g : Graph) : g.struck.size = g.size ∧
    g.struck.live = g.live.filter (fun b => !(g.flags b).remove) ∧
      ∀ b, g.struck.succs b = g.succs b ∧ g.struck.preds b = g.preds b ∧
        g.struck.clean b = g.clean b :=
  signed_edges g.marked

theorem core_struck (g : Graph) (b : BlockId) : g.struck.core b =
    if b ∈ g.marked then (g.core b).map fun k => { k with detached := true } else g.core b :=
  core_signed g.marked b

theorem WellFormed.struck (wf : g.WellFormed) : g.struck.WellFormed := by
  obtain ⟨hsize, hlive, hedges⟩ := g.struck_edges
  constructor
  case mirrored =>
    intro a b
    rw [(hedges a).1, (hedges b).2.1]
    exact wf.mirrored a b
  case succs_nodup =>
    intro a
    rw [(hedges a).1]
    exact wf.succs_nodup a
  case preds_nodup =>
    intro b
    rw [(hedges b).2.1]
    exact wf.preds_nodup b
  case succs_lt =>
    intro a b hb
    rw [(hedges a).1] at hb
    rw [hsize]
    exact wf.succs_lt a b hb
  case mem_live =>
    intro b
    have hlive' : g.struck.isLive b = (g.isLive b && decide (b ∉ g.marked)) :=
      isLive_signed g.marked b
    rw [hlive, hlive', List.mem_filter, wf.mem_live, Bool.and_eq_true, decide_eq_true_eq, marked,
      List.mem_filter, wf.mem_live]
    cases (g.flags b).remove <;> simp
  case live_ascending =>
    rw [hlive]
    exact wf.live_ascending.filter _

/-- Where no block is marked, nothing happens. -/
theorem detachMarked_eq_self (wf : g.WellFormed) (hmarked : ∀ b, ¬g.Marked b) :
    g.detachMarked = g := by
  have hempty : g.marked = [] :=
    List.eq_nil_iff_forall_not_mem.mpr fun b hb => hmarked b (wf.mem_marked.mp hb)
  exact if_pos (List.isEmpty_iff.mpr hempty)

/-- What is left of the edges is those that join blocks which are not marked. -/
theorem detachMarked_filtered (wf : g.WellFormed) : g.struck.Filtered g.detachMarked
    fun a c => decide (a ∉ g.marked) && decide (c ∉ g.marked) := by
  by_cases hempty : g.marked = []
  · have hsame : g.detachMarked = g :=
      detachMarked_eq_self wf fun b hb => by simpa [hempty] using wf.mem_marked.mpr hb
    have hlive : g.live.filter (fun b => !(g.flags b).remove) = g.live := by
      have hnone := List.filter_eq_nil_iff.mp hempty
      exact List.filter_eq_self.mpr fun b hb => by simpa using hnone b hb
    have hstruck : g.struck = g := by
      rw [struck, hempty, hlive]
      rfl
    rw [hsame, hstruck]
    exact (Filtered.refl g).congr wf (by simp [hempty])
  · have hnot : ¬g.marked.isEmpty = true := mt List.isEmpty_iff.mp hempty
    have hsome : g.detachMarked = (g.marked.foldl isolate g.struck).bump := if_neg hnot
    rw [hsome]
    have cut := Filtered.foldl_isolate wf.struck g.marked
    exact ⟨cut.size, cut.live, cut.core, cut.succs, cut.preds, cut.clean_subset, cut.clean⟩

theorem detachMarked_detached (wf : g.WellFormed) : g.Detached g.detachMarked g.Marked := by
  obtain ⟨hsize, -, hedges⟩ := g.struck_edges
  have cut := detachMarked_filtered wf
  have rewired := cut.rewired wf.struck
  constructor
  case wellFormed => exact rewired.wellFormed
  case size => exact cut.size.trans hsize
  case core_kept =>
    intro b hb
    rw [cut.core, core_struck, if_neg (mt wf.mem_marked.mp hb)]
  case core_gone =>
    intro b hb
    rw [cut.core, core_struck, if_pos (wf.mem_marked.mpr hb)]
  case clean =>
    intro b
    rw [← (hedges b).2.2]
    exact cut.clean_subset b
  case mem_succs =>
    intro a c
    rw [rewired.mem_succs, (hedges a).1, Bool.and_eq_true, decide_eq_true_eq, decide_eq_true_eq,
      wf.mem_marked, wf.mem_marked]

section Detached

variable (wf : g.WellFormed)
include wf

theorem not_isLive_detachMarked {b : BlockId} (hb : g.Marked b) :
    ¬g.detachMarked.isLive b = true := by
  rw [isLive_eq_core, (detachMarked_detached wf).core_gone b hb]
  cases g.core b <;> exact Bool.false_ne_true

theorem isEntry_detachMarked (b : BlockId) : g.detachMarked.isEntry b = g.isEntry b := by
  rw [isEntry_eq_core, isEntry_eq_core]
  by_cases hb : g.Marked b
  · rw [(detachMarked_detached wf).core_gone b hb]
    cases g.core b <;> rfl
  · rw [(detachMarked_detached wf).core_kept b hb]

theorem flags_detachMarked (b : BlockId) : g.detachMarked.flags b = g.flags b := by
  rw [flags_eq_core, flags_eq_core]
  by_cases hb : g.Marked b
  · rw [(detachMarked_detached wf).core_gone b hb]
    cases g.core b <;> rfl
  · rw [(detachMarked_detached wf).core_kept b hb]

/-- Once is enough. -/
theorem not_marked_detachMarked (b : BlockId) : ¬g.detachMarked.Marked b := by
  rintro ⟨hlive, hremove⟩
  rw [flags_detachMarked wf] at hremove
  by_cases hb : g.Marked b
  · exact not_isLive_detachMarked wf hb hlive
  · rw [isLive_eq_core, (detachMarked_detached wf).core_kept b hb, ← isLive_eq_core] at hlive
    exact hb ⟨hlive, hremove⟩

end Detached

end Detach

end TryRegions.Graph
