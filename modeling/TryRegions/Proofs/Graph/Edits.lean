import TryRegions.Graph.Clean
import TryRegions.Proofs.Graph.WellFormed

/-! What each edit of a graph does to the edges, what it leaves alone, and that it keeps the graph
well-formed. Edits of edges leave the core of every block alone, which is all of it but the edges;
edits of a core leave the edges alone. -/

namespace TryRegions

/-- The block without its edges. -/
def Block.core (k : Block) : Block := { k with preds := [], succs := [], clean := [] }

/-- What is noted on the block besides its code and its edges. -/
def Block.label (k : Block) : Option HandlerId × BlockFlags × Option RegionId :=
  (k.handler, k.flags, k.region)

namespace Graph

/-- The core of a block, if there is one of that number. -/
def core (g : Graph) (b : BlockId) : Option Block := (g.block? b).map Block.core

theorem isLive_eq_core (g : Graph) (b : BlockId) :
    g.isLive b = (g.core b).any fun k => !k.detached := by
  rw [isLive, core, Option.any_map]
  rfl

theorem isEntry_eq_core (g : Graph) (b : BlockId) :
    g.isEntry b = (g.core b).any fun k => k.handler.isSome := by
  rw [isEntry, core, Option.any_map]
  rfl

theorem flags_eq_core (g : Graph) (b : BlockId) : g.flags b = (g.core b).elim {} Block.flags := by
  rw [flags, core]
  cases g.block? b <;> rfl

/-- The region that a block belongs to. -/
def home (g : Graph) (b : BlockId) : Option RegionId := (g.block? b).bind Block.region

/-- The handler that a block is the entry of, its flags and its region. -/
def label (g : Graph) (b : BlockId) : Option (Option HandlerId × BlockFlags × Option RegionId) :=
  (g.core b).map Block.label

theorem label_eq (g : Graph) (b : BlockId) : g.label b = (g.block? b).map Block.label := by
  rw [label, core, Option.map_map]
  rfl

theorem isEntry_eq_label (g : Graph) (b : BlockId) :
    g.isEntry b = (g.label b).any fun l => l.1.isSome := by
  rw [label_eq, Option.any_map]
  rfl

theorem flags_eq_label (g : Graph) (b : BlockId) :
    g.flags b = (g.label b).elim {} fun l => l.2.1 := by
  rw [label_eq, Option.elim_map]
  rfl

theorem home_eq_label (g : Graph) (b : BlockId) : g.home b = (g.label b).bind fun l => l.2.2 := by
  rw [label_eq, Option.bind_map]
  rfl

/-- Exceptional edges are tied to the block. -/
def IsSplitter (g : Graph) (b : BlockId) : Prop :=
  (g.flags b).topSplitter = true ∨ (g.flags b).bottomSplitter = true

theorem IsSplitter.lt {g : Graph} {b : BlockId} (h : g.IsSplitter b) : b < g.size := by
  by_contra hb
  rw [IsSplitter, Graph.flags, block?_eq_none.mpr (Nat.le_of_not_lt hb)] at h
  exact h.elim nofun nofun

theorem isSplitter_congr {g g' : Graph} {b : BlockId} (h : g'.flags b = g.flags b) :
    g'.IsSplitter b ↔ g.IsSplitter b := by
  rw [IsSplitter, h, IsSplitter]

section Modify

variable (g : Graph) (b c : BlockId) (f : Block → Block)

theorem label_modify_eq (hf : ∀ k, (f k).label = k.label) : (g.modify b f).label c = g.label c := by
  rw [label_eq, label_eq, block?_modify]
  split
  · rw [Option.map_map]
    congr 1
    funext k
    exact hf k
  · rfl

/-- What is read off a block changes as the block does. -/
theorem elim_modify {β : Type} (view : Block → β) (none : β) (change : β → β)
    (hf : ∀ k, view (f k) = change (view k)) :
    ((g.modify b f).block? c).elim none view =
      if b = c ∧ c < g.size then change ((g.block? c).elim none view)
      else (g.block? c).elim none view := by
  rw [block?_modify]
  by_cases hbc : b = c
  · subst hbc
    by_cases hb : b < g.size
    · obtain ⟨k, hk⟩ := exists_block hb
      simp [hb, hk, hf]
    · simp [hb, block?_eq_none.mpr (Nat.le_of_not_lt hb)]
  · simp [hbc]

theorem flags_modify (change : BlockFlags → BlockFlags) (hf : ∀ k, (f k).flags = change k.flags) :
    (g.modify b f).flags c = if b = c ∧ c < g.size then change (g.flags c) else g.flags c :=
  elim_modify g b c f Block.flags {} change hf

theorem succs_modify (change : List BlockId → List BlockId)
    (hf : ∀ k, (f k).succs = change k.succs) :
    (g.modify b f).succs c = if b = c ∧ c < g.size then change (g.succs c) else g.succs c :=
  elim_modify g b c f Block.succs [] change hf

theorem preds_modify (change : List BlockId → List BlockId)
    (hf : ∀ k, (f k).preds = change k.preds) :
    (g.modify b f).preds c = if b = c ∧ c < g.size then change (g.preds c) else g.preds c :=
  elim_modify g b c f Block.preds [] change hf

theorem clean_modify (change : List BlockId → List BlockId)
    (hf : ∀ k, (f k).clean = change k.clean) :
    (g.modify b f).clean c = if b = c ∧ c < g.size then change (g.clean c) else g.clean c :=
  elim_modify g b c f Block.clean [] change hf

theorem succs_modify_eq (hf : ∀ k, (f k).succs = k.succs) :
    (g.modify b f).succs c = g.succs c := by
  rw [succs_modify g b c f id hf]
  split <;> rfl

theorem preds_modify_eq (hf : ∀ k, (f k).preds = k.preds) :
    (g.modify b f).preds c = g.preds c := by
  rw [preds_modify g b c f id hf]
  split <;> rfl

theorem clean_modify_eq (hf : ∀ k, (f k).clean = k.clean) :
    (g.modify b f).clean c = g.clean c := by
  rw [clean_modify g b c f id hf]
  split <;> rfl

theorem core_modify (change : Block → Block) (hf : ∀ k, (f k).core = change k.core) :
    (g.modify b f).core c = if b = c then (g.core c).map change else g.core c := by
  unfold core
  rw [block?_modify]
  split
  · rw [Option.map_map, Option.map_map]
    congr 1
    funext k
    exact hf k
  · rfl

theorem core_modify_eq (hf : ∀ k, (f k).core = k.core) : (g.modify b f).core c = g.core c := by
  rw [core_modify g b c f id hf]
  split <;> simp

theorem clean_modify_subset (hf : ∀ k, (f k).clean ⊆ k.clean) :
    (g.modify b f).clean c ⊆ g.clean c := by
  unfold clean
  rw [block?_modify]
  split
  · cases g.block? c with
    | none => exact List.Subset.refl _
    | some k => exact hf k
  · exact List.Subset.refl _

theorem clean_lt_modify {g : Graph} (hclean : ∀ a, ∀ c ∈ g.clean a, c < g.size) (b : BlockId)
    {f : Block → Block} (hf : ∀ k, (f k).clean ⊆ k.clean) :
    ∀ a, ∀ c ∈ (g.modify b f).clean a, c < (g.modify b f).size := by
  intro a c hc
  rw [size_modify]
  exact hclean a c (clean_modify_subset g b a f hf hc)

end Modify

@[simp] theorem succs_bump (g : Graph) (b : BlockId) : g.bump.succs b = g.succs b := rfl

@[simp] theorem preds_bump (g : Graph) (b : BlockId) : g.bump.preds b = g.preds b := rfl

@[simp] theorem clean_bump (g : Graph) (b : BlockId) : g.bump.clean b = g.clean b := rfl

@[simp] theorem core_bump (g : Graph) (b : BlockId) : g.bump.core b = g.core b := rfl

/-! ### New blocks -/

theorem succs_newBlock (g : Graph) (offset : Int) (b : BlockId) :
    (g.newBlock offset).succs b = g.succs b := by
  unfold succs
  rw [block?_newBlock]
  split
  · rename_i hb
    rw [hb, block?_eq_none.mpr (Nat.le_refl _)]
    rfl
  · rfl

theorem preds_newBlock (g : Graph) (offset : Int) (b : BlockId) :
    (g.newBlock offset).preds b = g.preds b := by
  unfold preds
  rw [block?_newBlock]
  split
  · rename_i hb
    rw [hb, block?_eq_none.mpr (Nat.le_refl _)]
    rfl
  · rfl

theorem core_newBlock (g : Graph) (offset : Int) (b : BlockId) :
    (g.newBlock offset).core b = if b = g.size then some { offset } else g.core b := by
  unfold core
  rw [block?_newBlock]
  split <;> rfl

theorem clean_newBlock (g : Graph) (offset : Int) (b : BlockId) :
    (g.newBlock offset).clean b = g.clean b := by
  unfold clean
  rw [block?_newBlock]
  split
  · rename_i hb
    rw [hb, block?_eq_none.mpr (Nat.le_refl _)]
    rfl
  · rfl

/-! ### Single edges -/

section Edge

variable {g : Graph} {source target : BlockId}

@[simp] theorem core_addEdge (b : BlockId) : (g.addEdge source target).core b = g.core b := by
  rw [addEdge, core_bump, core_modify_eq, core_modify_eq] <;> exact fun _ => rfl

@[simp] theorem core_removeEdge (b : BlockId) :
    (g.removeEdge source target).core b = g.core b := by
  rw [removeEdge, core_bump, core_modify_eq, core_modify_eq] <;> exact fun _ => rfl

@[simp] theorem core_redirect {old new : BlockId} (b : BlockId) :
    (g.redirect source old new).core b = g.core b := by
  rw [redirect, core_bump, core_modify_eq, core_modify_eq, core_modify_eq] <;> exact fun _ => rfl

theorem clean_addEdge (b : BlockId) : (g.addEdge source target).clean b = g.clean b := by
  rw [addEdge, clean_bump, clean_modify_eq, clean_modify_eq] <;> exact fun _ => rfl

theorem clean_removeEdge_subset (b : BlockId) :
    (g.removeEdge source target).clean b ⊆ g.clean b :=
  List.Subset.trans (clean_modify_subset _ target b _ fun _ => List.Subset.refl _)
    (clean_modify_subset g source b _ fun _ => List.erase_subset)

theorem clean_redirect {old new : BlockId} (b : BlockId) :
    (g.redirect source old new).clean b = g.clean b := by
  rw [redirect, clean_bump, clean_modify_eq, clean_modify_eq, clean_modify_eq] <;>
    exact fun _ => rfl

theorem succs_addEdge (a : BlockId) :
    (g.addEdge source target).succs a =
      if source = a ∧ a < g.size then insertNew (g.succs a) target else g.succs a := by
  rw [addEdge, succs_bump, succs_modify_eq]
  · exact succs_modify g source a _ (insertNew · target) fun _ => rfl
  · exact fun _ => rfl

theorem preds_addEdge (b : BlockId) :
    (g.addEdge source target).preds b =
      if target = b ∧ b < g.size then insertNew (g.preds b) source else g.preds b := by
  rw [addEdge, preds_bump, preds_modify _ target b _ (insertNew · source), preds_modify_eq,
    size_modify] <;> exact fun _ => rfl

theorem succs_removeEdge (a : BlockId) :
    (g.removeEdge source target).succs a =
      if source = a ∧ a < g.size then (g.succs a).erase target else g.succs a := by
  rw [removeEdge, succs_bump, succs_modify_eq]
  · exact succs_modify g source a _ (List.erase · target) fun _ => rfl
  · exact fun _ => rfl

theorem preds_removeEdge (b : BlockId) :
    (g.removeEdge source target).preds b =
      if target = b ∧ b < g.size then (g.preds b).erase source else g.preds b := by
  rw [removeEdge, preds_bump, preds_modify _ target b _ (List.erase · source), preds_modify_eq,
    size_modify] <;> exact fun _ => rfl

theorem clean_removeEdge (a : BlockId) :
    (g.removeEdge source target).clean a =
      if source = a ∧ a < g.size then (g.clean a).erase target else g.clean a := by
  rw [removeEdge, clean_bump, clean_modify_eq]
  · exact clean_modify g source a _ (List.erase · target) fun _ => rfl
  · exact fun _ => rfl

theorem succs_redirect {old new : BlockId} (a : BlockId) :
    (g.redirect source old new).succs a =
      if source = a ∧ a < g.size then turn (g.succs a) old new else g.succs a := by
  rw [redirect, succs_bump, succs_modify_eq, succs_modify_eq]
  · exact succs_modify g source a _ (turn · old new) fun _ => rfl
  · exact fun _ => rfl
  · exact fun _ => rfl

theorem preds_redirect {old new : BlockId} (hne : old ≠ new) (b : BlockId) :
    (g.redirect source old new).preds b =
      if new = b ∧ b < g.size then insertNew (g.preds b) source
      else if old = b ∧ b < g.size then (g.preds b).erase source
      else g.preds b := by
  rw [redirect, preds_bump, preds_modify _ new b _ (insertNew · source),
    preds_modify _ old b _ (List.erase · source), preds_modify_eq, size_modify, size_modify]
  · by_cases hnew : new = b
    · subst hnew
      simp [hne]
    · simp [hnew]
  all_goals exact fun _ => rfl

theorem mem_succs_addEdge (hs : source < g.size) {a b : BlockId} :
    b ∈ (g.addEdge source target).succs a ↔ b ∈ g.succs a ∨ a = source ∧ b = target := by
  rw [succs_addEdge]
  by_cases ha : source = a
  · subst ha
    simp [hs]
  · simp [ha, Ne.symm ha]

theorem mem_preds_addEdge (ht : target < g.size) {a b : BlockId} :
    a ∈ (g.addEdge source target).preds b ↔ a ∈ g.preds b ∨ a = source ∧ b = target := by
  rw [preds_addEdge]
  by_cases hb : target = b
  · subst hb
    simp [ht]
  · simp [hb, Ne.symm hb]

theorem WellFormed.addEdge (wf : g.WellFormed) (hs : source < g.size) (ht : target < g.size) :
    (g.addEdge source target).WellFormed where
  mirrored a b := by rw [mem_succs_addEdge hs, mem_preds_addEdge ht, wf.mirrored]
  succs_nodup a := by
    rw [succs_addEdge]
    split
    · exact nodup_insertNew (wf.succs_nodup a) _
    · exact wf.succs_nodup a
  preds_nodup b := by
    rw [preds_addEdge]
    split
    · exact nodup_insertNew (wf.preds_nodup b) _
    · exact wf.preds_nodup b
  succs_lt a b hb := by
    rw [size_addEdge]
    rcases (mem_succs_addEdge hs).mp hb with hb | ⟨_, rfl⟩
    · exact wf.succs_lt a b hb
    · exact ht
  mem_live b := by
    rw [isLive_eq_core, core_addEdge, ← isLive_eq_core]
    exact wf.mem_live b
  live_ascending := wf.live_ascending

theorem WellFormed.mem_succs_removeEdge (wf : g.WellFormed) {a b : BlockId} :
    b ∈ (g.removeEdge source target).succs a ↔
      b ∈ g.succs a ∧ ¬(a = source ∧ b = target) := by
  rw [succs_removeEdge]
  by_cases ha : source = a ∧ a < g.size
  · rw [if_pos ha, (wf.succs_nodup a).mem_erase_iff, and_comm]
    simp [ha.1]
  · rw [if_neg ha]
    refine ⟨fun hb => ⟨hb, fun h => ha ⟨h.1.symm, lt_of_mem_succs hb⟩⟩, And.left⟩

theorem WellFormed.mem_preds_removeEdge (wf : g.WellFormed) {a b : BlockId} :
    a ∈ (g.removeEdge source target).preds b ↔
      a ∈ g.preds b ∧ ¬(a = source ∧ b = target) := by
  rw [preds_removeEdge]
  by_cases hb : target = b ∧ b < g.size
  · rw [if_pos hb, (wf.preds_nodup b).mem_erase_iff, and_comm]
    simp [hb.1]
  · rw [if_neg hb]
    refine ⟨fun ha => ⟨ha, fun h => hb ⟨h.2.symm, ?_⟩⟩, And.left⟩
    exact wf.succs_lt a b ((wf.mirrored a b).mpr ha)

theorem WellFormed.removeEdge (wf : g.WellFormed) (source target : BlockId) :
    (g.removeEdge source target).WellFormed where
  mirrored a b := by rw [wf.mem_succs_removeEdge, wf.mem_preds_removeEdge, wf.mirrored]
  succs_nodup a := by
    rw [succs_removeEdge]
    split
    · exact (wf.succs_nodup a).erase _
    · exact wf.succs_nodup a
  preds_nodup b := by
    rw [preds_removeEdge]
    split
    · exact (wf.preds_nodup b).erase _
    · exact wf.preds_nodup b
  succs_lt a b hb := by
    rw [size_removeEdge]
    exact wf.succs_lt a b (wf.mem_succs_removeEdge.mp hb).1
  mem_live b := by
    rw [isLive_eq_core, core_removeEdge, ← isLive_eq_core]
    exact wf.mem_live b
  live_ascending := wf.live_ascending

theorem replace_cons_ne {old new a : BlockId} (ha : old ≠ a) (l : List BlockId) :
    (a :: l).replace old new = a :: l.replace old new := by
  rw [List.replace_cons, show (old == a) = false from beq_false_of_ne ha]

theorem mem_replace {old new : BlockId} {l : List BlockId} (hl : l.Nodup) (hold : old ∈ l)
    {b : BlockId} : b ∈ l.replace old new ↔ b ∈ l ∧ b ≠ old ∨ b = new := by
  induction l with
  | nil => cases hold
  | cons a l ih =>
    rw [List.nodup_cons] at hl
    by_cases ha : old = a
    · subst ha
      rw [List.replace_cons_self, List.mem_cons, List.mem_cons]
      constructor
      · rintro (rfl | hb)
        · exact Or.inr rfl
        · refine Or.inl ⟨Or.inr hb, ?_⟩
          rintro rfl
          exact hl.1 hb
      · rintro (⟨hb | hb, hne⟩ | hb)
        · exact absurd hb hne
        · exact Or.inr hb
        · exact Or.inl hb
    · have hmem : old ∈ l := (List.mem_cons.mp hold).resolve_left ha
      rw [replace_cons_ne ha, List.mem_cons, List.mem_cons, ih hl.2 hmem]
      have hne : b = a → b ≠ old := fun h h' => ha (h'.symm.trans h)
      tauto

theorem nodup_replace {old new : BlockId} {l : List BlockId} (hl : l.Nodup) (hnew : new ∉ l) :
    (l.replace old new).Nodup := by
  induction l with
  | nil => exact hl
  | cons a l ih =>
    rw [List.nodup_cons] at hl
    rw [List.mem_cons, not_or] at hnew
    by_cases ha : old = a
    · subst ha
      rw [List.replace_cons_self]
      exact List.nodup_cons.mpr ⟨hnew.2, hl.2⟩
    · rw [replace_cons_ne ha]
      refine List.nodup_cons.mpr ⟨fun hmem => ?_, ih hl.2 hnew.2⟩
      by_cases hold : old ∈ l
      · rcases (mem_replace hl.2 hold).mp hmem with h | h
        · exact hl.1 h.1
        · exact hnew.1 h.symm
      · rw [List.replace_of_not_mem hold] at hmem
        exact hl.1 hmem

theorem mem_turn {old new : BlockId} {l : List BlockId} (hl : l.Nodup) (hold : old ∈ l)
    (hne : old ≠ new) {b : BlockId} : b ∈ turn l old new ↔ b ∈ l ∧ b ≠ old ∨ b = new := by
  unfold turn
  split
  · rename_i hnew
    rw [hl.mem_erase_iff]
    constructor
    · exact fun h => Or.inl ⟨h.2, h.1⟩
    · rintro (h | rfl)
      · exact ⟨h.2, h.1⟩
      · exact ⟨Ne.symm hne, hnew⟩
  · exact mem_replace hl hold

theorem nodup_turn {old new : BlockId} {l : List BlockId} (hl : l.Nodup) :
    (turn l old new).Nodup := by
  unfold turn
  split
  · exact hl.erase _
  · rename_i hnew
    exact nodup_replace hl hnew

section Redirect

variable {old new : BlockId} (wf : g.WellFormed) (hold : old ∈ g.succs source) (hne : old ≠ new)
include wf hold hne

theorem WellFormed.mem_succs_redirect {a b : BlockId} :
    b ∈ (g.redirect source old new).succs a ↔
      b ∈ g.succs a ∧ ¬(a = source ∧ b = old) ∨ a = source ∧ b = new := by
  rw [succs_redirect]
  by_cases ha : source = a
  · subst ha
    rw [if_pos ⟨rfl, lt_of_mem_succs hold⟩, mem_turn (wf.succs_nodup source) hold hne]
    simp
  · simp [ha, Ne.symm ha]

theorem WellFormed.mem_preds_redirect (hnew : new < g.size) {a b : BlockId} :
    a ∈ (g.redirect source old new).preds b ↔
      a ∈ g.preds b ∧ ¬(a = source ∧ b = old) ∨ a = source ∧ b = new := by
  rw [preds_redirect hne]
  by_cases hb : new = b
  · subst hb
    simp [hnew, Ne.symm hne]
  · by_cases hb' : old = b
    · subst hb'
      rw [if_neg (by simp [hb]), if_pos ⟨rfl, wf.succs_lt source _ hold⟩,
        (wf.preds_nodup _).mem_erase_iff]
      simp [Ne.symm hb, and_comm]
    · simp [hb, hb', Ne.symm hb, Ne.symm hb']

theorem WellFormed.redirect (hnew : new < g.size) :
    (g.redirect source old new).WellFormed where
  mirrored a b := by
    rw [wf.mem_succs_redirect hold hne, wf.mem_preds_redirect hold hne hnew, wf.mirrored]
  succs_nodup a := by
    rw [succs_redirect]
    split
    · exact nodup_turn (wf.succs_nodup a)
    · exact wf.succs_nodup a
  preds_nodup b := by
    rw [preds_redirect hne]
    split
    · exact nodup_insertNew (wf.preds_nodup b) _
    · split
      · exact (wf.preds_nodup b).erase _
      · exact wf.preds_nodup b
  succs_lt a b hb := by
    rw [size_redirect]
    rcases (wf.mem_succs_redirect hold hne).mp hb with hb | ⟨_, rfl⟩
    · exact wf.succs_lt a b hb.1
    · exact hnew
  mem_live b := by
    rw [isLive_eq_core, core_redirect, ← isLive_eq_core]
    exact wf.mem_live b
  live_ascending := wf.live_ascending

end Redirect

end Edge

/-! ### Blocks added and changed -/

theorem WellFormed.newBlock {g : Graph} (wf : g.WellFormed) (offset : Int) :
    (g.newBlock offset).WellFormed where
  mirrored a b := by rw [succs_newBlock, preds_newBlock, wf.mirrored]
  succs_nodup a := by
    rw [succs_newBlock]
    exact wf.succs_nodup a
  preds_nodup b := by
    rw [preds_newBlock]
    exact wf.preds_nodup b
  succs_lt a b hb := by
    rw [succs_newBlock] at hb
    rw [size_newBlock]
    exact Nat.lt_succ_of_lt (wf.succs_lt a b hb)
  mem_live b := by
    have hlive : (g.newBlock offset).live = g.live ++ [g.size] := rfl
    rw [hlive, List.mem_append, List.mem_singleton, isLive_eq_core, core_newBlock, wf.mem_live,
      isLive_eq_core]
    by_cases hb : b = g.size
    · simp [hb]
    · simp [hb]
  live_ascending := by
    refine List.pairwise_append.mpr ⟨wf.live_ascending, List.pairwise_singleton _ _, ?_⟩
    intro a ha b hb
    rw [List.mem_singleton.mp hb]
    exact wf.live_lt ha

/-- Two graphs with the same edges and the same live blocks. -/
structure SameFlow (g g' : Graph) : Prop where
  size : g'.size = g.size
  live : g'.live = g.live
  succs : ∀ b, g'.succs b = g.succs b
  preds : ∀ b, g'.preds b = g.preds b
  isLive : ∀ b, g'.isLive b = g.isLive b

namespace SameFlow

theorem refl (g : Graph) : g.SameFlow g := ⟨rfl, rfl, fun _ => rfl, fun _ => rfl, fun _ => rfl⟩

theorem trans {g g' g'' : Graph} (h : g.SameFlow g') (h' : g'.SameFlow g'') : g.SameFlow g'' where
  size := h'.size.trans h.size
  live := h'.live.trans h.live
  succs b := (h'.succs b).trans (h.succs b)
  preds b := (h'.preds b).trans (h.preds b)
  isLive b := (h'.isLive b).trans (h.isLive b)

theorem wellFormed {g g' : Graph} (h : g.SameFlow g') (wf : g.WellFormed) : g'.WellFormed where
  mirrored a b := by rw [h.succs, h.preds, wf.mirrored]
  succs_nodup a := by
    rw [h.succs]
    exact wf.succs_nodup a
  preds_nodup b := by
    rw [h.preds]
    exact wf.preds_nodup b
  succs_lt a b hb := by
    rw [h.succs] at hb
    rw [h.size]
    exact wf.succs_lt a b hb
  mem_live b := by rw [h.live, h.isLive, wf.mem_live]
  live_ascending := by
    rw [h.live]
    exact wf.live_ascending

theorem modify (g : Graph) (b : BlockId) (f : Block → Block) (hsuccs : ∀ k, (f k).succs = k.succs)
    (hpreds : ∀ k, (f k).preds = k.preds) (hdetached : ∀ k, (f k).detached = k.detached) :
    g.SameFlow (g.modify b f) where
  size := size_modify g b f
  live := rfl
  succs c := succs_modify_eq g b c f hsuccs
  preds c := preds_modify_eq g b c f hpreds
  isLive c := by
    unfold Graph.isLive
    rw [block?_modify]
    split
    · rw [Option.any_map]
      congr 1
      funext k
      simp [hdetached]
    · rfl

theorem foldl {α : Type} (step : Graph → α → Graph) (hstep : ∀ (g : Graph) a, g.SameFlow (step g a))
    (l : List α) (g : Graph) : g.SameFlow (l.foldl step g) := by
  induction l generalizing g with
  | nil => exact refl g
  | cons a l ih => exact (hstep g a).trans (ih (step g a))

theorem refresh (g : Graph) (b : BlockId) : g.SameFlow (g.refresh b) :=
  modify g b _ (fun _ => rfl) (fun _ => rfl) (fun _ => rfl)

theorem refreshAll (g : Graph) : g.SameFlow g.refreshAll := foldl _ refresh g.live g

end SameFlow

end Graph

end TryRegions
