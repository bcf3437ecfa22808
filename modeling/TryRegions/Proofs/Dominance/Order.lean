import TryRegions.Dominance.Order
import TryRegions.Proofs.Dominance.Path
import TryRegions.Proofs.Graph.WellFormed
import Mathlib.Data.Finset.Card
import Mathlib.Data.Finset.Range

/-! The reverse post-order of a graph lists the blocks that its roots reach, each once, and every
block that is not a root comes after a block that leads to it. These are the facts about the
depth-first walk that the search for dominators rests on. -/

namespace TryRegions

/-- Every element of the list is a start, or an element in front of it leads to it. -/
def Led (next : BlockId → List BlockId) (start : BlockId → Prop) : List BlockId → Prop
  | [] => True
  | b :: l => start b ∧ Led next (fun c => start c ∨ c ∈ next b) l

namespace Led

variable {next : BlockId → List BlockId} {start start' : BlockId → Prop}

theorem mono {l : List BlockId} (h : Led next start l) (hstart : ∀ b, start b → start' b) :
    Led next start' l := by
  induction l generalizing start start' with
  | nil => trivial
  | cons b l ih => exact ⟨hstart b h.1, ih h.2 fun c hc => hc.imp_left (hstart c)⟩

theorem append {l l' : List BlockId} (h : Led next start l) (h' : Led next start l') :
    Led next start (l ++ l') := by
  induction l generalizing start with
  | nil => exact h'
  | cons b l ih => exact ⟨h.1, ih h.2 (h'.mono fun _ => Or.inl)⟩

theorem exists_before {pre post : List BlockId} {b : BlockId}
    (h : Led next start (pre ++ b :: post)) : start b ∨ ∃ p ∈ pre, b ∈ next p := by
  induction pre generalizing start with
  | nil => exact Or.inl h.1
  | cons a pre ih =>
    rcases ih h.2 with (hb | hb) | ⟨p, hp, hb⟩
    · exact Or.inl hb
    · exact Or.inr ⟨a, List.mem_cons_self, hb⟩
    · exact Or.inr ⟨p, List.mem_cons_of_mem _ hp, hb⟩

/-- What holds of the starts and is handed on holds of the whole list. -/
theorem forall_mem {P : BlockId → Prop} {l : List BlockId} (h : Led next start l)
    (hstart : ∀ b, start b → P b) (hnext : ∀ b, P b → ∀ c ∈ next b, P c) : ∀ b ∈ l, P b := by
  induction l generalizing start with
  | nil => exact fun _ hb => nomatch hb
  | cons a l ih =>
    have ha := hstart a h.1
    intro b hb
    rcases List.mem_cons.mp hb with rfl | hb
    · exact ha
    · exact ih h.2 (fun c hc => hc.elim (hstart c) (hnext a ha c)) b hb

end Led

namespace Walk

/-- A walk goes on from `w` to `w'`: the blocks `new` are entered and left, and nothing that they
lead to stays unmet. -/
structure Adds (next : BlockId → List BlockId) (start : BlockId → Prop) (w w' : Walk)
    (new : List BlockId) : Prop where
  left : w'.left = new ++ w.left
  entered : ∀ b, b ∈ w'.entered ↔ b ∈ new ∨ b ∈ w.entered
  nodup : new.Nodup
  fresh : ∀ b ∈ new, b ∉ w.entered
  led : Led next start new
  closed : ∀ b ∈ new, ∀ c ∈ next b, c ∈ w'.entered

variable {next : BlockId → List BlockId}

theorem Adds.refl (next : BlockId → List BlockId) (start : BlockId → Prop) (w : Walk) :
    Adds next start w w [] where
  left := rfl
  entered := by simp
  nodup := List.nodup_nil
  fresh := by simp
  led := trivial
  closed := by simp

theorem Adds.trans {start start' : BlockId → Prop} {w w1 w2 : Walk} {new new' : List BlockId}
    (h : Adds next start w w1 new) (h' : Adds next start' w1 w2 new') :
    Adds next (fun b => start b ∨ start' b) w w2 (new' ++ new) where
  left := by rw [h'.left, h.left, List.append_assoc]
  entered b := by rw [h'.entered, h.entered, List.mem_append, or_assoc]
  nodup := by
    refine List.nodup_append.mpr ⟨h'.nodup, h.nodup, fun a ha b hb hab => h'.fresh a ha ?_⟩
    rw [h.entered]
    exact Or.inl (hab ▸ hb)
  fresh b hb := by
    rcases List.mem_append.mp hb with hb | hb
    · intro hw
      exact h'.fresh b hb ((h.entered b).mpr (Or.inr hw))
    · exact h.fresh b hb
  led := (h'.led.mono fun _ => Or.inr).append (h.led.mono fun _ => Or.inl)
  closed b hb c hc := by
    rcases List.mem_append.mp hb with hb | hb
    · exact h'.closed b hb c hc
    · exact (h'.entered c).mpr (Or.inr (h.closed b hb c hc))

/-- How many of the blocks below `size` the walk has not met. -/
def unmet (size : Nat) (w : Walk) : Nat := (Finset.range size \ w.entered.toFinset).card

theorem unmet_le (size : Nat) (w : Walk) : unmet size w ≤ size :=
  (Finset.card_le_card Finset.sdiff_subset).trans_eq (Finset.card_range size)

theorem Adds.unmet_le {start : BlockId → Prop} {w w' : Walk} {new : List BlockId}
    (h : Adds next start w w' new) (size : Nat) : unmet size w' ≤ unmet size w := by
  refine Finset.card_le_card (Finset.sdiff_subset_sdiff (Finset.Subset.refl _) fun b hb => ?_)
  rw [List.mem_toFinset] at hb ⊢
  exact (h.entered b).mpr (Or.inr hb)

theorem unmet_enter {size : Nat} {w : Walk} {b : BlockId} (hb : b < size) (hw : b ∉ w.entered) :
    unmet size { w with entered := b :: w.entered } < unmet size w := by
  refine Finset.card_lt_card ⟨Finset.sdiff_subset_sdiff (Finset.Subset.refl _) ?_, fun h => ?_⟩
  · intro c hc
    rw [List.mem_toFinset] at hc ⊢
    exact List.mem_cons_of_mem _ hc
  · have := h (Finset.mem_sdiff.mpr ⟨Finset.mem_range.mpr hb, by simpa using hw⟩)
    simp at this

/-- Visits in a row, if a single visit does what it should. -/
theorem foldl_visit_adds {size fuel : Nat}
    (visits : ∀ w b, b < size → unmet size w < fuel →
      ∃ new, Adds next (· = b) w (visit next fuel w b) new ∧ b ∈ (visit next fuel w b).entered)
    (bs : List BlockId) (w : Walk) (hbs : ∀ b ∈ bs, b < size) (hfuel : unmet size w < fuel) :
    ∃ new, Adds next (· ∈ bs) w (bs.foldl (visit next fuel) w) new ∧
      ∀ b ∈ bs, b ∈ (bs.foldl (visit next fuel) w).entered := by
  induction bs generalizing w with
  | nil => exact ⟨[], Adds.refl _ _ _, by simp⟩
  | cons b bs ih =>
    obtain ⟨new, hnew, hb⟩ := visits w b (hbs b List.mem_cons_self) hfuel
    obtain ⟨new', hnew', hrest⟩ := ih (visit next fuel w b)
      (fun c hc => hbs c (List.mem_cons_of_mem _ hc)) ((hnew.unmet_le size).trans_lt hfuel)
    have h := hnew.trans hnew'
    refine ⟨new' ++ new, { h with led := h.led.mono fun c hc => by simpa using hc }, ?_⟩
    intro c hc
    rcases List.mem_cons.mp hc with rfl | hc
    · exact (hnew'.entered c).mpr (Or.inr hb)
    · exact hrest c hc

/-- With fuel for every block that is not met yet, a visit meets all that its block leads to. -/
theorem visit_adds {size : Nat} (hnext : ∀ b, ∀ c ∈ next b, c < size) (fuel : Nat) :
    ∀ w b, b < size → unmet size w < fuel →
      ∃ new, Adds next (· = b) w (visit next fuel w b) new ∧
        b ∈ (visit next fuel w b).entered := by
  induction fuel with
  | zero => exact fun _ _ _ h => absurd h (Nat.not_lt_zero _)
  | succ fuel ih =>
    intro w b hb hfuel
    rw [visit]
    by_cases hw : b ∈ w.entered
    · rw [if_pos hw]
      exact ⟨[], Adds.refl _ _ _, hw⟩
    rw [if_neg hw]
    have hroom := unmet_enter hb hw
    obtain ⟨new, hnew, hall⟩ := foldl_visit_adds ih (next b) { w with entered := b :: w.entered }
      (hnext b) (by omega)
    refine ⟨b :: new, ?_, ?_⟩
    · constructor
      · simp [hnew.left]
      · intro c
        simp only [hnew.entered, List.mem_cons]
        tauto
      · refine List.nodup_cons.mpr ⟨fun hmem => ?_, hnew.nodup⟩
        exact hnew.fresh b hmem List.mem_cons_self
      · intro c hc hcw
        rcases List.mem_cons.mp hc with rfl | hc
        · exact hw hcw
        · exact hnew.fresh c hc (List.mem_cons_of_mem _ hcw)
      · exact ⟨rfl, hnew.led.mono fun _ => Or.inr⟩
      · intro c hc d hd
        rcases List.mem_cons.mp hc with rfl | hc
        · exact hall d hd
        · exact hnew.closed c hc d hd
    · exact (hnew.entered b).mpr (Or.inr List.mem_cons_self)

/-- A walk goes on from `w` to `w'`: the blocks entered come in front of those entered before, and
none is entered twice. -/
structure Grows (w w' : Walk) : Prop where
  suffix : w.entered <:+ w'.entered
  nodup : w.entered.Nodup → w'.entered.Nodup

theorem Grows.refl (w : Walk) : Grows w w := ⟨List.suffix_rfl, id⟩

theorem Grows.trans {w w1 w2 : Walk} (h : Grows w w1) (h' : Grows w1 w2) : Grows w w2 :=
  ⟨h.suffix.trans h'.suffix, h'.nodup ∘ h.nodup⟩

theorem Grows.foldl {step : Walk → BlockId → Walk} (hstep : ∀ w b, Grows w (step w b))
    (bs : List BlockId) (w : Walk) : Grows w (bs.foldl step w) := by
  induction bs generalizing w with
  | nil => exact .refl w
  | cons b bs ih => exact (hstep w b).trans (ih _)

theorem visit_grows (next : BlockId → List BlockId) (fuel : Nat) (w : Walk) (b : BlockId) :
    Grows w (visit next fuel w b) := by
  induction fuel generalizing w b with
  | zero => exact .refl w
  | succ fuel ih =>
    rw [visit]
    split
    · exact .refl w
    · rename_i hb
      have rest := Grows.foldl ih (next b) { w with entered := b :: w.entered }
      exact ⟨(List.suffix_cons b w.entered).trans rest.suffix,
        fun h => rest.nodup (List.nodup_cons.mpr ⟨hb, h⟩)⟩

/-- A walk from `start` enters `start` first, then all else that it leads to, each block once. -/
theorem entered_visit {size : Nat} (hnext : ∀ b, ∀ c ∈ next b, c < size) {start : BlockId}
    (hstart : start < size) :
    ∃ others, (visit next (size + 1) {} start).entered.reverse = start :: others ∧
      (start :: others).Nodup ∧
      ∀ b, b ∈ start :: others ↔ Relation.ReflTransGen (fun a c => c ∈ next a) start b := by
  have rest := Grows.foldl (visit_grows next size) (next start) { entered := [start] }
  have hgrows : Grows { entered := [start] } (visit next (size + 1) {} start) :=
    ⟨rest.suffix, rest.nodup⟩
  obtain ⟨later, hlater⟩ := hgrows.suffix
  have hsplit : (visit next (size + 1) {} start).entered.reverse = start :: later.reverse := by
    rw [← hlater, List.reverse_append]
    rfl
  have hnodup := hgrows.nodup (List.nodup_singleton start)
  obtain ⟨new, adds, hmem⟩ := visit_adds hnext (size + 1) {} start hstart
    (Nat.lt_succ_of_le (unmet_le size {}))
  have hentered : ∀ b, b ∈ (visit next (size + 1) {} start).entered ↔ b ∈ new := by
    intro b
    rw [adds.entered]
    simp
  refine ⟨later.reverse, hsplit, hsplit ▸ List.nodup_reverse.mpr hnodup, fun b => ?_⟩
  rw [← hsplit, List.mem_reverse, hentered]
  constructor
  · refine adds.led.forall_mem ?_ (fun _ hb _ hc => hb.tail hc) b
    rintro _ rfl
    exact .refl
  · intro hreach
    induction hreach with
    | refl => exact (hentered start).mp hmem
    | tail _ hc ih => exact (hentered _).mp (adds.closed _ ih _ hc)

end Walk

namespace Dominance

/-- The roots of a graph: the enter block and the blocks that no edge leads to, as far as they are
live. -/
def IsRoot (g : Graph) (enter : Option BlockId) (b : BlockId) : Prop :=
  g.isLive b = true ∧ (enter = some b ∨ g.preds b = [])

theorem mem_roots {g : Graph} (hg : g.Mirrored) {enter : Option BlockId} {b : BlockId} :
    b ∈ roots g enter ↔ IsRoot g enter b := by
  by_cases he : enter = some b
  · subst he
    simp [roots, IsRoot, Option.filter]
  · have he' : some b ≠ enter := fun h => he h.symm
    simp [roots, IsRoot, Option.filter_eq_some_iff, he, he', hg.mem_live]

/-- The order lists what the roots reach, each block once, and a block that is not a root after one
that leads to it. -/
structure Ordered (g : Graph) (root : BlockId → Prop) (order : List BlockId) : Prop where
  nodup : order.Nodup
  mem : ∀ b, b ∈ order ↔ Reached g root b
  led : Led g.succs root order

theorem ordered_of_mirrored {g : Graph} (hg : g.Mirrored) (enter : Option BlockId) :
    Ordered g (IsRoot g enter) (reversePostOrder g (roots g enter)) := by
  have hroots : ∀ b ∈ (roots g enter).reverse, b < g.size := fun b hb =>
    Graph.lt_of_isLive ((mem_roots hg).mp (List.mem_reverse.mp hb)).1
  obtain ⟨new, hnew, hall⟩ := Walk.foldl_visit_adds (Walk.visit_adds hg.succs_lt (g.size + 1))
    (roots g enter).reverse {} hroots (Nat.lt_succ_of_le (Walk.unmet_le _ _))
  have horder : reversePostOrder g (roots g enter) = new := by
    rw [reversePostOrder, ← List.foldl_reverse, hnew.left]
    simp
  have hentered : ∀ b, b ∈ new ↔
      b ∈ ((roots g enter).reverse.foldl (Walk.visit g.succs (g.size + 1)) {}).entered := by
    intro b
    rw [hnew.entered]
    simp
  rw [horder]
  have hled : Led g.succs (IsRoot g enter) new :=
    hnew.led.mono fun b hb => (mem_roots hg).mp (List.mem_reverse.mp hb)
  refine ⟨hnew.nodup, fun b => ⟨?_, ?_⟩, hled⟩
  · exact hled.forall_mem (fun _ => .of_root) (fun _ hb _ hc => hb.step hc) b
  · rintro ⟨r, hr, blocks, path⟩
    induction path with
    | start => exact (hentered r).mpr (hall r (List.mem_reverse.mpr ((mem_roots hg).mpr hr)))
    | step _ hc ih => exact (hentered _).mpr (hnew.closed _ ih _ hc)

theorem reversePostOrder_ordered {g : Graph} (wf : g.WellFormed) (enter : Option BlockId) :
    Ordered g (IsRoot g enter) (reversePostOrder g (roots g enter)) :=
  ordered_of_mirrored wf.mirrors enter

theorem length_le_of_nodup {l : List BlockId} {size : Nat} (hnodup : l.Nodup)
    (h : ∀ b ∈ l, b < size) : l.length ≤ size := by
  have hsub : l.Subperm (List.range size) :=
    hnodup.subperm fun b hb => List.mem_range.mpr (h b hb)
  simpa using hsub.length_le

section

variable {g : Graph} (hg : g.Mirrored) (enter : Option BlockId)
include hg

theorem order_lt_of_mirrored : ∀ b ∈ reversePostOrder g (roots g enter), b < g.size := by
  intro b hb
  obtain ⟨r, hr, blocks, path⟩ := ((ordered_of_mirrored hg enter).mem b).mp hb
  exact path.lt_of_mem (Graph.lt_of_isLive hr.1) hg.succs_lt b path.target_mem

theorem order_length_le_of_mirrored : (reversePostOrder g (roots g enter)).length ≤ g.size :=
  length_le_of_nodup (ordered_of_mirrored hg enter).nodup (order_lt_of_mirrored hg enter)

end

theorem rankIn_pos {order : List BlockId} {b : BlockId} : 0 < rankIn order b ↔ b ∈ order := by
  unfold rankIn
  split <;> simp_all

theorem rankIn_le_length (order : List BlockId) (b : BlockId) :
    rankIn order b ≤ order.length := by
  unfold rankIn
  split
  · rename_i hb
    exact List.idxOf_lt_length_of_mem hb
  · exact Nat.zero_le _

theorem rankIn_injOn {order : List BlockId} {a b : BlockId} (ha : a ∈ order)
    (h : rankIn order a = rankIn order b) : a = b := by
  have hb : b ∈ order := rankIn_pos.mp (h ▸ rankIn_pos.mpr ha)
  rw [rankIn, rankIn, if_pos ha, if_pos hb] at h
  exact (List.idxOf_inj ha).mp (Nat.succ.inj h)

namespace Ordered

variable {g : Graph} {root : BlockId → Prop} {order : List BlockId}

theorem rankIn_lt (ordered : Ordered g root order) {pre post : List BlockId} {a b : BlockId}
    (h : order = pre ++ b :: post) (ha : a ∈ pre) : rankIn order a < rankIn order b := by
  have hnodup := ordered.nodup
  rw [h, List.nodup_append] at hnodup
  have hb : b ∉ pre := fun hb => hnodup.2.2 b hb b List.mem_cons_self rfl
  have hlt := List.idxOf_lt_length_of_mem ha
  rw [rankIn, rankIn, if_pos (by simp [h, ha]), if_pos (by simp [h]), h,
    List.idxOf_append_of_mem ha, List.idxOf_append_of_notMem hb, List.idxOf_cons_self]
  omega

/-- A block that is not a root has a predecessor of lower rank. -/
theorem exists_pred (ordered : Ordered g root order) {b : BlockId} (hb : b ∈ order) :
    root b ∨ ∃ p ∈ order, b ∈ g.succs p ∧ rankIn order p < rankIn order b := by
  obtain ⟨pre, post, h⟩ := List.append_of_mem hb
  rcases (h ▸ ordered.led).exists_before with hr | ⟨p, hp, hbp⟩
  · exact Or.inl hr
  · exact Or.inr ⟨p, by simp [h, hp], hbp, ordered.rankIn_lt h hp⟩

/-- Some path to a block goes through blocks of no higher rank only. -/
theorem exists_path_rankIn_le (ordered : Ordered g root order) (n : Nat) :
    ∀ b ∈ order, rankIn order b = n →
      ∃ r, root r ∧ ∃ blocks, g.Path r b blocks ∧ ∀ x ∈ blocks, rankIn order x ≤ n := by
  induction n using Nat.strong_induction_on with
  | _ n ih =>
    intro b hb hn
    rcases ordered.exists_pred hb with hr | ⟨p, hp, hbp, hlt⟩
    · exact ⟨b, hr, [b], .start, by simp [hn]⟩
    · obtain ⟨r, hr, blocks, path, hle⟩ := ih _ (hn ▸ hlt) p hp rfl
      refine ⟨r, hr, _, path.step hbp, fun x hx => ?_⟩
      rcases List.mem_append.mp hx with hx | hx
      · have := hle x hx
        omega
      · rw [List.mem_singleton.mp hx, hn]

theorem rankIn_le_of_dominates (ordered : Ordered g root order) {a b : BlockId}
    (h : Dominates g root a b) : rankIn order a ≤ rankIn order b := by
  obtain ⟨r, hr, blocks, path, hle⟩ :=
    ordered.exists_path_rankIn_le _ b ((ordered.mem b).mpr h.1) rfl
  exact hle a (h.2 r hr blocks path)

theorem dominates_antisymm (ordered : Ordered g root order) {a b : BlockId}
    (hab : Dominates g root a b) (hba : Dominates g root b a) : a = b :=
  rankIn_injOn ((ordered.mem a).mpr hba.1)
    (Nat.le_antisymm (ordered.rankIn_le_of_dominates hab) (ordered.rankIn_le_of_dominates hba))

end Ordered

end Dominance

end TryRegions
