import TryRegions.Proofs.Dominance.Queries
import TryRegions.Proofs.Graph.Distance
import Mathlib.Data.List.Forall2
import Mathlib.Algebra.BigOperators.Group.List.Basic

/-! Where the paths from several blocks join. If the frontiers of the blocks have just one block in
common, it is the join. Otherwise the join is the block that is closest to all of them together over
clean edges, the lowest number first; the blocks common to the frontiers, if there are any, are the
only ones that count. The order in which the blocks are given plays no part. -/

namespace TryRegions

namespace Graph

/-- The distances over clean edges from the blocks to `b` add up to `total`. -/
def TotalDistance (g : Graph) (blocks : List BlockId) (b : BlockId) (total : Nat) : Prop :=
  ∃ distances, List.Forall₂ (fun a n => Distance g.clean a n b) blocks distances ∧
    distances.sum = total

/-- Outside the blocks, clean edges lead from all of them to `b`, over distances that add up to
`total`. If any block is wanted, `b` is. -/
structure JoinsAt (g : Graph) (blocks : List BlockId) (wanted : BlockId → Prop) (b : BlockId)
    (total : Nat) : Prop where
  outside : b ∉ blocks
  wanted : (∃ c, wanted c) → wanted b
  total : g.TotalDistance blocks b total

/-- Of all blocks where clean edges from the blocks join, `b` is the closest to them together, and
has the lowest number of the closest. -/
def NearestJoin (g : Graph) (blocks : List BlockId) (wanted : BlockId → Prop) (b : BlockId) :
    Prop :=
  ∃ total, g.JoinsAt blocks wanted b total ∧
    ∀ c n, g.JoinsAt blocks wanted c n → total < n ∨ total = n ∧ b ≤ c

variable {g : Graph} {blocks others : List BlockId} {wanted : BlockId → Prop} {b c : BlockId}
  {total : Nat}

/-- Distances can be added up if clean edges lead there from all blocks. -/
theorem exists_totalDistance_iff : (∃ total, g.TotalDistance blocks b total) ↔
    ∀ a ∈ blocks, Relation.ReflTransGen (fun x y => y ∈ g.clean x) a b := by
  constructor
  · rintro ⟨_, distances, hdist, -⟩ a ha
    induction hdist with
    | nil => cases ha
    | @cons a' n _ _ hn _ ih =>
      rcases List.mem_cons.mp ha with rfl | ha
      · exact exists_distance_iff.mp ⟨n, hn⟩
      · exact ih ha
  · intro h
    induction blocks with
    | nil => exact ⟨0, [], .nil, rfl⟩
    | cons a blocks ih =>
      obtain ⟨n, hn⟩ := exists_distance_iff.mpr (h a List.mem_cons_self)
      obtain ⟨_, distances, hdist, -⟩ := ih fun a' ha' => h a' (List.mem_cons_of_mem a ha')
      exact ⟨_, n :: distances, .cons hn hdist, rfl⟩

theorem TotalDistance.perm (h : g.TotalDistance blocks b total) (hperm : others.Perm blocks) :
    g.TotalDistance others b total := by
  obtain ⟨distances, hdist, hsum⟩ := h
  obtain ⟨distances', hdist', hperm'⟩ := List.perm_comp_forall₂ hperm hdist
  exact ⟨distances', hdist', hperm'.sum_eq.trans hsum⟩

theorem TotalDistance.target_lt (h : g.TotalDistance blocks b total) (hne : blocks ≠ [])
    (hclean : ∀ x, ∀ y ∈ g.clean x, y < g.size) (hblocks : ∀ a ∈ blocks, a < g.size) :
    b < g.size := by
  obtain ⟨distances, hdist, -⟩ := h
  cases hdist with
  | nil => exact absurd rfl hne
  | cons hn _ => exact hn.target_lt hclean (hblocks _ List.mem_cons_self)

theorem JoinsAt.perm (h : g.JoinsAt blocks wanted b total) (hperm : others.Perm blocks) :
    g.JoinsAt others wanted b total :=
  ⟨mt hperm.mem_iff.mp h.outside, h.wanted, h.total.perm hperm⟩

theorem NearestJoin.perm (h : g.NearestJoin blocks wanted b) (hperm : others.Perm blocks) :
    g.NearestJoin others wanted b := by
  obtain ⟨total, hjoin, hleast⟩ := h
  exact ⟨total, hjoin.perm hperm, fun c n hc => hleast c n (hc.perm hperm.symm)⟩

theorem NearestJoin.unique (h : g.NearestJoin blocks wanted b)
    (h' : g.NearestJoin blocks wanted c) : b = c := by
  obtain ⟨total, hjoin, hleast⟩ := h
  obtain ⟨total', hjoin', hleast'⟩ := h'
  rcases hleast c total' hjoin' with hlt | ⟨heq, hle⟩
  · rcases hleast' b total hjoin with hlt' | ⟨heq', -⟩ <;> omega
  · rcases hleast' b total hjoin with hlt' | ⟨-, hle'⟩
    · omega
    · exact Nat.le_antisymm hle hle'

end Graph

namespace DomTree

open TryRegions.Graph

section Closest

variable {g : Graph} {blocks among : List BlockId} {b : BlockId} {total : Nat}

theorem joins_ascending (g : Graph) (blocks among : List BlockId) :
    (joins g blocks among).Pairwise fun x y => x.1 < y.1 := by
  refine List.Pairwise.filterMap _ (fun a a' hlt x hx y hy => ?_) List.pairwise_lt_range
  split at hx
  · cases hx
  · split at hy
    · cases hy
    · obtain ⟨_, -, rfl⟩ := Option.map_eq_some_iff.mp hx
      obtain ⟨_, -, rfl⟩ := Option.map_eq_some_iff.mp hy
      exact hlt

/-- No possible join comes before the one that is taken, by distance and then by number. -/
theorem leastBy_joins {j : BlockId × Nat} {js : List (BlockId × Nat)}
    (hjs : joins g blocks among = j :: js) :
    ∀ y ∈ joins g blocks among, (leastBy closer j js).2 < y.2 ∨
      (leastBy closer j js).2 = y.2 ∧ (leastBy closer j js).1 ≤ y.1 := by
  have htrans : ∀ x y z, closer x y = true → closer y z = true → closer x z = true := by
    simp only [closer_iff]
    omega
  have hover : ∀ x y z, closer x y = true → closer z y = false → closer x z = true := by
    simp only [closer_iff, closer_eq_false_iff]
    omega
  have hleast := leastBy_least (fun _ => closer_eq_false_iff.mpr (Nat.le_refl _)) htrans j js
  obtain ⟨pre, post, hsplit, hpre⟩ := leastBy_split htrans hover j js
  have hascending := joins_ascending g blocks among
  intro y hy
  rw [hjs] at hy hascending
  have hle := closer_eq_false_iff.mp (hleast y hy)
  rw [hsplit] at hy hascending
  rcases List.mem_append.mp hy with hy | hy
  · exact Or.inl (closer_iff.mp (hpre y hy))
  · rcases List.mem_cons.mp hy with rfl | hy
    · exact Or.inr ⟨rfl, Nat.le_refl _⟩
    · have hafter := (List.pairwise_cons.mp (List.pairwise_append.mp hascending).2.1).1 y hy
      rcases Nat.lt_or_eq_of_le hle with hlt | heq
      · exact Or.inl hlt
      · exact Or.inr ⟨heq, Nat.le_of_lt hafter⟩

variable (hclean : ∀ x, ∀ y ∈ g.clean x, y < g.size) (hblocks : ∀ a ∈ blocks, a < g.size)
include hclean hblocks

theorem totalDistance_eq_some_iff (hout : b ∉ blocks) :
    totalDistance (blocks.map g.cleanDistances) b = some total ↔
      g.TotalDistance blocks b total := by
  induction blocks generalizing total with
  | nil => simp [totalDistance, TotalDistance]
  | cons a blocks ih =>
    obtain ⟨hne, hout⟩ := not_or.mp (mt List.mem_cons.mpr hout)
    have hcons : totalDistance ((a :: blocks).map g.cleanDistances) b =
        ((g.cleanDistances a).lookup b).bind fun d =>
          (totalDistance (blocks.map g.cleanDistances) b).map (d + ·) := rfl
    have hfirst : ∀ n, (g.cleanDistances a).lookup b = some n ↔ Distance g.clean a n b :=
      fun n => (lookup_cleanDistances hclean (hblocks a List.mem_cons_self)).trans
        (and_iff_right hne)
    have hrest : ∀ n, totalDistance (blocks.map g.cleanDistances) b = some n ↔
        g.TotalDistance blocks b n :=
      fun n => ih (fun a' ha' => hblocks a' (List.mem_cons_of_mem a ha')) hout
    rw [hcons, Option.bind_eq_some_iff]
    simp only [Option.map_eq_some_iff, hfirst, hrest]
    constructor
    · rintro ⟨n, hn, _, ⟨distances, hdist, rfl⟩, rfl⟩
      exact ⟨n :: distances, .cons hn hdist, List.sum_cons⟩
    · rintro ⟨_, hdist, rfl⟩
      cases hdist with
      | @cons _ n _ distances hn hdist =>
        exact ⟨n, hn, _, ⟨distances, hdist, rfl⟩, List.sum_cons.symm⟩

theorem mem_joins_iff_joinsAt (hne : blocks ≠ []) :
    (b, total) ∈ joins g blocks among ↔ g.JoinsAt blocks (· ∈ among) b total := by
  rw [mem_joins_iff]
  constructor
  · rintro ⟨-, hout, hamong, htotal⟩
    exact ⟨hout, fun ⟨c, hc⟩ => hamong (List.ne_nil_of_mem hc),
      (totalDistance_eq_some_iff hclean hblocks hout).mp htotal⟩
  · intro h
    exact ⟨h.total.target_lt hne hclean hblocks, h.outside,
      fun hne => h.wanted (List.exists_mem_of_ne_nil among hne),
      (totalDistance_eq_some_iff hclean hblocks h.outside).mpr h.total⟩

/-- The join that is found is the nearest, and none is found only if there is none. -/
theorem closestJoin_spec (among : List BlockId) (hne : blocks ≠ []) :
    (∀ b, closestJoin g blocks among = some b ↔ g.NearestJoin blocks (· ∈ among) b) ∧
      (closestJoin g blocks among = none ↔ ∀ b total, ¬g.JoinsAt blocks (· ∈ among) b total) := by
  have hmem : ∀ b total, (b, total) ∈ joins g blocks among ↔
      g.JoinsAt blocks (· ∈ among) b total := fun _ _ => mem_joins_iff_joinsAt hclean hblocks hne
  rcases closestJoin_cases g blocks among with ⟨hnil, hnone⟩ | ⟨j, js, hjs, hsome⟩
  · have hempty : ∀ b total, ¬g.JoinsAt blocks (· ∈ among) b total := by
      intro b total h
      rw [← hmem, hnil] at h
      cases h
    rw [hnone]
    exact ⟨fun b => ⟨nofun, fun ⟨total, h, _⟩ => absurd h (hempty b total)⟩,
      fun _ => hempty, fun _ => rfl⟩
  · have hfound := leastBy_mem closer j js
    rw [← hjs] at hfound
    have hnearest : g.NearestJoin blocks (· ∈ among) (leastBy closer j js).1 :=
      ⟨_, (hmem _ _).mp hfound, fun c n hc => leastBy_joins hjs (c, n) ((hmem c n).mpr hc)⟩
    rw [hsome]
    refine ⟨fun b => ⟨fun h => ?_, fun h => ?_⟩, nofun, fun h => ?_⟩
    · cases h
      exact hnearest
    · rw [h.unique hnearest]
    · exact absurd ((hmem _ _).mp hfound) (h _ _)

end Closest

/-- The frontiers of all blocks hold `x`, which is none of the blocks. -/
def MeetsAt (t : DomTree) (blocks : List BlockId) (x : BlockId) : Prop :=
  x ∉ blocks ∧ ∀ b ∈ blocks, x ∈ t.frontier b

section Cross

variable {t : DomTree} {g : Graph} {blocks others : List BlockId} {b x : BlockId}

theorem meetsAt_perm (hperm : others.Perm blocks) : t.MeetsAt others x ↔ t.MeetsAt blocks x := by
  simp only [MeetsAt, hperm.mem_iff]

theorem mem_commonFrontier_iff (hne : blocks ≠ [])
    (hreachable : ∀ b ∈ blocks, t.isReachable b = true) :
    x ∈ t.commonFrontier blocks ↔ t.MeetsAt blocks x := by
  obtain ⟨b, bs, rfl⟩ := List.exists_cons_of_ne_nil hne
  have hall : (b :: bs).filter t.isReachable = b :: bs := List.filter_eq_self.mpr hreachable
  rw [commonFrontier, hall]
  simp only [List.mem_filter, Bool.and_eq_true, List.all_eq_true, decide_eq_true_eq, MeetsAt,
    List.forall_mem_cons]
  exact ⟨fun h => ⟨h.2.2, h.1, h.2.1⟩, fun h => ⟨h.2.1, h.2.2, h.1⟩⟩

theorem nodup_commonFrontier (g : Graph) (enter : Option BlockId) (blocks : List BlockId) :
    ((ofGraph g enter).commonFrontier blocks).Nodup := by
  unfold commonFrontier
  split
  · exact List.nodup_nil
  · exact ((frontier_ascending g enter _).imp Nat.ne_of_lt).filter _

theorem pathCross_of_single (hne : blocks ≠ []) (hsingle : t.commonFrontier blocks = [b]) :
    t.pathCross g blocks = .ok (some b) := by
  simp [pathCross, hne, hsingle]

theorem pathCross_of_not_single (hne : blocks ≠ []) (hblocks : ∀ a ∈ blocks, a < g.size)
    (hmany : ∀ b, t.commonFrontier blocks ≠ [b]) :
    t.pathCross g blocks = .ok (closestJoin g blocks (t.commonFrontier blocks)) := by
  rw [pathCross, if_neg (by simpa using hne)]
  split
  · rename_i b hb
    exact absurd hb (hmany b)
  · exact if_pos (List.all_eq_true.mpr fun b hb => decide_eq_true (hblocks b hb))

end Cross

end DomTree

namespace Dominance

open TryRegions.Graph

section

variable {g : Graph} (wf : g.WellFormed) (hclean : ∀ x, ∀ y ∈ g.clean x, y < g.size)
  (enter : Option BlockId) {blocks : List BlockId} {b : BlockId}
include wf hclean

/-- The answer is the only block where the frontiers meet, or the nearest join if they do not meet
in just one block. -/
theorem pathCross_eq (hne : blocks ≠ [])
    (hreached : ∀ b ∈ blocks, Reached g (IsRoot g enter) b) :
    ∃ join, (DomTree.ofGraph g enter).pathCross g blocks = .ok join ∧
      ((∃! x, (DomTree.ofGraph g enter).MeetsAt blocks x) →
        ∀ b, join = some b ↔ (DomTree.ofGraph g enter).MeetsAt blocks b) ∧
      ((¬∃! x, (DomTree.ofGraph g enter).MeetsAt blocks x) →
        (∀ b, join = some b ↔
          g.NearestJoin blocks ((DomTree.ofGraph g enter).MeetsAt blocks) b) ∧
        (join = none ↔
          ∀ b total, ¬g.JoinsAt blocks ((DomTree.ofGraph g enter).MeetsAt blocks) b total)) := by
  have hblocks : ∀ b ∈ blocks, b < g.size := fun b hb =>
    order_lt wf enter b (((reversePostOrder_ordered wf enter).mem b).mpr (hreached b hb))
  have hmem : ∀ x, x ∈ (DomTree.ofGraph g enter).commonFrontier blocks ↔
      (DomTree.ofGraph g enter).MeetsAt blocks x := fun x =>
    DomTree.mem_commonFrontier_iff hne fun b hb => (isReachable_iff wf enter).mpr (hreached b hb)
  by_cases hsingle : ∃! x, (DomTree.ofGraph g enter).MeetsAt blocks x
  · obtain ⟨x, hx, honly⟩ := hsingle
    have heq : (DomTree.ofGraph g enter).commonFrontier blocks = [x] := by
      refine List.perm_singleton.mp ((List.perm_ext_iff_of_nodup
        (DomTree.nodup_commonFrontier g enter blocks) (List.nodup_singleton x)).mpr fun y => ?_)
      rw [hmem, List.mem_singleton]
      exact ⟨honly y, fun h => h ▸ hx⟩
    refine ⟨some x, DomTree.pathCross_of_single hne heq, fun _ b => ?_,
      fun h => absurd ⟨x, hx, honly⟩ h⟩
    exact ⟨fun h => Option.some.inj h ▸ hx, fun h => by rw [honly b h]⟩
  · have hmany : ∀ b, (DomTree.ofGraph g enter).commonFrontier blocks ≠ [b] := by
      intro b hb
      refine hsingle ⟨b, (hmem b).mp (by simp [hb]), fun y hy => ?_⟩
      simpa [hb] using (hmem y).mpr hy
    have hspec := DomTree.closestJoin_spec hclean hblocks
      ((DomTree.ofGraph g enter).commonFrontier blocks) hne
    rw [funext fun x => propext (hmem x)] at hspec
    exact ⟨_, DomTree.pathCross_of_not_single hne hblocks hmany, fun h => absurd h hsingle,
      fun _ => hspec⟩

/-- Blocks given in another order give the same answer. -/
theorem pathCross_perm {others : List BlockId} (hperm : others.Perm blocks) (hne : blocks ≠ [])
    (hreached : ∀ b ∈ blocks, Reached g (IsRoot g enter) b) :
    (DomTree.ofGraph g enter).pathCross g others =
      (DomTree.ofGraph g enter).pathCross g blocks := by
  have hne' : others ≠ [] := fun hnil => hne (List.perm_nil.mp (hnil ▸ hperm.symm))
  have hreached' : ∀ b ∈ others, Reached g (IsRoot g enter) b := fun b hb =>
    hreached b (hperm.mem_iff.mp hb)
  obtain ⟨join, hjoin, hone, hmany⟩ := pathCross_eq wf hclean enter hne hreached
  obtain ⟨join', hjoin', hone', hmany'⟩ := pathCross_eq wf hclean enter hne' hreached'
  have hmeets : (DomTree.ofGraph g enter).MeetsAt others =
      (DomTree.ofGraph g enter).MeetsAt blocks :=
    funext fun x => propext (DomTree.meetsAt_perm hperm)
  rw [hmeets] at hone' hmany'
  rw [hjoin, hjoin']
  refine congrArg Except.ok (Option.ext fun b => ?_)
  by_cases hsingle : ∃! x, (DomTree.ofGraph g enter).MeetsAt blocks x
  · exact (hone' hsingle b).trans (hone hsingle b).symm
  · rw [(hmany hsingle).1, (hmany' hsingle).1]
    exact ⟨fun h => h.perm hperm.symm, fun h => h.perm hperm⟩

end

/-- A dominator tree is found for every well-formed graph, and it finds the nearest join of reached
blocks. If the frontiers of the blocks meet at just one block outside them, that is the answer.
Otherwise it is the block outside them, one where the frontiers meet if there are such, that is
closest to all of them over clean edges and has the lowest number of the closest; there is no answer
just if clean edges lead from all of them to no such block. The answer is the same for the blocks in
any order. -/
theorem build_pathCross_nearest (g : Graph) (wf : g.WellFormed)
    (hclean : ∀ a, ∀ b ∈ g.clean a, b < g.size) (enter : Option BlockId) :
    ∃ t, DomTree.build g enter = .ok t ∧ ∀ blocks, blocks ≠ [] →
      (∀ b ∈ blocks, Reached g (IsRoot g enter) b) →
      ∃ join, t.pathCross g blocks = .ok join ∧
        ((∃! x, t.MeetsAt blocks x) → ∀ b, join = some b ↔ t.MeetsAt blocks b) ∧
        ((¬∃! x, t.MeetsAt blocks x) →
          (∀ b, join = some b ↔ g.NearestJoin blocks (t.MeetsAt blocks) b) ∧
          (join = none ↔ ¬∃ b ∉ blocks, ((∃ x, t.MeetsAt blocks x) → t.MeetsAt blocks b) ∧
            ∀ a ∈ blocks, Relation.ReflTransGen (fun x y => y ∈ g.clean x) a b)) ∧
        ∀ others, others.Perm blocks → t.pathCross g others = .ok join := by
  refine ⟨DomTree.ofGraph g enter, build_eq wf enter, fun blocks hne hreached => ?_⟩
  obtain ⟨join, hjoin, hone, hmany⟩ := pathCross_eq wf hclean enter hne hreached
  refine ⟨join, hjoin, hone, fun hsingle => ⟨(hmany hsingle).1, (hmany hsingle).2.trans ?_⟩,
    fun others hperm => (pathCross_perm wf hclean enter hperm hne hreached).trans hjoin⟩
  constructor
  · rintro hnone ⟨b, hout, hwanted, hall⟩
    obtain ⟨total, htotal⟩ := exists_totalDistance_iff.mpr hall
    exact hnone b total ⟨hout, hwanted, htotal⟩
  · intro hnone b total h
    exact hnone ⟨b, h.outside, h.wanted, exists_totalDistance_iff.mp ⟨total, h.total⟩⟩

/-- Block 0 leads to the blocks 1 and 2. Both of these lead to block 4 and to block 3, but block 2
leads to block 3 by way of block 5. -/
def forked : Graph :=
  (((((((((((((({} : Graph).newBlock 0).newBlock 0).newBlock 0).newBlock 0).newBlock 0).newBlock
    0).addEdge 0 1).addEdge 0 2).addEdge 1 3).addEdge 1 4).addEdge 2 4).addEdge 2 5).addEdge 5
      3).refreshAll

theorem forked_wellFormed : forked.WellFormed := by decide +kernel

/-- The frontiers of the blocks 1 and 2 meet at the blocks 3 and 4, of which block 4 is closer, and
those of the blocks 1 and 5 meet at block 3 only. Nothing leads away from the blocks 3 and 4. -/
theorem build_pathCross_nearest_forked :
    forked.WellFormed ∧ (∀ a, ∀ b ∈ forked.clean a, b < forked.size) ∧
      (∀ b < forked.size, Reached forked (IsRoot forked (some 0)) b) ∧
      ∃ t, DomTree.build forked (some 0) = .ok t ∧
        t.pathCross forked [1, 2] = .ok (some 4) ∧ (¬∃! x, t.MeetsAt [1, 2] x) ∧
        forked.NearestJoin [1, 2] (t.MeetsAt [1, 2]) 4 ∧
        t.pathCross forked [2, 1] = .ok (some 4) ∧
        t.pathCross forked [1, 5] = .ok (some 3) ∧ (∃! x, t.MeetsAt [1, 5] x) ∧
        t.MeetsAt [1, 5] 3 ∧
        t.pathCross forked [3, 4] = .ok none ∧
        ¬∃ b ∉ [3, 4], ((∃ x, t.MeetsAt [3, 4] x) → t.MeetsAt [3, 4] b) ∧
          ∀ a ∈ [3, 4], Relation.ReflTransGen (fun x y => y ∈ forked.clean x) a b := by
  have hclean : ∀ a, ∀ b ∈ forked.clean a, b < forked.size := by
    have hall : ∀ a < forked.size, ∀ b ∈ forked.clean a, b < forked.size := by decide +kernel
    exact fun a b hb => hall a (lt_of_mem_clean hb) b hb
  have hreached : ∀ b < forked.size, Reached forked (IsRoot forked (some 0)) b := by
    have hall : ∀ b < forked.size, (DomTree.ofGraph forked (some 0)).isReachable b = true := by
      decide +kernel
    exact fun b hb => (isReachable_iff forked_wellFormed (some 0)).mp (hall b hb)
  obtain ⟨t, ht, hjoin⟩ := build_pathCross_nearest forked forked_wellFormed hclean (some 0)
  obtain rfl : DomTree.ofGraph forked (some 0) = t :=
    Except.ok.inj ((build_eq forked_wellFormed (some 0)).symm.trans ht)
  have hmany : ¬∃! x, (DomTree.ofGraph forked (some 0)).MeetsAt [1, 2] x := by
    rintro ⟨x, -, honly⟩
    have h3 := honly 3 ⟨by decide, by decide +kernel⟩
    have h4 := honly 4 ⟨by decide, by decide +kernel⟩
    exact absurd (h3.trans h4.symm) (by decide)
  have hone : ∃! x, (DomTree.ofGraph forked (some 0)).MeetsAt [1, 5] x := by
    have hfrontier : (DomTree.ofGraph forked (some 0)).frontier 5 = [3] := by decide +kernel
    refine ⟨3, ⟨by decide, by decide +kernel⟩, fun x hx => ?_⟩
    have hmem := hx.2 5 (by simp)
    rw [hfrontier] at hmem
    exact List.mem_singleton.mp hmem
  have hnone : ¬∃! x, (DomTree.ofGraph forked (some 0)).MeetsAt [3, 4] x := by
    have hfrontier : (DomTree.ofGraph forked (some 0)).frontier 3 = [] := by decide +kernel
    rintro ⟨x, hx, -⟩
    have hmem := hx.2 3 (by simp)
    rw [hfrontier] at hmem
    cases hmem
  have hnear : (DomTree.ofGraph forked (some 0)).pathCross forked [1, 2] = .ok (some 4) := by
    decide +kernel
  have hmeet : (DomTree.ofGraph forked (some 0)).pathCross forked [1, 5] = .ok (some 3) := by
    decide +kernel
  have hapart : (DomTree.ofGraph forked (some 0)).pathCross forked [3, 4] = .ok none := by
    decide +kernel
  have hin : ∀ blocks : List BlockId, (∀ b ∈ blocks, b < forked.size) →
      ∀ b ∈ blocks, Reached forked (IsRoot forked (some 0)) b :=
    fun blocks hlt b hb => hreached b (hlt b hb)
  obtain ⟨near, hnear', -, hnearest, hperm⟩ := hjoin [1, 2] (by simp) (hin _ (by decide +kernel))
  obtain rfl : some 4 = near := Except.ok.inj (hnear.symm.trans hnear')
  obtain ⟨meet, hmeet', honly, -⟩ := hjoin [1, 5] (by simp) (hin _ (by decide +kernel))
  obtain rfl : some 3 = meet := Except.ok.inj (hmeet.symm.trans hmeet')
  obtain ⟨apart, hapart', -, hnowhere, -⟩ := hjoin [3, 4] (by simp) (hin _ (by decide +kernel))
  obtain rfl : none = apart := Except.ok.inj (hapart.symm.trans hapart')
  exact ⟨forked_wellFormed, hclean, hreached, _, ht, hnear, hmany,
    ((hnearest hmany).1 4).mp rfl, hperm [2, 1] (List.Perm.swap 1 2 []), hmeet, hone,
    (honly hone 3).mp rfl, hapart, (hnowhere hnone).2.mp rfl⟩

end Dominance

end TryRegions
