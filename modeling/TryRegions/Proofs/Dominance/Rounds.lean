import TryRegions.Proofs.Dominance.Parents
import Mathlib.Logic.Function.Iterate

/-! What the rounds of the search for dominators keep and what they gain. The parents found so far
never lose a dominator: a strict dominator of a block dominates its parent. And after `k` rounds no
path of at most `k` blocks from a root avoids a block that is above its end. Paths that meet no
block twice are no longer than the graph is large, so enough rounds leave above a block its
dominators only. The second fact is kept although a change of one parent moves all that is below
it: a block below the changed one has the changed one on each of its short paths. -/

namespace TryRegions.Dominance

/-- The parents found so far, where the paths of at most `level b` blocks to a block `b` are
accounted for. -/
structure Sound (g : Graph) (root : BlockId → Prop) (order : List BlockId)
    (level : BlockId → Nat) (parents : Parents) : Prop where
  size : parents.size = g.size
  upward : Upward order parents
  kept : ∀ (b : BlockId) n d, parents[b]?.join = some n → StrictlyDominates g root d b →
    ∃ p, n = some p ∧ Dominates g root d p
  arrived : ∀ r b blocks, root r → g.Path r b blocks → blocks.length ≤ level b →
    Found parents (some b)
  avoided : ∀ r b blocks e, root r → g.Path r b blocks → blocks.length ≤ level b →
    e ∉ blocks → ¬Above parents e b

section

variable {parents : Parents} {b : BlockId} {n : Node}

theorem join_set (hb : b < parents.size) (c : BlockId) :
    (parents.setIfInBounds b (some n))[c]?.join = if c = b then some n else parents[c]?.join := by
  rw [Array.getElem?_setIfInBounds]
  by_cases hcb : c = b
  · subst hcb
    simp [hb]
  · rw [if_neg (Ne.symm hcb), if_neg hcb]

theorem Found.set (hb : b < parents.size) {m : Node} (h : Found parents m) :
    Found (parents.setIfInBounds b (some n)) m := by
  cases m with
  | none => trivial
  | some c =>
    obtain ⟨m, hm⟩ := h
    by_cases hcb : c = b
    · exact ⟨n, by rw [join_set hb, if_pos hcb]⟩
    · exact ⟨m, by rw [join_set hb, if_neg hcb, hm]⟩

/-- A block that is above another one after a change was so before, or the changed block lies
between the two. -/
theorem above_set (hb : b < parents.size) {x y : BlockId}
    (h : Above (parents.setIfInBounds b (some n)) x y) :
    Above parents x y ∨
      Above parents b y ∧ Above (parents.setIfInBounds b (some n)) x b := by
  induction h with
  | self => exact Or.inl .self
  | @up y p hp h ih =>
    by_cases hyb : y = b
    · subst hyb
      exact Or.inr ⟨.self, .up hp h⟩
    · rw [join_set hb, if_neg hyb] at hp
      rcases ih with ih | ⟨ih, hx⟩
      · exact Or.inl (.up hp ih)
      · exact Or.inr ⟨.up hp ih, hx⟩

end

namespace Sound

variable {g : Graph} {root : BlockId → Prop} {order : List BlockId} {level : BlockId → Nat}
  {parents : Parents} {b d : BlockId}

/-- Dominators are above the block. -/
theorem above_of_dominates (sound : Sound g root order level parents) (m : Nat) :
    ∀ b, rankIn order b = m → Found parents (some b) → Dominates g root d b →
      Above parents d b := by
  induction m using Nat.strong_induction_on with
  | _ m ih =>
    intro b hm hb hd
    by_cases hdb : d = b
    · rw [hdb]
      exact .self
    · obtain ⟨n, hn⟩ := hb
      obtain ⟨p, rfl, hp⟩ := sound.kept b n d hn ⟨hd, hdb⟩
      have hlt := sound.upward.lower b p hn
      exact .up hn (ih _ (hm ▸ hlt) p rfl (sound.upward.found b _ hn) hp)

/-- A dominator of `b` dominates the blocks above `b` that it does not come after. -/
theorem dominates_of_above (sound : Sound g root order level parents) {q : BlockId}
    (h : Above parents q b) (hd : Dominates g root d b) (hq : rankIn order d ≤ rankIn order q) :
    Dominates g root d q := by
  induction h with
  | self => exact hd
  | @up b p hp h ih =>
    have hlt := sound.upward.lower b p hp
    have hle := Above.rankIn_le sound.upward h
    have hdb : d ≠ b := by
      rintro rfl
      omega
    obtain ⟨p', heq, hp'⟩ := sound.kept b _ d hp ⟨hd, hdb⟩
    cases heq
    exact ih hp'

theorem initial (g : Graph) (root : BlockId → Prop) (order : List BlockId) :
    Sound g root order (fun _ => 0) (Array.replicate g.size none) := by
  have hnone : ∀ b : BlockId,
      ((Array.replicate g.size none : Parents)[b]?).join = none := by
    intro b
    rw [Array.getElem?_replicate]
    split <;> rfl
  refine ⟨by simp, ⟨?_, ?_, ?_⟩, ?_, ?_, ?_⟩
  · intro b n h
    rw [hnone] at h
    cases h
  · intro b p h
    rw [hnone] at h
    cases h
  · intro b n h
    rw [hnone] at h
    cases h
  · intro b n d h
    rw [hnone] at h
    cases h
  · intro r b blocks _ path hlen
    have := path.length_pos
    omega
  · intro r b blocks e _ path hlen
    have := path.length_pos
    omega

end Sound

/-- The node may be the new parent of `b`: the blocks above it are those above all blocks that lead
to `b` and have a parent, or none if `b` is a root, and one of the former comes before `b`. -/
structure Candidate (g : Graph) (root : BlockId → Prop) (order : List BlockId)
    (parents : Parents) (b : BlockId) (n : Node) : Prop where
  found : Found parents n
  above : ∀ x, AboveNode parents x n ↔
    ¬root b ∧ ∀ p ∈ g.preds b, Found parents (some p) → Above parents x p
  low : root b ∨ ∃ p ∈ g.preds b, Found parents (some p) ∧ rankIn order p < rankIn order b

namespace Candidate

variable {g : Graph} {root : BlockId → Prop} {order : List BlockId} {level : BlockId → Nat}
  {parents : Parents} {b : BlockId} {n : Node}

/-- What is above the new parent comes before the block. -/
theorem rankIn_lt (h : Candidate g root order parents b n) (upward : Upward order parents)
    {x : BlockId} (hx : AboveNode parents x n) : rankIn order x < rankIn order b := by
  obtain ⟨hroot, hall⟩ := (h.above x).mp hx
  obtain ⟨p, hp, hfound, hless⟩ := h.low.resolve_left hroot
  exact (Above.rankIn_le upward (hall p hp hfound)).trans_lt hless

/-- What is above the new parent does not change when the block is given that parent. -/
theorem aboveNode_of_set (h : Candidate g root order parents b n) (upward : Upward order parents)
    (hb : b < parents.size) {x : BlockId}
    (hx : AboveNode (parents.setIfInBounds b (some n)) x n) : AboveNode parents x n := by
  cases n with
  | none => exact hx
  | some q =>
    rcases above_set hb hx with hx | ⟨hbq, -⟩
    · exact hx
    · exact absurd (h.rankIn_lt upward hbq) (Nat.lt_irrefl _)

theorem upward_set (h : Candidate g root order parents b n) (upward : Upward order parents)
    (hb : b < parents.size) (hmem : b ∈ order) :
    Upward order (parents.setIfInBounds b (some n)) where
  mem c m hm := by
    rw [join_set hb] at hm
    split at hm
    · rename_i hcb
      exact hcb ▸ hmem
    · exact upward.mem c m hm
  lower c p hp := by
    rw [join_set hb] at hp
    split at hp
    · rename_i hcb
      cases hp
      exact hcb ▸ h.rankIn_lt upward Above.self
    · exact upward.lower c p hp
  found c m hm := by
    rw [join_set hb] at hm
    split at hm
    · cases hm
      exact h.found.set hb
    · exact (upward.found c m hm).set hb

/-- A strict dominator of the block dominates the new parent. -/
theorem kept (h : Candidate g root order parents b n) (sound : Sound g root order level parents)
    (hg : g.Mirrored) (ordered : Ordered g root order) {d : BlockId}
    (hd : StrictlyDominates g root d b) : ∃ p, n = some p ∧ Dominates g root d p := by
  have hroot := hd.not_root
  have hpred : ∀ p ∈ g.preds b, Found parents (some p) → Dominates g root d p := by
    rintro p hp ⟨m, hm⟩
    exact hd.dominates_pred ((hg.mirrored p b).mpr hp)
      ((ordered.mem p).mp (sound.upward.mem p m hm))
  have hdn : AboveNode parents d n := (h.above d).mpr ⟨hroot, fun p hp hf =>
    sound.above_of_dominates _ p rfl hf (hpred p hp hf)⟩
  cases n with
  | none => exact hdn.elim
  | some q =>
    obtain ⟨p, hp, hf, -⟩ := h.low.resolve_left hroot
    have hq : Above parents q p := ((h.above q).mp Above.self).2 p hp hf
    exact ⟨q, rfl, sound.dominates_of_above hq (hpred p hp hf)
      (Above.rankIn_le sound.upward hdn)⟩

/-- A path to the block that is longer by one than the paths accounted for meets all that is above
the block when it has its new parent. -/
theorem avoided (h : Candidate g root order parents b n) (sound : Sound g root order level parents)
    (hg : g.Mirrored) (hb : b < parents.size) {k : Nat} (hlevel : ∀ c, k ≤ level c)
    {r e : BlockId} {blocks : List BlockId} (hr : root r) (path : g.Path r b blocks)
    (hlen : blocks.length ≤ k + 1) (he : e ∉ blocks) :
    ¬Above (parents.setIfInBounds b (some n)) e b := by
  intro habove
  have hself : (parents.setIfInBounds b (some n))[b]?.join = some n := by simp [join_set hb]
  rcases (aboveNode_of_parent hself).mp habove with rfl | habove
  · exact he path.target_mem
  obtain ⟨hroot, hall⟩ := (h.above e).mp (h.aboveNode_of_set sound.upward hb habove)
  cases path with
  | start => exact hroot hr
  | @step p _ blocks path hp =>
    have hlen' : blocks.length ≤ level p := by
      have := hlevel p
      simp at hlen
      omega
    have he' : e ∉ blocks := fun h => he (List.mem_append_left _ h)
    exact sound.avoided r p blocks e hr path hlen' he'
      (hall p ((hg.mirrored p b).mp hp) (sound.arrived r p blocks hr path hlen'))

end Candidate

namespace Sound

variable {g : Graph} {root : BlockId → Prop} {order : List BlockId} {level : BlockId → Nat}
  {parents : Parents} {b d : BlockId}

/-- Giving a block the candidate for its parent accounts for paths that are longer by one. -/
theorem place (sound : Sound g root order level parents) (hg : g.Mirrored)
    (ordered : Ordered g root order) (hb : b ∈ order) (hlt : b < g.size) {n : Node}
    (hn : Candidate g root order parents b n) {k : Nat}
    (hlevel : ∀ c, k ≤ level c ∧ level c ≤ k + 1) :
    Sound g root order (fun c => if c = b then k + 1 else level c)
      (parents.setIfInBounds b (some n)) := by
  have hsize : b < parents.size := sound.size ▸ hlt
  have hat : ∀ r blocks e, root r → g.Path r b blocks → blocks.length ≤ k + 1 → e ∉ blocks →
      ¬Above (parents.setIfInBounds b (some n)) e b := fun _ _ _ =>
    hn.avoided sound hg hsize fun c => (hlevel c).1
  refine ⟨by simp [sound.size], hn.upward_set sound.upward hsize hb, ?_, ?_, ?_⟩
  · intro c m d hm hd
    rw [join_set hsize] at hm
    split at hm
    · rename_i hcb
      cases hm
      exact hn.kept sound hg ordered (hcb ▸ hd)
    · exact sound.kept c m d hm hd
  · intro r c blocks hr path hlen
    by_cases hcb : c = b
    · exact ⟨n, by rw [join_set hsize, if_pos hcb]⟩
    · rw [if_neg hcb] at hlen
      exact (sound.arrived r c blocks hr path hlen).set hsize
  · intro r c blocks e hr path hlen he habove
    by_cases hcb : c = b
    · subst hcb
      rw [if_pos rfl] at hlen
      exact hat r blocks e hr path hlen he habove
    rw [if_neg hcb] at hlen
    rcases above_set hsize habove with habove | ⟨hbc, hbe⟩
    · exact sound.avoided r c blocks e hr path hlen he habove
    · -- The changed block lies on the path, so the path up to it is short enough.
      have hmem : b ∈ blocks := by
        by_contra hmem
        exact sound.avoided r c blocks b hr path hlen hmem hbc
      obtain ⟨first, hfirst, hpre, hshort⟩ := path.upTo hmem
      have hless := hshort (Ne.symm hcb)
      have hupper := (hlevel c).2
      exact hat r first e hr hfirst (by omega) (fun h => he (hpre.subset h)) hbe

/-- When all paths that meet no block twice are accounted for, the blocks above a block are its
dominators. -/
theorem above_iff_dominates (sound : Sound g root order level parents) (hg : g.Mirrored)
    (ordered : Ordered g root order) (hroot : ∀ r, root r → r < g.size)
    (hlevel : g.size ≤ level b) (hb : Found parents (some b)) :
    Above parents d b ↔ Dominates g root d b := by
  constructor
  · intro h
    obtain ⟨n, hn⟩ := hb
    refine ⟨(ordered.mem b).mp (sound.upward.mem b n hn), fun r hr blocks path => ?_⟩
    by_contra hd
    obtain ⟨short, hshort, hsub, hnodup⟩ := path.exists_nodup
    have hlen : short.length ≤ g.size :=
      length_le_of_nodup hnodup (hshort.lt_of_mem (hroot r hr) hg.succs_lt)
    exact sound.avoided r b short d hr hshort (hlen.trans hlevel) (fun h => hd (hsub h)) h
  · exact sound.above_of_dominates _ b rfl hb

/-- A parent that is a block strictly dominates the block below it, once all short paths are
accounted for. -/
theorem strictlyDominates (sound : Sound g root order level parents) (hg : g.Mirrored)
    (ordered : Ordered g root order) (hroot : ∀ r, root r → r < g.size)
    (hlevel : g.size ≤ level b) {p : BlockId} (hp : parents[b]?.join = some (some p)) :
    StrictlyDominates g root p b := by
  refine ⟨(sound.above_iff_dominates hg ordered hroot hlevel ⟨_, hp⟩).mp (.up hp .self), ?_⟩
  rintro rfl
  exact Nat.lt_irrefl _ (sound.upward.lower _ _ hp)

/-- Only the levels of the blocks in the order matter. -/
theorem relevel (sound : Sound g root order level parents) (ordered : Ordered g root order)
    {level' : BlockId → Nat} (h : ∀ b ∈ order, level' b ≤ level b) :
    Sound g root order level' parents := by
  have hle : ∀ r b blocks, root r → g.Path r b blocks → level' b ≤ level b :=
    fun r b blocks hr path => h b ((ordered.mem b).mpr ⟨r, hr, blocks, path⟩)
  exact { sound with
    arrived := fun r b blocks hr path hlen =>
      sound.arrived r b blocks hr path (hlen.trans (hle r b blocks hr path))
    avoided := fun r b blocks e hr path hlen =>
      sound.avoided r b blocks e hr path (hlen.trans (hle r b blocks hr path)) }

end Sound

section Round

variable {g : Graph} {root : BlockId → Prop} {order : List BlockId} {isRoot : BlockId → Bool}
  {ranks : Array Nat} (hg : g.Mirrored) (ordered : Ordered g root order)
  (hroot : ∀ b, isRoot b = true ↔ root b) (hranks : RanksOf order ranks)
  (hlt : ∀ b ∈ order, b < g.size) (hsize : order.length ≤ g.size)
include hg ordered hroot hranks hlt hsize

/-- The part of a round that looks at the blocks of `part`, when those of `seen` have been looked
at. -/
theorem round_part_sound (k : Nat) (part seen rest : List BlockId) (parents : Parents)
    (horder : order = seen ++ part ++ rest)
    (sound : Sound g root order (fun c => if c ∈ seen then k + 1 else k) parents)
    (hseen : ∀ b ∈ seen, Found parents (some b)) :
    Sound g root order (fun c => if c ∈ seen ++ part then k + 1 else k)
        (round g isRoot ranks part parents) ∧
      ∀ b ∈ seen ++ part, Found (round g isRoot ranks part parents) (some b) := by
  induction part generalizing seen parents with
  | nil =>
    rw [List.append_nil]
    exact ⟨sound, hseen⟩
  | cons b part ih =>
    have horder' : order = seen ++ b :: (part ++ rest) := by simp [horder]
    have hb : b ∈ order := by simp [horder]
    -- A block in front of `b` leads to it and has its parent, so there is a candidate.
    have hlow : root b ∨ ∃ p ∈ g.preds b, Found parents (some p) ∧
        rankIn order p < rankIn order b := by
      rcases (horder' ▸ ordered.led).exists_before with hr | ⟨p, hp, hbp⟩
      · exact Or.inl hr
      · exact Or.inr ⟨p, (hg.mirrored p b).mp hbp, hseen p hp, ordered.rankIn_lt horder' hp⟩
    obtain ⟨n, hcand, hn, habove⟩ := candidate_spec isRoot sound.upward hranks hsize
      (hlow.imp (hroot b).mpr fun ⟨p, hp, hf, _⟩ => ⟨p, hp, hf⟩)
    have habove' : ∀ x, AboveNode parents x n ↔
        ¬root b ∧ ∀ p ∈ g.preds b, Found parents (some p) → Above parents x p := by
      intro x
      rw [habove x, ← hroot b, Bool.not_eq_true]
    have hstep : round g isRoot ranks (b :: part) parents =
        round g isRoot ranks part (parents.setIfInBounds b (some n)) := by
      simp [round, hcand]
    have hb' : b < parents.size := sound.size ▸ hlt b hb
    have hseen' : ∀ c ∈ seen ++ [b], Found (parents.setIfInBounds b (some n)) (some c) := by
      intro c hc
      rcases List.mem_append.mp hc with hc | hc
      · exact (hseen c hc).set hb'
      · rw [List.mem_singleton.mp hc]
        exact ⟨n, by simp [join_set hb']⟩
    have hlevel : ∀ c, k ≤ (if c ∈ seen then k + 1 else k) ∧
        (if c ∈ seen then k + 1 else k) ≤ k + 1 := by
      intro c
      split <;> omega
    have sound' : Sound g root order (fun c => if c ∈ seen ++ [b] then k + 1 else k)
        (parents.setIfInBounds b (some n)) := by
      refine (sound.place hg ordered hb (hlt b hb) ⟨hn, habove', hlow⟩ hlevel).relevel ordered ?_
      intro c _
      by_cases hcb : c = b <;> simp [hcb]
    rw [hstep, List.append_cons]
    exact ih (seen ++ [b]) _ (by simp [horder]) sound' hseen'

/-- After `k` rounds the paths of at most `k` blocks are accounted for, and after the first one
every block in the order has a parent. -/
theorem iterate_round_sound (k : Nat) :
    Sound g root order (fun _ => k)
        ((round g isRoot ranks order)^[k] (Array.replicate g.size none)) ∧
      (0 < k → ∀ b ∈ order,
        Found ((round g isRoot ranks order)^[k] (Array.replicate g.size none)) (some b)) := by
  induction k with
  | zero => exact ⟨Sound.initial g root order, fun h => absurd h (Nat.lt_irrefl 0)⟩
  | succ k ih =>
    rw [Function.iterate_succ_apply']
    obtain ⟨sound, hfound⟩ := round_part_sound hg ordered hroot hranks hlt hsize k order [] [] _
      (by simp) (by simpa using ih.1) (by simp)
    exact ⟨sound.relevel ordered fun b hb => by simp [hb], fun _ => hfound⟩

end Round

end TryRegions.Dominance
