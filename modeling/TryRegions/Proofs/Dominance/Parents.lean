import TryRegions.Dominance.Tree
import TryRegions.Proofs.Dominance.Order
import Mathlib.Tactic.Ring

/-! The tree that the parents found so far form. `meet` finds the closest node above two others, so
the candidate for a block's parent has above it just the blocks above all predecessors. -/

namespace TryRegions.Dominance

/-- `a` is met on the way up from a block, which is the first one on it. -/
inductive Above (parents : Parents) (a : BlockId) : BlockId → Prop
  | self : Above parents a a
  | up {b p : BlockId} : parents[b]?.join = some (some p) → Above parents a p → Above parents a b

/-- `a` is met on the way up from a node. Nothing is above the roots' parent. -/
def AboveNode (parents : Parents) (a : BlockId) : Node → Prop
  | none => False
  | some b => Above parents a b

/-- A parent was found for the node, or it needs none. -/
def Found (parents : Parents) : Node → Prop
  | none => True
  | some b => ∃ n, parents[b]?.join = some n

/-- The parents found so far lead upwards in rank, to nodes whose parents are found too. -/
structure Upward (order : List BlockId) (parents : Parents) : Prop where
  mem : ∀ (b : BlockId) n, parents[b]?.join = some n → b ∈ order
  lower : ∀ (b p : BlockId), parents[b]?.join = some (some p) → rankIn order p < rankIn order b
  found : ∀ (b : BlockId) n, parents[b]?.join = some n → Found parents n

/-- The ranks are the places in the order. -/
def RanksOf (order : List BlockId) (ranks : Array Nat) : Prop :=
  ∀ b, rankOf ranks (some b) = rankIn order b

theorem ranks_ranksOf {size : Nat} {order : List BlockId} (h : ∀ b ∈ order, b < size) :
    RanksOf order (ranks size order) := by
  intro b
  unfold rankOf ranks
  by_cases hb : b < size
  · simp [hb]
  · have hmem : b ∉ order := fun hmem => hb (h b hmem)
    simp [hb, rankIn, hmem]

theorem RanksOf.le {order : List BlockId} {ranks : Array Nat} (hranks : RanksOf order ranks)
    (n : Node) : rankOf ranks n ≤ order.length := by
  cases n with
  | none => exact Nat.zero_le _
  | some b =>
    rw [hranks]
    exact rankIn_le_length order b

theorem RanksOf.rankOf_add_lt_meetFuel {order : List BlockId} {ranks : Array Nat}
    (hranks : RanksOf order ranks) {size : Nat} (hsize : order.length ≤ size) (n m : Node) :
    rankOf ranks n + rankOf ranks m < meetFuel size := by
  have h1 := hranks.le n
  have h2 := hranks.le m
  have h3 : (size + 1) * (size + 1) = size * size + 2 * size + 1 := by ring
  rw [meetFuel, h3]
  omega

/-- The parents lead from the node to the one above the roots, each of them of lower rank than the
node before. -/
inductive LeadsUp (ranks : Array Nat) (parents : Parents) : Node → Prop
  | top : LeadsUp ranks parents none
  | up {b : BlockId} {n : Node} : parents[b]?.join = some n →
      rankOf ranks n < rankOf ranks (some b) → LeadsUp ranks parents n →
      LeadsUp ranks parents (some b)

/-- The climb from two nodes ends at `c`: as long as they differ, the one of higher rank goes on to
its parent, which has to be known. Different nodes of one rank never meet. -/
inductive Meets (ranks : Array Nat) (parents : Parents) : Node → Node → Node → Prop
  | same {a : Node} : Meets ranks parents a a a
  | left {a : BlockId} {n b c : Node} : rankOf ranks b < rankOf ranks (some a) →
      parents[a]?.join = some n → Meets ranks parents n b c → Meets ranks parents (some a) b c
  | right {a n c : Node} {b : BlockId} : rankOf ranks a < rankOf ranks (some b) →
      parents[b]?.join = some n → Meets ranks parents a n c → Meets ranks parents a (some b) c

section

variable {ranks : Array Nat} {parents : Parents} {a b c : Node}

theorem LeadsUp.parent {b : BlockId} {n : Node} (h : LeadsUp ranks parents (some b))
    (hn : parents[b]?.join = some n) :
    rankOf ranks n < rankOf ranks (some b) ∧ LeadsUp ranks parents n := by
  cases h with
  | up hm hlt hup =>
    rw [hn] at hm
    cases hm
    exact ⟨hlt, hup⟩

theorem LeadsUp.rank_pos {b : BlockId} (h : LeadsUp ranks parents (some b)) :
    0 < rankOf ranks (some b) := by
  cases h with
  | up _ hlt _ => exact Nat.zero_lt_of_lt hlt

/-- Nodes with a way up are told apart by their ranks. -/
theorem LeadsUp.eq_of_rank_eq {order : List BlockId} (hranks : RanksOf order ranks)
    (ha : LeadsUp ranks parents a) (hb : LeadsUp ranks parents b)
    (h : rankOf ranks a = rankOf ranks b) : a = b := by
  cases a with
  | none =>
    cases b with
    | none => rfl
    | some b => exact absurd hb.rank_pos (h ▸ Nat.lt_irrefl _)
  | some a =>
    have hpos := ha.rank_pos
    cases b with
    | none => exact absurd hpos (h ▸ Nat.lt_irrefl _)
    | some b =>
      rw [hranks] at hpos
      rw [hranks, hranks] at h
      rw [rankIn_injOn (rankIn_pos.mp hpos) h]

/-- Two nodes with a way up meet: one of their ranks falls with every step. -/
theorem LeadsUp.exists_meets {order : List BlockId} (hranks : RanksOf order ranks)
    (ha : LeadsUp ranks parents a) (hb : LeadsUp ranks parents b) :
    ∃ c, Meets ranks parents a b c := by
  induction hsum : rankOf ranks a + rankOf ranks b using Nat.strong_induction_on
    generalizing a b with
  | _ sum ih =>
    rcases Nat.lt_trichotomy (rankOf ranks a) (rankOf ranks b) with hlt | heq | hlt
    · cases hb with
      | top => exact absurd hlt (Nat.not_lt_zero _)
      | up hn hless hup =>
        obtain ⟨c, hc⟩ := ih _ (by omega) ha hup rfl
        exact ⟨c, .right hlt hn hc⟩
    · rw [ha.eq_of_rank_eq hranks hb heq]
      exact ⟨b, .same⟩
    · cases ha with
      | top => exact absurd hlt (Nat.not_lt_zero _)
      | up hn hless hup =>
        obtain ⟨c, hc⟩ := ih _ (by omega) hup hb rfl
        exact ⟨c, .left hlt hn hc⟩

/-- With fuel for both ranks, `meet` gives the node where the climbs end. -/
theorem Meets.meet_eq (h : Meets ranks parents a b c) (ha : LeadsUp ranks parents a)
    (hb : LeadsUp ranks parents b) {fuel : Nat}
    (hfuel : rankOf ranks a + rankOf ranks b < fuel) : meet ranks parents fuel a b = c := by
  induction h generalizing fuel with
  | same =>
    obtain ⟨fuel, rfl⟩ := Nat.exists_eq_add_one_of_ne_zero (Nat.ne_zero_of_lt hfuel)
    rw [meet, if_pos rfl]
  | @left a n b c hlt hn _ ih =>
    obtain ⟨hless, hup⟩ := ha.parent hn
    obtain ⟨fuel, rfl⟩ := Nat.exists_eq_add_one_of_ne_zero (Nat.ne_zero_of_lt hfuel)
    have hne : some a ≠ b := fun heq => absurd hlt (heq ▸ Nat.lt_irrefl _)
    have hparent : parentOf parents (some a) = n := by simp [parentOf, hn]
    rw [meet, if_neg hne, if_pos hlt, hparent]
    exact ih hup hb (by omega)
  | @right a n c b hlt hn _ ih =>
    obtain ⟨hless, hup⟩ := hb.parent hn
    obtain ⟨fuel, rfl⟩ := Nat.exists_eq_add_one_of_ne_zero (Nat.ne_zero_of_lt hfuel)
    have hne : a ≠ some b := fun heq => absurd hlt (heq ▸ Nat.lt_irrefl _)
    have hparent : parentOf parents (some b) = n := by simp [parentOf, hn]
    rw [meet, if_neg hne, if_neg (Nat.lt_asymm hlt), hparent]
    exact ih ha hup (by omega)

end

section

variable {order : List BlockId} {parents : Parents} {a b : BlockId}

theorem Above.rankIn_le (upward : Upward order parents) (h : Above parents a b) :
    rankIn order a ≤ rankIn order b := by
  induction h with
  | self => exact Nat.le_refl _
  | up hp _ ih => exact ih.trans (upward.lower _ _ hp).le

theorem aboveNode_of_parent {n : Node} (hn : parents[b]?.join = some n) :
    Above parents a b ↔ a = b ∨ AboveNode parents a n := by
  constructor
  · rintro (_ | ⟨hp, h⟩)
    · exact Or.inl rfl
    · rw [hn] at hp
      cases hp
      exact Or.inr h
  · rintro (rfl | h)
    · exact .self
    · cases n with
      | none => exact h.elim
      | some p => exact .up hn h

theorem AboveNode.rankIn_le (upward : Upward order parents) {ranks : Array Nat}
    (hranks : RanksOf order ranks) {n : Node} (h : AboveNode parents a n) :
    rankIn order a ≤ rankOf ranks n := by
  cases n with
  | none => exact h.elim
  | some b =>
    rw [hranks]
    exact Above.rankIn_le upward h

end

section

variable {order : List BlockId} {ranks : Array Nat} {parents : Parents}
  (upward : Upward order parents) (hranks : RanksOf order ranks)
include upward hranks

theorem Found.rank_pos {b : BlockId} (h : Found parents (some b)) : 0 < rankOf ranks (some b) := by
  obtain ⟨n, hn⟩ := h
  rw [hranks]
  exact rankIn_pos.mpr (upward.mem b n hn)

theorem isPlaced_iff {b : BlockId} :
    isPlaced ranks parents b = true ↔ Found parents (some b) := by
  constructor
  · intro h
    simp only [isPlaced, Bool.and_eq_true, decide_eq_true_eq, Option.isSome_iff_exists] at h
    exact h.2
  · intro h
    have hpos := Found.rank_pos upward hranks h
    obtain ⟨n, hn⟩ := h
    simp [isPlaced, hpos, hn]

/-- Going up from the node of higher rank leaves out no block that is above both. -/
theorem aboveNode_climb_iff {a : BlockId} {n b : Node} (hn : parents[a]?.join = some n)
    (hlt : rankOf ranks b < rankOf ranks (some a)) (x : BlockId) :
    AboveNode parents x n ∧ AboveNode parents x b ↔
      AboveNode parents x (some a) ∧ AboveNode parents x b := by
  have hne : AboveNode parents x b → x ≠ a := by
    rintro hx rfl
    have := hx.rankIn_le upward hranks
    rw [hranks] at hlt
    omega
  rw [show AboveNode parents x (some a) ↔ _ from aboveNode_of_parent hn]
  tauto

/-- The node where two climbs meet has above it just what is above both nodes. -/
theorem Meets.aboveNode_iff {a b c : Node} (h : Meets ranks parents a b c) (ha : Found parents a)
    (hb : Found parents b) :
    Found parents c ∧
      ∀ x, AboveNode parents x c ↔ AboveNode parents x a ∧ AboveNode parents x b := by
  induction h with
  | same => exact ⟨ha, fun x => (and_self_iff).symm⟩
  | left hlt hn _ ih =>
    obtain ⟨hc, habove⟩ := ih (upward.found _ _ hn) hb
    exact ⟨hc, fun x => (habove x).trans (aboveNode_climb_iff upward hranks hn hlt x)⟩
  | right hlt hn _ ih =>
    obtain ⟨hc, habove⟩ := ih ha (upward.found _ _ hn)
    refine ⟨hc, fun x => (habove x).trans ?_⟩
    rw [and_comm, aboveNode_climb_iff upward hranks hn hlt, and_comm]

theorem Found.leadsUp {n : Node} (h : Found parents n) : LeadsUp ranks parents n := by
  induction hr : rankOf ranks n using Nat.strong_induction_on generalizing n with
  | _ r ih =>
    cases n with
    | none => exact .top
    | some b =>
      obtain ⟨m, hm⟩ := h
      have hlt : rankOf ranks m < rankOf ranks (some b) := by
        cases m with
        | none => exact Found.rank_pos upward hranks ⟨_, hm⟩
        | some p =>
          rw [hranks, hranks]
          exact upward.lower b p hm
      exact .up hm hlt (ih _ (hr ▸ hlt) (upward.found b m hm) rfl)

/-- `meet` gives a node that has above it just what is above both nodes. -/
theorem meet_spec (fuel : Nat) (a b : Node) (ha : Found parents a) (hb : Found parents b)
    (hfuel : rankOf ranks a + rankOf ranks b < fuel) :
    Found parents (meet ranks parents fuel a b) ∧
      ∀ x, AboveNode parents x (meet ranks parents fuel a b) ↔
        AboveNode parents x a ∧ AboveNode parents x b := by
  have hup := ha.leadsUp upward hranks
  have hup' := hb.leadsUp upward hranks
  obtain ⟨c, hc⟩ := hup.exists_meets hranks hup'
  rw [hc.meet_eq hup hup' hfuel]
  exact hc.aboveNode_iff upward hranks ha hb

end

/-- One predecessor is taken into account for the parent of a block. -/
def consider (ranks : Array Nat) (parents : Parents) (size : Nat) (best : Option Node)
    (p : BlockId) : Option Node :=
  if isPlaced ranks parents p then
    match best with
    | none => some (some p)
    | some n => some (meet ranks parents (meetFuel size) (some p) n)
  else best

theorem candidate_eq (g : Graph) (isRoot : BlockId → Bool) (ranks : Array Nat) (parents : Parents)
    (b : BlockId) :
    candidate g isRoot ranks parents b =
      (g.preds b).foldl (consider ranks parents g.size) (if isRoot b then some none else none) :=
  rfl

/-- The blocks above the best node so far are those with the property; while there is no such node,
all blocks have it. -/
def Agrees (parents : Parents) (property : BlockId → Prop) : Option Node → Prop
  | none => ∀ x, property x
  | some n => Found parents n ∧ ∀ x, AboveNode parents x n ↔ property x

section

variable {order : List BlockId} {ranks : Array Nat} {parents : Parents} {size : Nat}
  (upward : Upward order parents) (hranks : RanksOf order ranks) (hsize : order.length ≤ size)
include upward hranks hsize

theorem consider_agrees {property : BlockId → Prop} {best : Option Node}
    (h : Agrees parents property best) (p : BlockId) :
    Agrees parents (fun x => property x ∧ (Found parents (some p) → Above parents x p))
      (consider ranks parents size best p) := by
  unfold consider
  by_cases hp : Found parents (some p)
  · rw [if_pos ((isPlaced_iff upward hranks).mpr hp)]
    cases best with
    | none => exact ⟨hp, fun x => ⟨fun hx => ⟨h x, fun _ => hx⟩, fun hx => hx.2 hp⟩⟩
    | some n =>
      have hfuel := hranks.rankOf_add_lt_meetFuel hsize (some p) n
      obtain ⟨hfound, habove⟩ := meet_spec upward hranks _ (some p) n hp h.1 hfuel
      refine ⟨hfound, fun x => ?_⟩
      rw [habove x, h.2 x]
      exact ⟨fun hx => ⟨hx.2, fun _ => hx.1⟩, fun hx => ⟨hx.2 hp, hx.1⟩⟩
  · have hplaced : ¬isPlaced ranks parents p = true := fun h =>
      hp ((isPlaced_iff upward hranks).mp h)
    rw [if_neg hplaced]
    cases best with
    | none => exact fun x => ⟨h x, fun hf => absurd hf hp⟩
    | some n =>
      refine ⟨h.1, fun x => ?_⟩
      rw [h.2 x]
      exact ⟨fun hx => ⟨hx, fun hf => absurd hf hp⟩, And.left⟩

theorem foldl_consider_agrees {property : BlockId → Prop} {best : Option Node}
    (h : Agrees parents property best) (ps : List BlockId) :
    Agrees parents
      (fun x => property x ∧ ∀ p ∈ ps, Found parents (some p) → Above parents x p)
      (ps.foldl (consider ranks parents size) best) := by
  induction ps generalizing best property with
  | nil => simpa using h
  | cons p ps ih =>
    have := ih (consider_agrees upward hranks hsize h p)
    simpa [and_assoc] using this

omit hsize in
theorem isSome_foldl_consider {best : Option Node} {ps : List BlockId}
    (h : best.isSome = true ∨ ∃ p ∈ ps, Found parents (some p)) :
    (ps.foldl (consider ranks parents size) best).isSome = true := by
  induction ps generalizing best with
  | nil => simpa using h
  | cons p ps ih =>
    refine ih ?_
    unfold consider
    rcases h with h | ⟨q, hq, hfound⟩
    · left
      split
      · split <;> rfl
      · exact h
    rcases List.mem_cons.mp hq with rfl | hq
    · left
      rw [if_pos ((isPlaced_iff upward hranks).mpr hfound)]
      split <;> rfl
    · exact Or.inr ⟨q, hq, hfound⟩

end

/-- Above the candidate for the parent of `b` there are just the blocks above all its predecessors
that have a parent, and none if `b` is a root. -/
theorem candidate_spec {g : Graph} (isRoot : BlockId → Bool) {order : List BlockId}
    {ranks : Array Nat} {parents : Parents} (upward : Upward order parents)
    (hranks : RanksOf order ranks) (hsize : order.length ≤ g.size) {b : BlockId}
    (h : isRoot b = true ∨ ∃ p ∈ g.preds b, Found parents (some p)) :
    ∃ n, candidate g isRoot ranks parents b = some n ∧ Found parents n ∧
      ∀ x, AboveNode parents x n ↔
        isRoot b = false ∧ ∀ p ∈ g.preds b, Found parents (some p) → Above parents x p := by
  rw [candidate_eq]
  have hstart : Agrees parents (fun _ => isRoot b = false)
      (if isRoot b then some none else none) := by
    cases isRoot b with
    | true => exact ⟨trivial, fun x => by simp [AboveNode]⟩
    | false => exact fun _ => rfl
  have hagrees := foldl_consider_agrees upward hranks hsize hstart (g.preds b)
  have hsome : ((g.preds b).foldl (consider ranks parents g.size)
      (if isRoot b then some none else none)).isSome = true := by
    refine isSome_foldl_consider upward hranks (h.imp_left fun hr => ?_)
    rw [if_pos hr]
    rfl
  obtain ⟨n, hn⟩ := Option.isSome_iff_exists.mp hsome
  rw [hn] at hagrees ⊢
  exact ⟨n, rfl, hagrees⟩

end TryRegions.Dominance
