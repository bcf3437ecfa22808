import Mathlib.Tactic.Ring
import TryRegions.Proofs.Dominance.Rounds

/-! The search for dominators comes to an end on every mirrored graph, with loops that have several
entries or without. At each moment of it the parents found so far lead upwards in rank, so that two
climbs meet. And the paths that meet no block twice are no longer than the graph is large: once the
rounds have accounted for all of them there is one choice of parents only, and a further round does
not change it. -/

namespace TryRegions.Dominance

section Complete

variable {g : Graph} {root : BlockId → Prop} {order : List BlockId} {level level' : BlockId → Nat}
  {parents others : Parents} {b : BlockId}

theorem Sound.parent_unique (sound : Sound g root order level parents)
    (sound' : Sound g root order level' others) (hg : g.Mirrored) (ordered : Ordered g root order)
    (hroot : ∀ r, root r → r < g.size) (hlevel : g.size ≤ level b) (hlevel' : g.size ≤ level' b)
    {n m : Node} (hn : parents[b]?.join = some n) (hm : others[b]?.join = some m) : n = m := by
  cases n with
  | none =>
    cases m with
    | none => rfl
    | some q =>
      have hq := sound'.strictlyDominates hg ordered hroot hlevel' hm
      obtain ⟨p, hp, -⟩ := sound.kept b _ q hn hq
      cases hp
  | some p =>
    have hp := sound.strictlyDominates hg ordered hroot hlevel hn
    obtain ⟨q, rfl, hpq⟩ := sound'.kept b m p hm hp
    have hq := sound'.strictlyDominates hg ordered hroot hlevel' hm
    obtain ⟨p', hp', hqp⟩ := sound.kept b _ q hn hq
    cases hp'
    rw [ordered.dominates_antisymm hpq hqp]

/-- There is one choice of parents only that accounts for all short paths. -/
theorem Sound.eq_of_complete (sound : Sound g root order level parents)
    (sound' : Sound g root order level' others) (hg : g.Mirrored) (ordered : Ordered g root order)
    (hroot : ∀ r, root r → r < g.size) (hlevel : ∀ b, g.size ≤ level b)
    (hlevel' : ∀ b, g.size ≤ level' b) (hfound : ∀ b ∈ order, Found parents (some b))
    (hfound' : ∀ b ∈ order, Found others (some b)) : parents = others := by
  refine Array.ext (sound.size.trans sound'.size.symm) fun b hb hb' => ?_
  have hjoin : parents[b]?.join = others[b]?.join := by
    by_cases hmem : b ∈ order
    · obtain ⟨n, hn⟩ := hfound b hmem
      obtain ⟨m, hm⟩ := hfound' b hmem
      rw [hn, hm, sound.parent_unique sound' hg ordered hroot (hlevel b) (hlevel' b) hn hm]
    · have hnone : ∀ {level : BlockId → Nat} {parents : Parents},
          Sound g root order level parents → parents[b]?.join = none := fun sound =>
        Option.eq_none_iff_forall_ne_some.mpr fun n hn => hmem (sound.upward.mem b n hn)
      rw [hnone sound, hnone sound']
  rwa [Array.getElem?_eq_getElem hb, Array.getElem?_eq_getElem hb', Option.join_some,
    Option.join_some] at hjoin

end Complete

section Settling

variable {α : Type} {step : α → α} {x y : α} {n : Nat}

/-- Steps are taken until one changes nothing, which happens at `y` after `n` steps that change
something. -/
inductive Settles (step : α → α) : Nat → α → α → Prop
  | quiet {x : α} : step x = x → Settles step 0 x x
  | again {n : Nat} {x y : α} : step x ≠ x → Settles step n (step x) y → Settles step (n + 1) x y

theorem exists_settles {k : Nat} (h : step^[k + 1] x = step^[k] x) :
    ∃ n ≤ k, Settles step n x (step^[k] x) := by
  induction k generalizing x with
  | zero => exact ⟨0, Nat.le_refl 0, .quiet h⟩
  | succ k ih =>
    by_cases hx : step x = x
    · rw [Function.iterate_fixed hx]
      exact ⟨0, Nat.zero_le _, .quiet hx⟩
    · obtain ⟨n, hn, hsettles⟩ := ih (x := step x) h
      exact ⟨n + 1, Nat.succ_le_succ hn, .again hx hsettles⟩

theorem Settles.fixed (h : Settles step n x y) : step y = y := by
  induction h with
  | quiet h => exact h
  | again _ _ ih => exact ih

/-- With fuel for the steps that change something, `settle` ends where the steps do. -/
theorem Settles.settle_eq [DecidableEq α] (h : Settles step n x y) {fuel : Nat} (hn : n ≤ fuel) :
    settle step fuel x = y := by
  induction h generalizing fuel with
  | quiet h =>
    cases fuel with
    | zero => rfl
    | succ fuel => exact if_pos h
  | again hne _ ih =>
    obtain ⟨fuel, rfl⟩ := Nat.exists_eq_add_one_of_ne_zero (Nat.ne_zero_of_lt hn)
    exact (if_neg hne).trans (ih (Nat.le_of_succ_le_succ hn))

end Settling

section Quiet

variable {g : Graph} {isRoot : BlockId → Bool} {ranks : Array Nat}

/-- A look at one block. -/
theorem round_cons (b : BlockId) (blocks : List BlockId) (parents : Parents) :
    round g isRoot ranks (b :: blocks) parents =
      round g isRoot ranks blocks (round g isRoot ranks [b] parents) := rfl

theorem round_singleton {b : BlockId} {parents : Parents} {n : Node}
    (h : candidate g isRoot ranks parents b = some n) :
    round g isRoot ranks [b] parents = parents.setIfInBounds b (some n) := by
  simp [round, h]

/-- A look at other blocks leaves the parent of `b` as it is. -/
theorem round_of_notMem {b : BlockId} {blocks : List BlockId} (hb : b ∉ blocks)
    (parents : Parents) : (round g isRoot ranks blocks parents)[b]? = parents[b]? := by
  induction blocks generalizing parents with
  | nil => rfl
  | cons c blocks ih =>
    obtain ⟨hbc, hrest⟩ : b ≠ c ∧ b ∉ blocks := by simpa using hb
    rw [round_cons, ih hrest]
    cases hcand : candidate g isRoot ranks parents c with
    | none => simp [round, hcand]
    | some n => rw [round_singleton hcand, Array.getElem?_setIfInBounds_ne (Ne.symm hbc)]

/-- If a round that looks at every block once changes nothing, no look of it does. -/
theorem round_singleton_of_round_eq {blocks : List BlockId} (hnodup : blocks.Nodup)
    {parents : Parents} (h : round g isRoot ranks blocks parents = parents) :
    ∀ b ∈ blocks, round g isRoot ranks [b] parents = parents := by
  induction blocks with
  | nil => simp
  | cons c blocks ih =>
    obtain ⟨hc, hrest⟩ := List.nodup_cons.mp hnodup
    -- The looks at the other blocks cannot undo a change of the parent of `c`.
    have hfirst : round g isRoot ranks [c] parents = parents := by
      refine Array.ext_getElem? fun b => ?_
      by_cases hbc : b = c
      · subst hbc
        have hkept : (round g isRoot ranks blocks (round g isRoot ranks [b] parents))[b]? =
            (round g isRoot ranks [b] parents)[b]? := round_of_notMem hc _
        rw [← hkept, ← round_cons, h]
      · exact round_of_notMem (by simpa using hbc) parents
    rw [round_cons, hfirst] at h
    intro b hb
    rcases List.mem_cons.mp hb with rfl | hb
    · exact hfirst
    · exact ih hrest h b hb

end Quiet

/-- The part of a round of the search in `g` that looks at the given blocks. -/
def looks (g : Graph) (enter : Option BlockId) (blocks : List BlockId) (parents : Parents) :
    Parents :=
  round g (fun b => decide (b ∈ roots g enter)) (DomTree.ofGraph g enter).ranks blocks parents

/-- The parents at a moment of the search: `k` rounds are over, and of the next one the looks at the
blocks of `seen`. -/
def moment (g : Graph) (enter : Option BlockId) (k : Nat) (seen : List BlockId) : Parents :=
  looks g enter seen ((looks g enter (DomTree.ofGraph g enter).order)^[k]
    (Array.replicate g.size none))

/-- Looking at `b`, the search climbs from its predecessor `p`, which has a parent, and from the
node `n` that the predecessors in front of `p` agree on. -/
def Compares (g : Graph) (enter : Option BlockId) (parents : Parents) (b p : BlockId) (n : Node) :
    Prop :=
  isPlaced (DomTree.ofGraph g enter).ranks parents p = true ∧
    ∃ before after, g.preds b = before ++ p :: after ∧
      before.foldl (consider (DomTree.ofGraph g enter).ranks parents g.size)
        (if b ∈ roots g enter then some none else none) = some n

section Search

variable {g : Graph} (hg : g.Mirrored) (enter : Option BlockId)
include hg

theorem decide_mem_roots_iff (b : BlockId) :
    decide (b ∈ roots g enter) = true ↔ IsRoot g enter b := by
  rw [decide_eq_true_eq, mem_roots hg]

theorem ranksOf_of_mirrored :
    RanksOf (DomTree.ofGraph g enter).order (DomTree.ofGraph g enter).ranks :=
  ranks_ranksOf (order_lt_of_mirrored hg enter)

theorem iterate_looks_sound (k : Nat) :
    Sound g (IsRoot g enter) (DomTree.ofGraph g enter).order (fun _ => k)
        ((looks g enter (DomTree.ofGraph g enter).order)^[k] (Array.replicate g.size none)) ∧
      (0 < k → ∀ b ∈ (DomTree.ofGraph g enter).order,
        Found ((looks g enter (DomTree.ofGraph g enter).order)^[k] (Array.replicate g.size none))
          (some b)) :=
  iterate_round_sound hg (ordered_of_mirrored hg enter) (decide_mem_roots_iff hg enter)
    (ranksOf_of_mirrored hg enter) (order_lt_of_mirrored hg enter)
    (order_length_le_of_mirrored hg enter) k

theorem moment_upward (k : Nat) {seen rest : List BlockId}
    (horder : (DomTree.ofGraph g enter).order = seen ++ rest) :
    Upward (DomTree.ofGraph g enter).order (moment g enter k seen) := by
  have ordered := ordered_of_mirrored hg enter
  have sound : Sound g (IsRoot g enter) (DomTree.ofGraph g enter).order
      (fun c => if c ∈ [] then k + 1 else k) _ :=
    (iterate_looks_sound hg enter k).1.relevel ordered (by simp)
  have h := round_part_sound hg ordered (decide_mem_roots_iff hg enter)
    (ranksOf_of_mirrored hg enter) (order_lt_of_mirrored hg enter)
    (order_length_le_of_mirrored hg enter) k seen [] rest _ horder sound (by simp)
  exact h.1.upward

/-- Both nodes that the search climbs from have a parent. -/
theorem Compares.found {parents : Parents} (upward : Upward (DomTree.ofGraph g enter).order parents)
    {b p : BlockId} {n : Node} (h : Compares g enter parents b p n) :
    Found parents (some p) ∧ Found parents n := by
  obtain ⟨hplaced, before, -, -, hbest⟩ := h
  have hranks := ranksOf_of_mirrored hg enter
  refine ⟨(isPlaced_iff upward hranks).mp hplaced, ?_⟩
  have hstart : Agrees parents (fun _ => b ∉ roots g enter)
      (if b ∈ roots g enter then some none else none) := by
    by_cases hroot : b ∈ roots g enter
    · rw [if_pos hroot]
      exact ⟨trivial, fun x => ⟨False.elim, fun hx => hx hroot⟩⟩
    · rw [if_neg hroot]
      exact fun _ => hroot
  have hagrees := foldl_consider_agrees upward hranks (order_length_le_of_mirrored hg enter) hstart
    before
  rw [hbest] at hagrees
  exact hagrees.1

/-- After as many rounds as there are blocks, a round changes nothing. -/
theorem iterate_looks_fixed :
    (looks g enter (DomTree.ofGraph g enter).order)^[g.size + 1] (Array.replicate g.size none) =
      (looks g enter (DomTree.ofGraph g enter).order)^[g.size] (Array.replicate g.size none) := by
  obtain ⟨sound, hfound⟩ := iterate_looks_sound hg enter (g.size + 1)
  obtain ⟨sound', hfound'⟩ := iterate_looks_sound hg enter g.size
  refine sound.eq_of_complete sound' hg (ordered_of_mirrored hg enter)
    (fun _ hr => Graph.lt_of_isLive hr.1) (fun _ => Nat.le_succ _) (fun _ => Nat.le_refl _)
    (hfound (Nat.succ_pos _)) fun b hb => ?_
  exact hfound' (Nat.zero_lt_of_lt (order_lt_of_mirrored hg enter b hb)) b hb

/-- The rounds that the search has fuel for are more than it needs. -/
theorem parents_eq : (DomTree.ofGraph g enter).parents =
    (looks g enter (DomTree.ofGraph g enter).order)^[g.size] (Array.replicate g.size none) := by
  obtain ⟨rounds, hle, hsettles⟩ := exists_settles (iterate_looks_fixed hg enter)
  have hfuel : g.size ≤ roundFuel g.size := by
    have h : (g.size + 1) * (g.size + 1) = g.size * g.size + 2 * g.size + 1 := by ring
    rw [roundFuel, h]
    omega
  exact hsettles.settle_eq (hle.trans hfuel)

theorem exists_settles_parents : ∃ rounds ≤ g.size,
    Settles (looks g enter (DomTree.ofGraph g enter).order) rounds (Array.replicate g.size none)
      (DomTree.ofGraph g enter).parents := by
  rw [parents_eq hg enter]
  exact exists_settles (iterate_looks_fixed hg enter)

end Search

/-- The search for dominators ends on every mirrored graph, whatever its shape and its enter block.
At every moment of it, after any number of rounds and looks, when the search climbs from a
predecessor and from the node found so far, the parents lead from both of them to the node above the
roots, each of lower rank than the one before; so the climbs meet, and `meet` has the fuel to get
there. And after no more rounds that change something than there are blocks comes a round that
changes nothing, which is where the parents of the tree are from: no look finds another parent. -/
theorem search_terminates (g : Graph) (hg : g.Mirrored) (enter : Option BlockId) :
    (∀ k seen rest, (DomTree.ofGraph g enter).order = seen ++ rest → ∀ b p n,
      Compares g enter (moment g enter k seen) b p n →
        LeadsUp (DomTree.ofGraph g enter).ranks (moment g enter k seen) (some p) ∧
        LeadsUp (DomTree.ofGraph g enter).ranks (moment g enter k seen) n ∧
        ∃ c, Meets (DomTree.ofGraph g enter).ranks (moment g enter k seen) (some p) n c ∧
          meet (DomTree.ofGraph g enter).ranks (moment g enter k seen) (meetFuel g.size)
            (some p) n = c) ∧
    ∃ rounds ≤ g.size,
      Settles (looks g enter (DomTree.ofGraph g enter).order) rounds
        (Array.replicate g.size none) (DomTree.ofGraph g enter).parents ∧
      ∀ b ∈ (DomTree.ofGraph g enter).order,
        looks g enter [b] (DomTree.ofGraph g enter).parents =
          (DomTree.ofGraph g enter).parents := by
  have hranks := ranksOf_of_mirrored hg enter
  constructor
  · intro k seen rest horder b p n hcompares
    have upward := moment_upward hg enter k horder
    obtain ⟨hp, hn⟩ := hcompares.found hg enter upward
    have hup := hp.leadsUp upward hranks
    have hup' := hn.leadsUp upward hranks
    obtain ⟨c, hc⟩ := hup.exists_meets hranks hup'
    have hfuel := hranks.rankOf_add_lt_meetFuel (order_length_le_of_mirrored hg enter) (some p) n
    exact ⟨hup, hup', c, hc, hc.meet_eq hup hup' hfuel⟩
  · obtain ⟨rounds, hle, hsettles⟩ := exists_settles_parents hg enter
    exact ⟨rounds, hle, hsettles,
      round_singleton_of_round_eq (ordered_of_mirrored hg enter).nodup hsettles.fixed⟩

/-- The blocks 4 and 3 lead to each other, and so do the blocks 4 and 5; each of the three has an
entry of its own from outside. -/
def tangled : Graph :=
  [(0, 2), (0, 1), (1, 3), (2, 5), (2, 4), (3, 4), (4, 5), (4, 3), (5, 4)].foldl
    (fun g e => g.addEdge e.1 e.2) ([0, 0, 0, 0, 0, 0].foldl Graph.newBlock {})

/-- In the second round the search looks at block 4 and climbs from block 3, which comes after it in
the order, and from block 2: it meets at block 0. -/
theorem search_terminates_tangled :
    tangled.Mirrored ∧ (DomTree.ofGraph tangled (some 0)).order = [0, 1, 2, 5] ++ [4, 3] ∧
      Compares tangled (some 0) (moment tangled (some 0) 1 [0, 1, 2, 5]) 4 3 (some 2) ∧
      LeadsUp (DomTree.ofGraph tangled (some 0)).ranks (moment tangled (some 0) 1 [0, 1, 2, 5])
        (some 3) ∧
      Meets (DomTree.ofGraph tangled (some 0)).ranks (moment tangled (some 0) 1 [0, 1, 2, 5])
        (some 3) (some 2) (some 0) ∧
      ∃ rounds ≤ 6, Settles (looks tangled (some 0) (DomTree.ofGraph tangled (some 0)).order) rounds
        (Array.replicate 6 none) (DomTree.ofGraph tangled (some 0)).parents := by
  have wf : tangled.WellFormed := by decide +kernel
  have horder : (DomTree.ofGraph tangled (some 0)).order = [0, 1, 2, 5] ++ [4, 3] := by
    decide +kernel
  have hcompares : Compares tangled (some 0) (moment tangled (some 0) 1 [0, 1, 2, 5]) 4 3
      (some 2) := ⟨by decide +kernel, [2], [5], by decide +kernel, by decide +kernel⟩
  obtain ⟨hclimbs, rounds, hrounds, hsettles, -⟩ :=
    search_terminates tangled wf.mirrors (some 0)
  obtain ⟨hup, -, c, hmeets, hc⟩ := hclimbs 1 [0, 1, 2, 5] [4, 3] horder 4 3 (some 2) hcompares
  obtain rfl : some 0 = c := Eq.trans (by decide +kernel) hc
  exact ⟨wf.mirrors, horder, hcompares, hup, hmeets, rounds, hrounds, hsettles⟩

end TryRegions.Dominance
