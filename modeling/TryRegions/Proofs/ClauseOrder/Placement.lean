import TryRegions.ClauseOrder
import TryRegions.StableSort
import TryRegions.Proofs.Text.Order
import Mathlib.Data.List.Basic
import Mathlib.Data.List.Nodup

/-! Clauses get their places by counts. At every placement a count says for how many of the clauses
that are left a clause waits, so it is zero exactly when none of them has to come first. Placing by
counts is therefore the same as looking at all clauses that are left each time anew, whatever the
test that tells which classes are below which. -/

namespace TryRegions

theorem leastBy_map {α β : Type} (lt : β → β → Bool) (f : α → β) (x : α) (xs : List α) :
    leastBy lt (f x) (xs.map f) = f (leastBy (fun a b => lt (f a) (f b)) x xs) := by
  induction xs generalizing x with
  | nil => rfl
  | cons y ys ih =>
    have h := ih (if lt (f y) (f x) then y else x)
    rw [apply_ite f] at h
    exact h

namespace ClauseOrder

variable {α : Type}

section Before

variable {info : α → Handler}

theorem before_iff {a b : α × Bool} : before info a b = true ↔
    a.2 = true ∧ b.2 = false ∨ a.2 = b.2 ∧ ((info a.1).leadType < (info b.1).leadType ∨
      (info a.1).leadType = (info b.1).leadType ∧ (info a.1).number < (info b.1).number) := by
  obtain ⟨a, ra⟩ := a
  obtain ⟨b, rb⟩ := b
  by_cases hready : ra = rb
  · subst hready
    by_cases hlead : (info a).leadType = (info b).leadType
    · simp [before, hlead]
    · simp [before, hlead]
  · cases ra <;> cases rb <;> simp_all [before]

theorem before_self (a : α × Bool) : before info a a = false := by
  simp [before]

theorem before_trans (a b c : α × Bool) (hab : before info a b = true)
    (hbc : before info b c = true) : before info a c = true := by
  rw [before_iff] at hab hbc ⊢
  rcases hab with ⟨ha, hb⟩ | ⟨hready, hab⟩
  · rcases hbc with ⟨hb', -⟩ | ⟨hready, -⟩
    · rw [hb] at hb'
      cases hb'
    · exact Or.inl ⟨ha, hready ▸ hb⟩
  · rcases hbc with ⟨hb, hc⟩ | ⟨hready', hbc⟩
    · exact Or.inl ⟨hready.trans hb, hc⟩
    · refine Or.inr ⟨hready.trans hready', ?_⟩
      rcases hab with hab | ⟨heq, hab⟩
      · rcases hbc with hbc | ⟨heq', -⟩
        · exact Or.inl (lt_trans hab hbc)
        · exact Or.inl (heq' ▸ hab)
      · rcases hbc with hbc | ⟨heq', hbc⟩
        · exact Or.inl (heq ▸ hbc)
        · exact Or.inr ⟨heq.trans heq', Int.lt_trans hab hbc⟩

/-- The choice does not tell two clauses apart only if all that it looks at is the same. -/
theorem before_trichotomy (a b : α × Bool) : before info a b = true ∨ before info b a = true ∨
    a.2 = b.2 ∧ (info a.1).leadType = (info b.1).leadType ∧
      (info a.1).number = (info b.1).number := by
  rw [before_iff, before_iff]
  by_cases hready : a.2 = b.2
  · rcases lt_trichotomy (info a.1).leadType (info b.1).leadType with hlt | heq | hgt
    · exact Or.inl (Or.inr ⟨hready, Or.inl hlt⟩)
    · rcases lt_trichotomy (info a.1).number (info b.1).number with hlt | hnumber | hgt
      · exact Or.inl (Or.inr ⟨hready, Or.inr ⟨heq, hlt⟩⟩)
      · exact Or.inr (Or.inr ⟨hready, heq, hnumber⟩)
      · exact Or.inr (Or.inl (Or.inr ⟨hready.symm, Or.inr ⟨heq.symm, hgt⟩⟩))
    · exact Or.inr (Or.inl (Or.inr ⟨hready.symm, Or.inl hgt⟩))
  · cases ha : a.2 with
    | true =>
      have hb : b.2 = false := Bool.eq_false_iff.mpr fun hb => hready (ha.trans hb.symm)
      exact Or.inl (Or.inl ⟨rfl, hb⟩)
    | false =>
      have hb : b.2 = true := Bool.of_not_eq_false fun hb => hready (ha.trans hb.symm)
      exact Or.inr (Or.inl (Or.inl ⟨hb, rfl⟩))

theorem before_of_not_before (a b c : α × Bool) (hab : before info a b = true)
    (hcb : before info c b = false) : before info a c = true := by
  rcases @before_trichotomy α info c b with h | h | ⟨hready, hlead, hnumber⟩
  · exact absurd h (Bool.eq_false_iff.mp hcb)
  · exact before_trans a b c hab h
  · rw [before_iff] at hab ⊢
    rwa [hready, hlead, hnumber]

end Before

/-- The slots without a place. -/
def waiting (slots : List (Slot α)) : List (Slot α) := slots.filter fun s => !s.placed

theorem mem_waiting {slots : List (Slot α)} {s : Slot α} :
    s ∈ waiting slots ↔ s ∈ slots ∧ s.placed = false := by
  simp [waiting]

/-- `s` is placed before `t`, if both are left. -/
def sooner (info : α → Handler) (s t : Slot α) : Bool := before info s.mark t.mark

section Scan

variable (info : α → Handler)

theorem foldl_better (held : Slot α) (slots : List (Slot α)) :
    slots.foldl (better info) (some held) =
      some (leastBy (sooner info) held (waiting slots)) := by
  induction slots generalizing held with
  | nil => rfl
  | cons s slots ih =>
    rw [List.foldl_cons, better]
    cases hs : s.placed with
    | true => simp [waiting, hs, ih]
    | false =>
      have hwaiting : waiting (s :: slots) = s :: waiting slots := by simp [waiting, hs]
      have hleast : leastBy (sooner info) held (s :: waiting slots) =
          leastBy (sooner info) (if sooner info s held then s else held) (waiting slots) := rfl
      rw [hwaiting, hleast, ← ih, apply_ite some]
      rfl

/-- The slot that is placed next is the first of those that are left that no other one comes
before. -/
theorem next_eq_some {slots rest : List (Slot α)} {s : Slot α} (hs : waiting slots = s :: rest) :
    next info slots = some (leastBy (sooner info) s rest) := by
  unfold next
  induction slots with
  | nil => cases hs
  | cons t slots ih =>
    rw [List.foldl_cons, better]
    cases ht : t.placed with
    | true =>
      have hwaiting : waiting (t :: slots) = waiting slots := by simp [waiting, ht]
      exact ih (hwaiting ▸ hs)
    | false =>
      have hwaiting : waiting (t :: slots) = t :: waiting slots := by simp [waiting, ht]
      obtain ⟨rfl, rfl⟩ := List.cons_eq_cons.mp (hwaiting.symm.trans hs)
      exact foldl_better info t slots

theorem next_eq_none {slots : List (Slot α)} (hs : waiting slots = []) :
    next info slots = none := by
  have hall : ∀ s ∈ slots, s.placed = true := by simpa [waiting] using hs
  unfold next
  induction slots with
  | nil => rfl
  | cons s slots ih =>
    rw [List.foldl_cons, better, if_pos (hall s List.mem_cons_self)]
    have hrest := fun t ht => hall t (List.mem_cons_of_mem s ht)
    exact ih (by simpa [waiting] using hrest) hrest

end Scan

section Counts

variable (types : TypeHierarchy) (info : α → Handler)

/-- `t` has no place, is not `s`, and has to come before it. -/
def waitsFor (s t : Slot α) : Bool :=
  !t.placed && decide (t.position ≠ s.position) && precedes types info t.clause s.clause

/-- What holds at every placement: positions tell the slots apart, and the count of a slot without
a place is that of the slots that it waits for. -/
structure Counted (slots : List (Slot α)) : Prop where
  apart : (slots.map Slot.position).Nodup
  pending : ∀ s ∈ slots, s.placed = false →
    s.pending = (slots.countP (waitsFor types info s) : Nat)

theorem counted_slots (clauses : List α) : Counted types info (slots types info clauses) := by
  constructor
  · have hpositions : (slots types info clauses).map Slot.position = List.range clauses.length := by
      rw [slots, List.map_map, List.range_eq_range', ← List.zipIdx_map_snd]
      rfl
    rw [hpositions]
    exact List.nodup_range
  · intro s hs _
    obtain ⟨⟨a, i⟩, -, rfl⟩ := List.mem_map.mp hs
    dsimp only
    rw [slots, List.countP_map]
    rfl

theorem waiting_slots (clauses : List α) :
    (waiting (slots types info clauses)).map Slot.clause = clauses := by
  have hall : waiting (slots types info clauses) = slots types info clauses := by
    refine List.filter_eq_self.mpr fun s hs => ?_
    obtain ⟨⟨a, i⟩, -, rfl⟩ := List.mem_map.mp hs
    rfl
  rw [hall, slots, List.map_map]
  exact List.zipIdx_map_fst 0 clauses

end Counts

section After

variable {types : TypeHierarchy} {info : α → Handler} {first s : Slot α}

@[simp] theorem position_after : (s.after types info first).position = s.position := by
  unfold Slot.after
  split
  · rfl
  · split <;> rfl

@[simp] theorem clause_after : (s.after types info first).clause = s.clause := by
  unfold Slot.after
  split
  · rfl
  · split <;> rfl

@[simp] theorem placed_after : (s.after types info first).placed =
    (s.placed || decide (s.position = first.position)) := by
  unfold Slot.after
  split
  · rename_i heq
    simp [heq]
  · rename_i hne
    split <;> simp [hne]

/-- A slot waits for those that are left of those that it waited for before. -/
theorem waitsFor_after {t : Slot α} :
    waitsFor types info (s.after types info first) (t.after types info first) =
      (waitsFor types info s t && decide (t.position ≠ first.position)) := by
  simp only [waitsFor, position_after, clause_after, placed_after, Bool.not_or, decide_not]
  cases t.placed <;> cases decide (t.position = first.position) <;> simp

theorem pending_after (hs : s.placed = false) (hne : s.position ≠ first.position) :
    (s.after types info first).pending =
      s.pending - (if precedes types info first.clause s.clause then 1 else 0) := by
  rw [Slot.after, if_neg hne, hs]
  split <;> simp_all

/-- Those that are left are the others that were left before. -/
theorem waiting_map_after (slots : List (Slot α)) :
    (waiting (slots.map (·.after types info first))).map Slot.clause =
      ((waiting slots).filter fun t => decide (t.position ≠ first.position)).map Slot.clause := by
  rw [waiting, List.filter_map, List.map_map, waiting, List.filter_filter]
  have hclause : (Slot.clause ∘ fun s : Slot α => s.after types info first) = Slot.clause :=
    funext fun _ => clause_after
  rw [hclause]
  refine congrArg _ (List.filter_congr fun s _ => ?_)
  simp [Bool.and_comm]

end After

section Apart

variable {types : TypeHierarchy} {info : α → Handler} {slots pre post : List (Slot α)}
  {first s t : Slot α}

/-- Where positions tell the slots apart, all others have other positions. -/
theorem position_ne_of_split (hapart : ((pre ++ s :: post).map Slot.position).Nodup)
    (ht : t ∈ pre ++ post) : t.position ≠ s.position := by
  rw [List.map_append, List.map_cons, List.nodup_middle, ← List.map_append] at hapart
  exact fun heq => (List.nodup_cons.mp hapart).1 (heq ▸ List.mem_map_of_mem ht)

/-- Of the slots that `s` waits for, `first` alone may be gone when `first` has its place. -/
theorem countP_waitsFor (hapart : (slots.map Slot.position).Nodup) (hfirst : first ∈ waiting slots)
    (hne : s.position ≠ first.position) : slots.countP (waitsFor types info s) =
      slots.countP (fun t => waitsFor types info s t && decide (t.position ≠ first.position)) +
        if precedes types info first.clause s.clause then 1 else 0 := by
  obtain ⟨hmem, hplaced⟩ := mem_waiting.mp hfirst
  obtain ⟨pre, post, rfl⟩ := List.append_of_mem hmem
  have hothers : (pre ++ post).countP (fun t => waitsFor types info s t &&
      decide (t.position ≠ first.position)) = (pre ++ post).countP (waitsFor types info s) := by
    refine List.countP_congr fun t ht => ?_
    simp [position_ne_of_split hapart ht]
  have hself : waitsFor types info s first = precedes types info first.clause s.clause := by
    simp [waitsFor, hplaced, Ne.symm hne]
  rw [List.perm_middle.countP_eq, List.perm_middle.countP_eq, List.countP_cons, List.countP_cons,
    hothers, hself]
  simp

end Apart

namespace Counted

variable {types : TypeHierarchy} {info : α → Handler} {slots pre post : List (Slot α)}
  {first s t : Slot α}

theorem mem_others_iff (h : Counted types info slots) (hsplit : waiting slots = pre ++ s :: post) :
    t ∈ pre ++ post ↔ t ∈ waiting slots ∧ t.position ≠ s.position := by
  have hapart : ((waiting slots).map Slot.position).Nodup :=
    h.apart.sublist (List.filter_sublist.map _)
  rw [hsplit] at hapart ⊢
  constructor
  · intro ht
    exact ⟨List.perm_middle.mem_iff.mpr (List.mem_cons_of_mem s ht),
      position_ne_of_split hapart ht⟩
  · rintro ⟨ht, hne⟩
    rcases List.mem_cons.mp (List.perm_middle.mem_iff.mp ht) with rfl | ht
    · exact absurd rfl hne
    · exact ht

/-- One of the slots that are left gets its place, and the counts stay right. -/
theorem after (h : Counted types info slots) (hfirst : first ∈ waiting slots) :
    Counted types info (slots.map (·.after types info first)) := by
  have hpositions : (slots.map (·.after types info first)).map Slot.position =
      slots.map Slot.position := by
    rw [List.map_map]
    exact List.map_congr_left fun _ _ => position_after
  refine ⟨hpositions ▸ h.apart, fun u hu hleft => ?_⟩
  obtain ⟨s, hs, rfl⟩ := List.mem_map.mp hu
  rw [placed_after, Bool.or_eq_false_iff, decide_eq_false_iff_not] at hleft
  obtain ⟨hs', hne⟩ := hleft
  have hnow : slots.countP (waitsFor types info (s.after types info first) ∘
      fun t => t.after types info first) =
      slots.countP fun t => waitsFor types info s t && decide (t.position ≠ first.position) :=
    List.countP_congr fun t _ => by rw [Function.comp_apply, waitsFor_after]
  rw [pending_after hs' hne, h.pending s hs hs', List.countP_map, hnow,
    countP_waitsFor h.apart hfirst hne]
  split <;> simp

end Counted

section Arrange

variable [DecidableEq α] (types : TypeHierarchy) (info : α → Handler)

/-- None of the others of `rest` has to come before `a`. -/
def isReady (rest : List α) (a : α) : Bool :=
  !(rest.erase a).any fun b => precedes types info b a

/-- The clause of `x :: xs` that is placed next, found by a look at all of them. -/
def choice (x : α) (xs : List α) : α :=
  let mark := fun a => (a, isReady types info (x :: xs) a)
  (leastBy (before info) (mark x) (xs.map mark)).1

/-- The clauses placed one after the other without counts, as many as `fuel` says. -/
def arrange : Nat → List α → List α
  | 0, _ => []
  | _ + 1, [] => []
  | fuel + 1, x :: xs =>
    let first := choice types info x xs
    first :: arrange fuel ((x :: xs).erase first)

theorem isReady_perm {rest rest' : List α} (hperm : rest.Perm rest') (a : α) :
    isReady types info rest a = isReady types info rest' a := by
  rw [isReady, isReady, (hperm.erase a).any_eq]

/-- The clause that is placed next, marked as it is looked at. -/
theorem choice_spec (x : α) (xs : List α) :
    choice types info x xs ∈ x :: xs ∧ ∀ b ∈ x :: xs,
      before info (b, isReady types info (x :: xs) b)
        (choice types info x xs, isReady types info (x :: xs) (choice types info x xs)) =
          false := by
  let mark := fun a => (a, isReady types info (x :: xs) a)
  have hleast : leastBy (before info) (mark x) (xs.map mark) ∈ (x :: xs).map mark :=
    leastBy_mem _ _ _
  obtain ⟨a, ha, heq⟩ := List.mem_map.mp hleast
  have hchoice : choice types info x xs = a := congrArg Prod.fst heq.symm
  rw [hchoice]
  refine ⟨ha, fun b hb => ?_⟩
  have hnot : before info (mark b) (leastBy (before info) (mark x) (xs.map mark)) = false :=
    leastBy_least before_self before_trans _ _ _ (List.mem_map_of_mem (f := mark) hb)
  rwa [← heq] at hnot

theorem choice_mem (x : α) (xs : List α) : choice types info x xs ∈ x :: xs :=
  (choice_spec types info x xs).1

theorem length_erase_choice {x : α} {xs : List α} {fuel : Nat}
    (hfuel : (x :: xs).length ≤ fuel + 1) :
    ((x :: xs).erase (choice types info x xs)).length ≤ fuel := by
  rw [List.length_erase_of_mem (choice_mem types info x xs)]
  exact Nat.sub_le_of_le_add hfuel

theorem arrange_perm (fuel : Nat) (clauses : List α) (hfuel : clauses.length ≤ fuel) :
    (arrange types info fuel clauses).Perm clauses := by
  induction fuel generalizing clauses with
  | zero =>
    rw [List.length_eq_zero_iff.mp (Nat.le_zero.mp hfuel)]
    exact .refl _
  | succ fuel ih =>
    cases clauses with
    | nil => exact .refl _
    | cons x xs =>
      have hmem := choice_mem types info x xs
      have hlength := length_erase_choice types info hfuel
      exact ((ih _ hlength).cons _).trans (List.perm_cons_erase hmem).symm

end Arrange

namespace Counted

variable [DecidableEq α] {types : TypeHierarchy} {info : α → Handler} {slots : List (Slot α)}
  {s : Slot α}

/-- A count is zero exactly when no other clause that is left has to come first. -/
theorem pending_eq_zero_iff (h : Counted types info slots) (hs : s ∈ waiting slots) :
    s.pending = 0 ↔ isReady types info ((waiting slots).map Slot.clause) s.clause = true := by
  obtain ⟨hmem, hplaced⟩ := mem_waiting.mp hs
  obtain ⟨pre, post, hsplit⟩ := List.append_of_mem hs
  have hothers : (((waiting slots).map Slot.clause).erase s.clause).Perm
      ((pre ++ post).map Slot.clause) := by
    rw [hsplit]
    have hmiddle : (pre ++ s :: post).Perm (s :: (pre ++ post)) := List.perm_middle
    have hperm := (hmiddle.map Slot.clause).erase s.clause
    rwa [List.map_cons, List.erase_cons_head] at hperm
  rw [h.pending s hmem hplaced, isReady, hothers.any_eq, Bool.not_eq_true', List.any_eq_false,
    Int.natCast_eq_zero, List.countP_eq_zero]
  constructor
  · intro hnone b hb hprecedes
    obtain ⟨t, ht, rfl⟩ := List.mem_map.mp hb
    obtain ⟨htw, hne⟩ := (h.mem_others_iff hsplit).mp ht
    obtain ⟨hts, hleft⟩ := mem_waiting.mp htw
    exact hnone t hts (by simp [waitsFor, hleft, hne, hprecedes])
  · intro hnone t hts hwaits
    simp only [waitsFor, Bool.and_eq_true, Bool.not_eq_true', decide_eq_true_eq] at hwaits
    obtain ⟨⟨hleft, hne⟩, hprecedes⟩ := hwaits
    have ht := (h.mem_others_iff hsplit).mpr ⟨mem_waiting.mpr ⟨hts, hleft⟩, hne⟩
    exact hnone t.clause (List.mem_map_of_mem ht) hprecedes

theorem mark_eq (h : Counted types info slots) (hs : s ∈ waiting slots) :
    s.mark = (s.clause, isReady types info ((waiting slots).map Slot.clause) s.clause) := by
  refine Prod.ext rfl (Bool.eq_iff_iff.mpr ?_)
  rw [← h.pending_eq_zero_iff hs]
  exact decide_eq_true_iff

/-- The slot that is placed next holds the clause that a look at all clauses finds, and it is the
first one that does. -/
theorem next_eq (h : Counted types info slots) {rest : List (Slot α)}
    (hs : waiting slots = s :: rest) :
    ∃ first, next info slots = some first ∧ first ∈ waiting slots ∧
      first.clause = choice types info s.clause (rest.map Slot.clause) ∧
      ((waiting slots).filter fun t => decide (t.position ≠ first.position)).map Slot.clause =
        ((waiting slots).map Slot.clause).erase first.clause := by
  have hmem : leastBy (sooner info) s rest ∈ waiting slots := hs ▸ leastBy_mem _ _ _
  refine ⟨_, next_eq_some info hs, hmem, ?_, ?_⟩
  · have hmarks : rest.map Slot.mark = (rest.map Slot.clause).map fun a =>
        (a, isReady types info ((waiting slots).map Slot.clause) a) := by
      rw [List.map_map]
      exact List.map_congr_left fun t ht => h.mark_eq (hs ▸ List.mem_cons_of_mem s ht)
    have hleast := leastBy_map (before info) Slot.mark s rest
    rw [hmarks, h.mark_eq (hs ▸ List.mem_cons_self), hs, List.map_cons] at hleast
    exact congrArg Prod.fst hleast.symm
  · obtain ⟨pre, post, hsplit, hpre⟩ := @leastBy_split _ (sooner info)
      (fun a b c => before_trans a.mark b.mark c.mark)
      (fun a b c => before_of_not_before a.mark b.mark c.mark) s rest
    generalize leastBy (sooner info) s rest = first at hmem hsplit hpre ⊢
    rw [← hs] at hsplit
    -- A slot in front with the same clause would be placed first.
    have hnot : first.clause ∉ pre.map Slot.clause := by
      intro hin
      obtain ⟨t, ht, heq⟩ := List.mem_map.mp hin
      have htw : t ∈ waiting slots := hsplit ▸ List.mem_append_left _ ht
      have hbefore := hpre t ht
      rw [sooner, h.mark_eq hmem, h.mark_eq htw, heq, before_self] at hbefore
      cases hbefore
    have hothers : ((waiting slots).filter fun t => decide (t.position ≠ first.position)) =
        pre ++ post := by
      have hkeep : ∀ t ∈ pre ++ post, decide (t.position ≠ first.position) = true := fun t ht =>
        decide_eq_true ((h.mem_others_iff hsplit).mp ht).2
      rw [hsplit, List.filter_append, List.filter_cons_of_neg (by simp),
        List.filter_eq_self.mpr fun t ht => hkeep t (List.mem_append_left _ ht),
        List.filter_eq_self.mpr fun t ht => hkeep t (List.mem_append_right _ ht)]
    rw [hothers, hsplit, List.map_append, List.map_append, List.map_cons,
      List.erase_append_right _ hnot, List.erase_cons_head]

/-- Placing by counts is placing by a look at all clauses that are left. -/
theorem place_eq (h : Counted types info slots) (count : Nat) :
    place types info count slots =
      arrange types info count ((waiting slots).map Slot.clause) := by
  induction count generalizing slots with
  | zero => rfl
  | succ count ih =>
    rw [place]
    cases hs : waiting slots with
    | nil =>
      rw [next_eq_none info hs]
      rfl
    | cons s rest =>
      obtain ⟨first, hnext, hmem, hclause, hrest⟩ := h.next_eq hs
      rw [hnext]
      dsimp only
      rw [ih (h.after hmem), waiting_map_after, hrest, hclause, hs]
      rfl

end Counted

section Order

variable (types : TypeHierarchy) (info : α → Handler)

/-- The clauses that name every class they catch. -/
def typed (clauses : List α) : List α := clauses.filter fun a => !(info a).catchesAll

/-- The clauses that catch everything. -/
def general (clauses : List α) : List α := clauses.filter fun a => (info a).catchesAll

theorem mem_typed {info : α → Handler} {clauses : List α} {a : α} :
    a ∈ typed info clauses ↔ a ∈ clauses ∧ (info a).catchesAll = false := by
  simp [typed]

theorem mem_general {info : α → Handler} {clauses : List α} {a : α} :
    a ∈ general info clauses ↔ a ∈ clauses ∧ (info a).catchesAll = true := by
  simp [general]

variable [DecidableEq α]

theorem order_eq (clauses : List α) : order types info clauses =
    arrange types info (typed info clauses).length (typed info clauses) ++
      general info clauses := by
  rw [order, (counted_slots types info _).place_eq, waiting_slots]
  rfl

theorem order_perm (clauses : List α) : (order types info clauses).Perm clauses := by
  have htyped := arrange_perm types info _ (typed info clauses) (Nat.le_refl _)
  rw [order_eq]
  refine (htyped.append_right _).trans (List.perm_append_comm.trans ?_)
  exact List.filter_append_perm (fun a => (info a).catchesAll) clauses

end Order

end ClauseOrder

end TryRegions
