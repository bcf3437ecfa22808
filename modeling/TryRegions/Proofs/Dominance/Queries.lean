import TryRegions.Dominance.Join
import TryRegions.Proofs.Dominance.Exact
import TryRegions.Proofs.Graph.Edits

/-! Questions about blocks that exist are answered, never refused, and the answers name blocks that
exist. -/

namespace TryRegions

section Except

variable {ε α : Type} {p : α → Except ε Bool} {q : α → Bool} {l : List α}

theorem mem_of_findM? {a : α} (h : l.findM? p = .ok (some a)) : a ∈ l := by
  induction l with
  | nil => cases h
  | cons b l ih =>
    rw [List.findM?] at h
    cases hb : p b with
    | error e =>
      rw [hb] at h
      cases h
    | ok r =>
      rw [hb] at h
      cases r with
      | true =>
        cases h
        exact List.mem_cons_self
      | false => exact List.mem_cons_of_mem b (ih h)

theorem findM?_eq_find? (h : ∀ a ∈ l, p a = .ok (q a)) : l.findM? p = .ok (l.find? q) := by
  induction l with
  | nil => rfl
  | cons a l ih =>
    have hrest := ih fun b hb => h b (List.mem_cons_of_mem a hb)
    rw [List.findM?, List.find?, h a List.mem_cons_self]
    cases q a with
    | true => rfl
    | false => exact hrest

theorem anyM_eq_any (h : ∀ a ∈ l, p a = .ok (q a)) : l.anyM p = .ok (l.any q) := by
  induction l with
  | nil => rfl
  | cons a l ih =>
    have hrest := ih fun b hb => h b (List.mem_cons_of_mem a hb)
    rw [List.anyM_cons, List.any_cons, h a List.mem_cons_self]
    cases q a with
    | true => rfl
    | false => exact hrest

theorem allM_eq_all (h : ∀ a ∈ l, p a = .ok (q a)) : l.allM p = .ok (l.all q) := by
  induction l with
  | nil => rfl
  | cons a l ih =>
    have hrest := ih fun b hb => h b (List.mem_cons_of_mem a hb)
    rw [List.allM_cons, List.all_cons, h a List.mem_cons_self]
    cases q a with
    | true => exact hrest
    | false => rfl

theorem anyM_eq_ok (h : ∀ a ∈ l, ∃ r, p a = .ok r) : ∃ r, l.anyM p = .ok r := by
  choose! q hq using h
  exact ⟨_, anyM_eq_any hq⟩

theorem allM_eq_ok (h : ∀ a ∈ l, ∃ r, p a = .ok r) : ∃ r, l.allM p = .ok r := by
  choose! q hq using h
  exact ⟨_, allM_eq_all hq⟩

end Except

theorem BlockId.eq_of_present? {b c : BlockId} (h : BlockId.present? b = some c) : b = c := by
  unfold BlockId.present? at h
  split at h
  · cases h
  · exact Option.some.inj h

namespace Graph

variable {g : Graph} {b : BlockId} {blocks : List BlockId}

theorem check_eq_ok (hb : b < g.size) : g.check b = .ok () := if_pos hb

/-- Whether a search over clean edges from `a` finds `b`. -/
def reaches (g : Graph) (a b : BlockId) : Bool :=
  decide (a = b) || (decide (b ∈ g.clean a) || search g.clean b g.searchFuel [] [a])

theorem reaches_self (g : Graph) (b : BlockId) : g.reaches b b = true := by simp [reaches]

theorem pathExists_eq (hb : b < g.size) (target : BlockId) :
    g.pathExists b target = .ok (g.reaches b target) := by
  unfold pathExists reaches
  by_cases heq : b = target
  · rw [if_pos heq, decide_eq_true heq]
    rfl
  · rw [if_neg heq, check_eq_ok hb, decide_eq_false heq]
    rfl

theorem anyPathExists_eq (h : ∀ b ∈ blocks, b < g.size) (target : BlockId) :
    g.anyPathExists blocks target = .ok (blocks.any fun b => g.reaches b target) :=
  anyM_eq_any fun b hb => pathExists_eq (h b hb) target

theorem mem_of_firstRelated {related : BlockId → BlockId → Except Fault Bool}
    (h : firstRelated related blocks = .ok (some b)) : b ∈ blocks := by
  unfold firstRelated at h
  split at h
  · cases h
    exact List.mem_cons_self
  · exact mem_of_findM? h

/-- That a block is not asked about itself changes nothing, if it is related to itself. -/
theorem firstRelated_eq {related : BlockId → BlockId → Except Fault Bool}
    {q : BlockId → BlockId → Bool} (hself : ∀ b, q b b = true)
    (h : ∀ b ∈ blocks, ∀ c ∈ blocks, related b c = .ok (q b c)) :
    firstRelated related blocks = .ok (blocks.find? fun b => blocks.all (q b)) := by
  unfold firstRelated
  split
  · simp [hself]
  · refine findM?_eq_find? fun b hb => allM_eq_all fun c hc => ?_
    by_cases heq : b = c
    · rw [if_pos heq, heq, hself]
    · rw [if_neg heq, h b hb c hc]

theorem topBlock_eq (h : ∀ b ∈ blocks, b < g.size) :
    g.topBlock blocks =
      .ok (blocks.find? fun b => blocks.all fun target => g.reaches b target) :=
  firstRelated_eq g.reaches_self fun b hb c _ => pathExists_eq (h b hb) c

theorem bottomBlock_eq (h : ∀ b ∈ blocks, b < g.size) :
    g.bottomBlock blocks =
      .ok (blocks.find? fun target => blocks.all fun b => g.reaches b target) :=
  firstRelated_eq g.reaches_self fun b _ c hc => pathExists_eq (h c hc) b

theorem of_firstWithFlags {f : BlockFlags} (h : g.firstWithFlags f blocks = .ok (some b)) :
    b ∈ blocks ∧ (g.flags b).hasAll f = true := by
  induction blocks with
  | nil => cases h
  | cons c cs ih =>
    rw [firstWithFlags] at h
    by_cases hc : c < g.size
    · rw [check_eq_ok hc] at h
      by_cases hf : (g.flags c).hasAll f = true
      · simp only [hf, bind, Except.bind, pure, Except.pure, if_true] at h
        cases h
        exact ⟨List.mem_cons_self, hf⟩
      · simp only [hf, bind, Except.bind, if_false, Bool.false_eq_true] at h
        exact ⟨List.mem_cons_of_mem c (ih h).1, (ih h).2⟩
    · simp only [check, hc, bind, Except.bind, if_false] at h
      cases h

theorem mem_of_firstWithFlags {f : BlockFlags} (h : g.firstWithFlags f blocks = .ok (some b)) :
    b ∈ blocks :=
  (of_firstWithFlags h).1

theorem firstWithFlags_eq_ok (f : BlockFlags) (h : ∀ b ∈ blocks, b < g.size) :
    ∃ r, g.firstWithFlags f blocks = .ok r ∧ ∀ b, r = some b → b ∈ blocks := by
  suffices hfound : ∃ r, g.firstWithFlags f blocks = .ok r by
    obtain ⟨r, hr⟩ := hfound
    exact ⟨r, hr, fun b hb => mem_of_firstWithFlags (hb ▸ hr)⟩
  induction blocks with
  | nil => exact ⟨none, rfl⟩
  | cons b bs ih =>
    obtain ⟨r, hr⟩ := ih fun c hc => h c (List.mem_cons_of_mem _ hc)
    rw [firstWithFlags, check_eq_ok (h b List.mem_cons_self)]
    by_cases hf : (g.flags b).hasAll f = true
    · exact ⟨some b, by simp [hf, bind, Except.bind, pure, Except.pure]⟩
    · exact ⟨r, by simp [hf, hr, bind, Except.bind]⟩

end Graph

namespace DomTree

/-- The frontiers of a tree are read off the joins: `y` is in the frontier of `x` exactly when the
ways up from the blocks that lead to `y` meet `x`. -/
theorem mem_frontier {g : Graph} {enter : Option BlockId} {x y : BlockId} :
    y ∈ (ofGraph g enter).frontier x ↔ (ofGraph g enter).isReachable x = true ∧ x < g.size ∧
      y < g.size ∧ y ∈ (ofGraph g enter).order ∧
        x ∈ Dominance.frontierOf g (ofGraph g enter).ranks (ofGraph g enter).parents y := by
  have hrow : (ofGraph g enter).frontiers[x]?.getD [] = if x < g.size then
      (List.range g.size).filter fun y => ((ofGraph g enter).order.map fun b =>
        (b, Dominance.frontierOf g (ofGraph g enter).ranks (ofGraph g enter).parents b)).any
          fun p => p.1 == y && decide (x ∈ p.2) else [] := by
    simp only [ofGraph, Array.getElem?_ofFn]
    split <;> rfl
  rw [frontier, hrow]
  by_cases hreachable : (ofGraph g enter).isReachable x = true
  · by_cases hx : x < g.size
    · simp [hreachable, hx]
    · simp [hreachable, hx]
  · simp [hreachable]

theorem frontier_ascending (g : Graph) (enter : Option BlockId) (x : BlockId) :
    ((ofGraph g enter).frontier x).Pairwise (· < ·) := by
  rw [frontier]
  split
  · simp only [ofGraph, Array.getElem?_ofFn]
    split
    · exact List.pairwise_lt_range.filter _
    · exact List.Pairwise.nil
  · exact List.Pairwise.nil

/-- The tree names only blocks below `n`. -/
structure Within (t : DomTree) (n : Nat) : Prop where
  dominators_lt : ∀ b, ∀ d ∈ t.dominators b, d < n
  frontier_lt : ∀ b, ∀ d ∈ t.frontier b, d < n

variable {t : DomTree} {n : Nat} {blocks : List BlockId}

theorem Within.mono {n' : Nat} (h : t.Within n) (hn : n ≤ n') : t.Within n' :=
  ⟨fun b d hd => Nat.lt_of_lt_of_le (h.dominators_lt b d hd) hn,
    fun b d hd => Nat.lt_of_lt_of_le (h.frontier_lt b d hd) hn⟩

theorem within_ofGraph {g : Graph} (wf : g.WellFormed) (enter : Option BlockId) :
    (ofGraph g enter).Within g.size := by
  constructor
  · intro b d hd
    have hdom := (Dominance.dominates_iff wf enter).mp (decide_eq_true hd)
    obtain ⟨⟨r, hr, blocks, path⟩, hall⟩ := hdom
    exact path.lt_of_mem (Graph.lt_of_isLive hr.1) wf.succs_lt d (hall r hr blocks path)
  · exact fun b d hd => (mem_frontier.mp hd).2.2.1

theorem Within.commonDominator_lt (h : t.Within n) {d : BlockId}
    (hd : t.commonDominator blocks = some d) : d < n := by
  cases blocks with
  | nil => cases hd
  | cons b bs => exact h.dominators_lt b d (List.mem_of_find?_eq_some hd)

/-- Blocks that one block dominates have a lowest common dominator. -/
theorem commonDominator_filter_ne_none (t : DomTree) (d : BlockId)
    (h : ¬(blocks.filter (t.dominates d)).isEmpty = true) :
    t.commonDominator (blocks.filter (t.dominates d)) ≠ none := by
  have hall : ∀ b ∈ blocks.filter (t.dominates d), t.dominates d b = true :=
    fun b hb => (List.mem_filter.mp hb).2
  cases hl : blocks.filter (t.dominates d) with
  | nil =>
    rw [hl] at h
    exact absurd rfl h
  | cons b bs =>
    rw [hl] at hall
    intro hnone
    have hd := of_decide_eq_true (hall b List.mem_cons_self)
    refine List.find?_eq_none.mp hnone d hd (List.all_eq_true.mpr fun x hx => ?_)
    exact hall x (List.mem_cons_of_mem _ hx)

theorem Within.commonFrontier_lt (h : t.Within n) : ∀ d ∈ t.commonFrontier blocks, d < n := by
  intro d hd
  unfold commonFrontier at hd
  split at hd
  · cases hd
  · exact h.frontier_lt _ d (List.mem_filter.mp hd).1

/-- The blocks that may be the closest join, ascending, with the sums of the distances to them. -/
def joins (g : Graph) (blocks among : List BlockId) : List (BlockId × Nat) :=
  (List.range g.size).filterMap fun b =>
    if b ∈ blocks || (!among.isEmpty && decide (b ∉ among)) then none
    else (totalDistance (blocks.map g.cleanDistances) b).map fun d => (b, d)

theorem mem_joins_iff {g : Graph} {among : List BlockId} {b : BlockId} {total : Nat} :
    (b, total) ∈ joins g blocks among ↔ b < g.size ∧ b ∉ blocks ∧ (among ≠ [] → b ∈ among) ∧
      totalDistance (blocks.map g.cleanDistances) b = some total := by
  rw [joins, List.mem_filterMap]
  constructor
  · rintro ⟨c, hc, hsome⟩
    split at hsome
    · cases hsome
    · rename_i hcond
      obtain ⟨d, hd, heq⟩ := Option.map_eq_some_iff.mp hsome
      cases heq
      simp only [Bool.or_eq_true, decide_eq_true_eq, Bool.and_eq_true, not_or, not_and,
        Bool.not_eq_true', List.isEmpty_eq_false_iff, not_not] at hcond
      exact ⟨List.mem_range.mp hc, hcond.1, hcond.2, hd⟩
  · rintro ⟨hb, hout, hamong, htotal⟩
    refine ⟨b, List.mem_range.mpr hb, ?_⟩
    rw [if_neg (by simpa using ⟨hout, hamong⟩), htotal]
    rfl

/-- The distances to `x` add up to less than those to `y`. -/
def closer (x y : BlockId × Nat) : Bool := decide (x.2 < y.2)

theorem closer_iff {x y : BlockId × Nat} : closer x y = true ↔ x.2 < y.2 := decide_eq_true_iff

theorem closer_eq_false_iff {x y : BlockId × Nat} : closer x y = false ↔ y.2 ≤ x.2 :=
  decide_eq_false_iff_not.trans Nat.not_lt

/-- The closest join is the first of the possible ones to which the distances are least. -/
theorem closestJoin_cases (g : Graph) (blocks among : List BlockId) :
    joins g blocks among = [] ∧ closestJoin g blocks among = none ∨
      ∃ j js, joins g blocks among = j :: js ∧
        closestJoin g blocks among = some (leastBy closer j js).1 := by
  simp only [closestJoin]
  split
  · rename_i hnil
    exact Or.inl ⟨hnil, rfl⟩
  · rename_i j js hcons
    exact Or.inr ⟨j, js, hcons, rfl⟩

/-- The closest join is a block that every search meets. -/
theorem of_closestJoin {g : Graph} {among : List BlockId} {d : BlockId}
    (hd : closestJoin g blocks among = some d) :
    d < g.size ∧ ∃ total, totalDistance (blocks.map g.cleanDistances) d = some total := by
  rcases closestJoin_cases g blocks among with ⟨-, hnone⟩ | ⟨j, js, hjs, hsome⟩
  · rw [hnone] at hd
    cases hd
  · have hmem := leastBy_mem closer j js
    rw [← hjs] at hmem
    obtain ⟨hlt, -, -, htotal⟩ := mem_joins_iff.mp hmem
    rw [hsome] at hd
    cases hd
    exact ⟨hlt, _, htotal⟩

theorem Within.pathCross_eq_ok {g : Graph} (h : t.Within g.size)
    (hblocks : ∀ b ∈ blocks, b < g.size) :
    ∃ r, t.pathCross g blocks = .ok r ∧ ∀ d, r = some d → d < g.size := by
  unfold pathCross
  split
  · exact ⟨none, rfl, fun _ hd => nomatch hd⟩
  · split
    · rename_i b hb
      refine ⟨some b, rfl, fun d hd => ?_⟩
      cases hd
      exact h.commonFrontier_lt b (by rw [hb]; exact List.mem_cons_self)
    · rw [if_pos (List.all_eq_true.mpr fun b hb => decide_eq_true (hblocks b hb))]
      exact ⟨_, rfl, fun d hd => (of_closestJoin hd).1⟩

/-- The blocks found are those that edges lead to over blocks which `d` dominates, each once and
without the one where the search starts. -/
theorem dominatedFrom_eq {g : Graph} (wf : g.WellFormed) (t : DomTree) (d : BlockId)
    {start : BlockId} (hstart : start < g.size) :
    ∃ l, t.dominatedFrom g d start = .ok l ∧ l.Nodup ∧ ∀ b, b ∈ l ↔ b ≠ start ∧
      Relation.ReflTransGen (fun a c => c ∈ g.succs a ∧ t.dominates d c = true) start b := by
  have hnext : ∀ a, ∀ c ∈ (g.succs a).filter (fun s => t.dominates d s), c < g.size :=
    fun a c hc => wf.succs_lt a c (List.mem_filter.mp hc).1
  obtain ⟨others, hothers, hnodup, hmem⟩ := Walk.entered_visit hnext hstart
  obtain ⟨hnot, hnodup⟩ := List.nodup_cons.mp hnodup
  simp only [List.mem_filter] at hmem
  refine ⟨others, ?_, hnodup, fun b => ?_⟩
  · exact (if_pos hstart).trans (congrArg (fun l => Except.ok (l.drop 1)) hothers)
  · rw [← hmem b, List.mem_cons]
    exact ⟨fun hb => ⟨fun heq => hnot (heq ▸ hb), Or.inr hb⟩, fun hb => hb.2.resolve_left hb.1⟩

theorem dominatedFrom_eq_ok {g : Graph} (wf : g.WellFormed) (t : DomTree) (d : BlockId)
    {b : BlockId} (hb : b < g.size) :
    ∃ l, t.dominatedFrom g d b = .ok l ∧
      ∀ c ∈ l, c < g.size ∧ (c = b ∨ t.dominates d c = true) := by
  obtain ⟨l, hl, -, hmem⟩ := dominatedFrom_eq wf t d hb
  refine ⟨l, hl, fun c hc => ?_⟩
  obtain ⟨hne, hreach⟩ := (hmem c).mp hc
  obtain ⟨p, -, hsucc, hdom⟩ := hreach.cases_tail.resolve_left hne
  exact ⟨wf.succs_lt p c hsucc, Or.inr hdom⟩

end DomTree

end TryRegions
