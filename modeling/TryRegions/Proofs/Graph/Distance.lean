import TryRegions.Graph.Path
import Mathlib.Data.List.Perm.Subperm
import Mathlib.Data.Nat.Find
import Mathlib.Logic.Relation

/-! Distances, and the breadth-first search that finds them. The queue of a search passes through
layers, the blocks at distance 0, 1, 2 and so on from where it starts. Distances leave no gaps, so
the search has met all that its start leads to when it comes to an empty layer. -/

namespace TryRegions

/-- `n` steps of `next` lead from `a` to `b`. -/
inductive Hops (next : BlockId → List BlockId) (a : BlockId) : Nat → BlockId → Prop
  | start : Hops next a 0 a
  | step {n : Nat} {b c : BlockId} : Hops next a n b → c ∈ next b → Hops next a (n + 1) c

/-- `n` steps of `next` lead from `a` to `b`, and fewer do not. -/
structure Distance (next : BlockId → List BlockId) (a : BlockId) (n : Nat) (b : BlockId) :
    Prop where
  hops : Hops next a n b
  least : ∀ m, Hops next a m b → n ≤ m

variable {next : BlockId → List BlockId} {a b c : BlockId} {n m : Nat}

theorem exists_hops_iff :
    (∃ n, Hops next a n b) ↔ Relation.ReflTransGen (fun x y => y ∈ next x) a b := by
  constructor
  · rintro ⟨n, hops⟩
    induction hops with
    | start => exact .refl
    | step _ hc ih => exact ih.tail hc
  · intro h
    induction h with
    | refl => exact ⟨0, .start⟩
    | tail _ hc ih =>
      obtain ⟨n, hops⟩ := ih
      exact ⟨n + 1, hops.step hc⟩

theorem Hops.exists_distance (hops : Hops next a n b) : ∃ m ≤ n, Distance next a m b := by
  classical
  have hsome : ∃ m, Hops next a m b := ⟨n, hops⟩
  exact ⟨Nat.find hsome, Nat.find_min' hsome hops, Nat.find_spec hsome,
    fun _ hm => Nat.find_min' hsome hm⟩

theorem exists_distance_iff :
    (∃ n, Distance next a n b) ↔ Relation.ReflTransGen (fun x y => y ∈ next x) a b := by
  rw [← exists_hops_iff]
  constructor
  · rintro ⟨n, h⟩
    exact ⟨n, h.hops⟩
  · rintro ⟨n, hops⟩
    obtain ⟨m, -, h⟩ := hops.exists_distance
    exact ⟨m, h⟩

theorem distance_zero_iff : Distance next a 0 b ↔ b = a := by
  constructor
  · intro h
    cases h.hops with
    | start => rfl
  · rintro rfl
    exact ⟨.start, fun m _ => Nat.zero_le m⟩

namespace Distance

theorem unique (h : Distance next a n b) (h' : Distance next a m b) : n = m :=
  Nat.le_antisymm (h.least m h'.hops) (h'.least n h.hops)

/-- One step before the end of a shortest way the distance is one less. -/
theorem exists_pred (h : Distance next a (n + 1) c) : ∃ b, Distance next a n b ∧ c ∈ next b := by
  cases h.hops with
  | @step _ b _ hops hc =>
    refine ⟨b, ⟨hops, fun m hm => ?_⟩, hc⟩
    have := h.least (m + 1) (hm.step hc)
    omega

/-- Distances leave no gaps. -/
theorem exists_nearer (h : Distance next a n b) (hm : m ≤ n) : ∃ c, Distance next a m c := by
  induction n generalizing b with
  | zero =>
    obtain rfl : m = 0 := by omega
    exact ⟨b, h⟩
  | succ n ih =>
    by_cases heq : m = n + 1
    · subst heq
      exact ⟨b, h⟩
    · obtain ⟨c, hc, -⟩ := h.exists_pred
      exact ih hc (by omega)

theorem succ_iff : Distance next a (n + 1) c ↔
    (∃ b, Distance next a n b ∧ c ∈ next b) ∧ ∀ m ≤ n, ¬Distance next a m c := by
  constructor
  · refine fun h => ⟨h.exists_pred, fun m hm h' => ?_⟩
    have := h.unique h'
    omega
  · rintro ⟨⟨b, hb, hc⟩, hnone⟩
    refine ⟨hb.hops.step hc, fun m hm => ?_⟩
    obtain ⟨k, hk, hdist⟩ := hm.exists_distance
    by_contra hlt
    exact hnone k (by omega) hdist

theorem target_lt {size : Nat} (hnext : ∀ x, ∀ y ∈ next x, y < size) (ha : a < size)
    (h : Distance next a n b) : b < size := by
  cases h.hops with
  | start => exact ha
  | step _ hb => exact hnext _ b hb

end Distance

namespace Survey

/-- A search in the middle of a layer. The blocks of `queue` are still to be taken, and those of
`new` have been met, each `level` steps away, since the layer was begun with `base`. -/
def between (base : List (BlockId × Nat)) (level : Nat) (queue new : List BlockId) : Survey :=
  { levels := base ++ new.map (·, level), queue := queue ++ new }

/-- The blocks that a layer leads to and that were not met before it, each once. -/
def following (next : BlockId → List BlockId) (base : List (BlockId × Nat))
    (layer : List BlockId) : List BlockId :=
  appendNew [] ((layer.flatMap next).filter fun b => decide (b ∉ base.map Prod.fst))

variable {base levels : List (BlockId × Nat)} {level fuel : Nat} {queue new layer : List BlockId}

theorem meet_between (base : List (BlockId × Nat)) (level : Nat) (queue new : List BlockId)
    (b : BlockId) : meet level (between base level queue new) b =
      between base level queue (if b ∈ base.map Prod.fst then new else insertNew new b) := by
  have hkeys : (between base level queue new).levels.map Prod.fst = base.map Prod.fst ++ new := by
    simp [between, Function.comp_def]
  rw [meet, hkeys]
  by_cases hbase : b ∈ base.map Prod.fst
  · rw [if_pos (List.mem_append_left _ hbase), if_pos hbase]
  · by_cases hnew : b ∈ new
    · rw [if_pos (List.mem_append_right _ hnew), if_neg hbase, insertNew, if_pos hnew]
    · have hneither : b ∉ base.map Prod.fst ++ new := fun h =>
        (List.mem_append.mp h).elim hbase hnew
      rw [if_neg hneither, if_neg hbase, insertNew, if_neg hnew]
      simp [between]

theorem foldl_meet_between (bs : List BlockId) (base : List (BlockId × Nat)) (level : Nat)
    (queue new : List BlockId) : bs.foldl (meet level) (between base level queue new) =
      between base level queue
        (appendNew new (bs.filter fun b => decide (b ∉ base.map Prod.fst))) := by
  induction bs generalizing new with
  | nil => rfl
  | cons b bs ih =>
    rw [List.foldl_cons, meet_between, ih]
    by_cases hbase : b ∈ base.map Prod.fst
    · rw [if_pos hbase, List.filter_cons_of_neg (by simpa using hbase)]
    · rw [if_neg hbase, List.filter_cons_of_pos (by simpa using hbase)]
      rfl

/-- The rest of a layer is taken from the queue, and what it leads to anew is queued. -/
theorem run_between (hlevel : ∀ b ∈ queue, base.lookup b = some level) :
    run next (queue.length + fuel) (between base (level + 1) queue new) =
      run next fuel (between base (level + 1) [] (appendNew new
        ((queue.flatMap next).filter fun b => decide (b ∉ base.map Prod.fst)))) := by
  induction queue generalizing new with
  | nil => simp [appendNew]
  | cons b queue ih =>
    have hfound : (base ++ new.map (·, level + 1)).lookup b = some level := by
      rw [List.lookup_append, hlevel b List.mem_cons_self]
      rfl
    have htake : run next (queue.length + fuel + 1) (between base (level + 1) (b :: queue) new) =
        run next (queue.length + fuel)
          ((next b).foldl (meet (level + 1)) (between base (level + 1) queue new)) := by
      simp only [between, List.cons_append, run, hfound, Option.getD_some]
    rw [List.length_cons, Nat.add_right_comm, htake, foldl_meet_between,
      ih fun c hc => hlevel c (List.mem_cons_of_mem b hc), List.flatMap_cons, List.filter_append]
    simp only [appendNew, List.foldl_append]

/-- The queue refines the layers: as many turns as a layer has blocks lead from it to the next
one. -/
theorem run_layer (hlevel : ∀ b ∈ layer, levels.lookup b = some level) :
    run next (layer.length + fuel) ⟨levels, layer⟩ =
      run next fuel ⟨levels ++ (following next levels layer).map (·, level + 1),
        following next levels layer⟩ := by
  simpa [between, following] using @run_between next levels level fuel layer [] hlevel

theorem run_of_queue_eq_nil (next : BlockId → List BlockId) (fuel : Nat)
    (levels : List (BlockId × Nat)) : run next fuel ⟨levels, []⟩ = levels := by
  cases fuel <;> rfl

/-- All blocks that the search has met or is to look at have the property. -/
structure All (P : BlockId → Prop) (s : Survey) : Prop where
  levels : ∀ x ∈ s.levels, P x.1
  queue : ∀ b ∈ s.queue, P b

theorem All.meet {P : BlockId → Prop} {s : Survey} (h : s.All P) (hb : P b) :
    (meet level s b).All P := by
  rw [Survey.meet]
  split
  · exact h
  · refine ⟨fun x hx => ?_, fun c hc => ?_⟩
    · rcases List.mem_append.mp hx with hx | hx
      · exact h.levels x hx
      · rwa [List.mem_singleton.mp hx]
    · rcases List.mem_append.mp hc with hc | hc
      · exact h.queue c hc
      · rwa [List.mem_singleton.mp hc]

theorem All.foldl_meet {P : BlockId → Prop} {s : Survey} (h : s.All P) {bs : List BlockId}
    (hbs : ∀ b ∈ bs, P b) : (bs.foldl (Survey.meet level) s).All P := by
  induction bs generalizing s with
  | nil => exact h
  | cons b bs ih =>
    exact ih (h.meet (hbs b List.mem_cons_self)) fun c hc => hbs c (List.mem_cons_of_mem b hc)

/-- What holds of the blocks that a search begins with and is handed on holds of all it meets. -/
theorem All.run {P : BlockId → Prop} (hnext : ∀ a, P a → ∀ b ∈ next a, P b) (fuel : Nat)
    {s : Survey} (h : s.All P) : ∀ x ∈ run next fuel s, P x.1 := by
  induction fuel generalizing s with
  | zero => exact h.levels
  | succ fuel ih =>
    rw [Survey.run]
    split
    · exact h.levels
    · rename_i b queue hqueue
      have hall := h.queue
      rw [hqueue] at hall
      have hrest : Survey.All P { s with queue } :=
        ⟨h.levels, fun c hc => hall c (List.mem_cons_of_mem b hc)⟩
      exact ih (hrest.foldl_meet (hnext b (hall b List.mem_cons_self)))

end Survey

theorem lookup_eq_some_iff_mem {l : List (BlockId × Nat)} (hnodup : (l.map Prod.fst).Nodup) :
    l.lookup b = some n ↔ (b, n) ∈ l := by
  induction l with
  | nil => simp
  | cons x l ih =>
    obtain ⟨c, m⟩ := x
    obtain ⟨hc, hl⟩ := List.nodup_cons.mp hnodup
    by_cases hb : b = c
    · subst hb
      have hnot : (b, n) ∉ l := fun h => hc (List.mem_map.mpr ⟨_, h, rfl⟩)
      simp [hnot, eq_comm]
    · have hne : (b == c) = false := beq_eq_false_iff_ne.mpr hb
      simp [List.lookup_cons, hne, hb, ih hl]

/-- The search is at the beginning of a layer: the blocks met are those at distance at most `k`, and
the layer is those at distance `k`. -/
structure AtLayer (next : BlockId → List BlockId) (a : BlockId) (k : Nat)
    (levels : List (BlockId × Nat)) (layer : List BlockId) : Prop where
  nodup : (levels.map Prod.fst).Nodup
  mem_levels : ∀ b n, (b, n) ∈ levels ↔ n ≤ k ∧ Distance next a n b
  mem_layer : ∀ b, b ∈ layer ↔ Distance next a k b

namespace AtLayer

variable {levels : List (BlockId × Nat)} {layer : List BlockId} {k : Nat}

theorem start (next : BlockId → List BlockId) (a : BlockId) :
    AtLayer next a 0 [(a, 0)] [a] where
  nodup := by simp
  mem_levels b n := by
    rw [List.mem_singleton, Prod.mk.injEq, Nat.le_zero]
    constructor
    · rintro ⟨rfl, rfl⟩
      exact ⟨rfl, distance_zero_iff.mpr rfl⟩
    · rintro ⟨rfl, h⟩
      exact ⟨distance_zero_iff.mp h, rfl⟩
  mem_layer b := by rw [List.mem_singleton, distance_zero_iff]

theorem mem_keys_iff (h : AtLayer next a k levels layer) :
    b ∈ levels.map Prod.fst ↔ ∃ n ≤ k, Distance next a n b := by
  simp [h.mem_levels]

theorem mem_following_iff (h : AtLayer next a k levels layer) :
    b ∈ Survey.following next levels layer ↔ Distance next a (k + 1) b := by
  rw [Survey.following, mem_appendNew, List.mem_filter, List.mem_flatMap, decide_eq_true_eq,
    h.mem_keys_iff, Distance.succ_iff]
  simp only [List.not_mem_nil, false_or, h.mem_layer, not_exists, not_and]

theorem following (h : AtLayer next a k levels layer) :
    AtLayer next a (k + 1) (levels ++ (Survey.following next levels layer).map (·, k + 1))
      (Survey.following next levels layer) where
  nodup := by
    have hkeys : ((Survey.following next levels layer).map (·, k + 1)).map Prod.fst =
        Survey.following next levels layer := by simp [Function.comp_def]
    rw [List.map_append, hkeys, List.nodup_append]
    refine ⟨h.nodup, nodup_appendNew List.nodup_nil _, fun b hb c hc heq => ?_⟩
    obtain ⟨n, hn, hdist⟩ := h.mem_keys_iff.mp hb
    have := hdist.unique (heq ▸ h.mem_following_iff.mp hc)
    omega
  mem_levels b n := by
    rw [List.mem_append, h.mem_levels, List.mem_map]
    constructor
    · rintro (⟨hn, hdist⟩ | ⟨c, hc, heq⟩)
      · exact ⟨by omega, hdist⟩
      · cases heq
        exact ⟨Nat.le_refl _, h.mem_following_iff.mp hc⟩
    · rintro ⟨hn, hdist⟩
      rcases Nat.lt_or_eq_of_le hn with hlt | rfl
      · exact Or.inl ⟨Nat.le_of_lt_succ hlt, hdist⟩
      · exact Or.inr ⟨b, h.mem_following_iff.mpr hdist, rfl⟩
  mem_layer _ := h.mem_following_iff

/-- No more blocks are met than there are to meet. -/
theorem length_le {met : List BlockId} (h : AtLayer next a k levels layer)
    (hmet : ∀ n b, Distance next a n b → b ∈ met) : levels.length ≤ met.length := by
  have hsub : levels.map Prod.fst ⊆ met := by
    intro b hb
    obtain ⟨n, -, hdist⟩ := h.mem_keys_iff.mp hb
    exact hmet n b hdist
  simpa using (h.nodup.subperm hsub).length_le

/-- With a turn for every block to meet, the search finds all distances. -/
theorem run {met : List BlockId} (hmet : ∀ n b, Distance next a n b → b ∈ met) (fuel : Nat)
    (h : AtLayer next a k levels layer)
    (hfuel : met.length + layer.length ≤ fuel + levels.length) :
    ((Survey.run next fuel ⟨levels, layer⟩).map Prod.fst).Nodup ∧
      ∀ b n, (b, n) ∈ Survey.run next fuel ⟨levels, layer⟩ ↔ Distance next a n b := by
  induction fuel using Nat.strong_induction_on generalizing k levels layer with
  | _ fuel ih =>
    by_cases hlayer : layer = []
    · subst hlayer
      rw [Survey.run_of_queue_eq_nil]
      refine ⟨h.nodup, fun b n => (h.mem_levels b n).trans ⟨And.right, fun hdist => ⟨?_, hdist⟩⟩⟩
      -- A block further away would have one at distance `k` on the way to it.
      by_contra hlt
      obtain ⟨c, hc⟩ := hdist.exists_nearer (Nat.le_of_not_le hlt)
      exact absurd ((h.mem_layer c).mpr hc) List.not_mem_nil
    · have hlevel : ∀ b ∈ layer, levels.lookup b = some k := fun b hb =>
        (lookup_eq_some_iff_mem h.nodup).mpr
          ((h.mem_levels b k).mpr ⟨Nat.le_refl k, (h.mem_layer b).mp hb⟩)
      have hmany := h.length_le hmet
      have hpos := List.length_pos_iff.mpr hlayer
      obtain ⟨rest, rfl⟩ := Nat.exists_eq_add_of_le (show layer.length ≤ fuel by omega)
      rw [Survey.run_layer hlevel]
      refine ih rest (by omega) h.following ?_
      rw [List.length_append, List.length_map]
      omega

end AtLayer

namespace Graph

variable {g : Graph}

/-- The search for clean edges finds distances, if these edges lead to blocks that exist. -/
theorem lookup_cleanDistances (hclean : ∀ x, ∀ y ∈ g.clean x, y < g.size) (ha : a < g.size) :
    (g.cleanDistances a).lookup b = some n ↔ b ≠ a ∧ Distance g.clean a n b := by
  have hmet : ∀ n b, Distance g.clean a n b → b ∈ a :: (List.range g.size).flatMap g.clean := by
    intro n b h
    cases n with
    | zero => simp [distance_zero_iff.mp h]
    | succ n =>
      obtain ⟨c, hc, hb⟩ := h.exists_pred
      refine List.mem_cons_of_mem a (List.mem_flatMap.mpr ⟨c, ?_, hb⟩)
      exact List.mem_range.mpr (hc.target_lt hclean ha)
  obtain ⟨hnodup, hmem⟩ := (AtLayer.start g.clean a).run hmet g.searchFuel (by simp [searchFuel])
  have hnodup' : ((g.cleanDistances a).map Prod.fst).Nodup :=
    hnodup.sublist (List.filter_sublist.map _)
  rw [lookup_eq_some_iff_mem hnodup', cleanDistances, List.mem_filter, hmem]
  simp [and_comm]

end Graph

end TryRegions
