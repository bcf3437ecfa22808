import TryRegions.Proofs.Dominance.Queries
import TryRegions.Proofs.Graph.Distance

/-! Questions about paths over clean edges are answered exactly. A search finds its target just if
clean edges lead there from its start, cycles or not, so the top and the bottom of a list are what
the paths between its blocks say. -/

namespace TryRegions

/-- `found` is the first listed block with the property, and there is none just if no listed block
has it. -/
structure FirstWith (P : BlockId → Prop) (blocks : List BlockId) (found : Option BlockId) :
    Prop where
  some_iff : ∀ b, found = some b ↔
    ∃ before after, blocks = before ++ b :: after ∧ P b ∧ ∀ c ∈ before, ¬P c
  none_iff : found = none ↔ ¬∃ b ∈ blocks, P b

theorem FirstWith.of_find? {P : BlockId → Prop} {blocks : List BlockId} {q : BlockId → Bool}
    (h : ∀ b ∈ blocks, q b = true ↔ P b) : FirstWith P blocks (blocks.find? q) where
  some_iff b := by
    rw [List.find?_eq_some_iff_append]
    constructor
    · rintro ⟨hb, before, after, rfl, hbefore⟩
      refine ⟨before, after, rfl, (h b (by simp)).mp hb, fun c hc hP => ?_⟩
      have hq := (h c (List.mem_append_left _ hc)).mpr hP
      have hnot := hbefore c hc
      rw [hq] at hnot
      cases hnot
    · rintro ⟨before, after, rfl, hb, hbefore⟩
      refine ⟨(h b (by simp)).mpr hb, before, after, rfl, fun c hc => ?_⟩
      have hq : q c ≠ true := fun hq => hbefore c hc ((h c (List.mem_append_left _ hc)).mp hq)
      rw [Bool.eq_false_iff.mpr hq]
      rfl
  none_iff := by
    rw [List.find?_eq_none]
    constructor
    · rintro hnone ⟨b, hb, hP⟩
      exact hnone b hb ((h b hb).mpr hP)
    · intro hnone b hb hq
      exact hnone ⟨b, hb, (h b hb).mp hq⟩

section Search

variable {next : BlockId → List BlockId} {target b : BlockId} {size fuel : Nat}
  {visited queue : List BlockId}

/-- The most blocks that a search can still take from its queue: those that are queued, and those
that the blocks it has not visited would queue. -/
def searchLoad (next : BlockId → List BlockId) (size : Nat) (visited queue : List BlockId) : Nat :=
  queue.length + (((List.range size).filter fun b => decide (b ∉ visited)).flatMap next).length

theorem searchLoad_visit (hb : b < size) (hnot : b ∉ visited) :
    searchLoad next size (b :: visited) (queue ++ next b) + 1 =
      searchLoad next size visited (b :: queue) := by
  have hmem : b ∈ (List.range size).filter fun c => decide (c ∉ visited) :=
    List.mem_filter.mpr ⟨List.mem_range.mpr hb, decide_eq_true hnot⟩
  have hnodup : ((List.range size).filter fun c => decide (c ∉ visited)).Nodup :=
    List.nodup_range.filter _
  have hrest : ((List.range size).filter fun c => decide (c ∉ visited)).erase b =
      (List.range size).filter fun c => decide (c ∉ b :: visited) := by
    rw [hnodup.erase_eq_filter, List.filter_filter]
    refine List.filter_congr fun c _ => ?_
    by_cases hc : c = b <;> simp [hc]
  have hperm := (List.perm_cons_erase hmem).flatMap_right next
  rw [hrest, List.flatMap_cons] at hperm
  have hlength := hperm.length_eq
  simp only [searchLoad, List.length_append, List.length_cons] at hlength ⊢
  omega

theorem searchLoad_skip : searchLoad next size visited queue + 1 =
    searchLoad next size visited (b :: queue) := by
  simp only [searchLoad, List.length_cons]
  omega

/-- A search that finds its target is led there from a block of its queue. -/
theorem exists_of_search (h : search next target fuel visited queue = true) :
    ∃ b ∈ queue, ∃ c, Relation.ReflTransGen (fun x y => y ∈ next x) b c ∧ target ∈ next c := by
  fun_induction search next target fuel visited queue with
  | case1 => cases h
  | case2 => cases h
  | case3 fuel visited b queue hvisited ih =>
    obtain ⟨a, ha, hpath⟩ := ih h
    exact ⟨a, List.mem_cons_of_mem b ha, hpath⟩
  | case4 fuel visited b queue hvisited htarget => exact ⟨b, List.mem_cons_self, b, .refl, htarget⟩
  | case5 fuel visited b queue hvisited htarget ih =>
    obtain ⟨a, ha, c, hpath, hc⟩ := ih h
    rcases List.mem_append.mp ha with ha | ha
    · exact ⟨a, List.mem_cons_of_mem b ha, c, hpath, hc⟩
    · exact ⟨b, List.mem_cons_self, c, .head ha hpath, hc⟩

/-- No visited block leads to the target, and what the visited blocks lead to is visited or
queued. -/
structure Explored (next : BlockId → List BlockId) (target : BlockId)
    (visited queue : List BlockId) : Prop where
  missed : ∀ b ∈ visited, target ∉ next b
  closed : ∀ b ∈ visited, ∀ c ∈ next b, c ∈ visited ∨ c ∈ queue

theorem Explored.skip (h : Explored next target visited (b :: queue)) (hb : b ∈ visited) :
    Explored next target visited queue where
  missed := h.missed
  closed a ha c hc := by
    rcases h.closed a ha c hc with hc | hc
    · exact Or.inl hc
    · rcases List.mem_cons.mp hc with rfl | hc
      · exact Or.inl hb
      · exact Or.inr hc

theorem Explored.visit (h : Explored next target visited (b :: queue)) (hb : target ∉ next b) :
    Explored next target (b :: visited) (queue ++ next b) where
  missed := List.forall_mem_cons.mpr ⟨hb, h.missed⟩
  closed := by
    refine List.forall_mem_cons.mpr ⟨fun c hc => Or.inr (List.mem_append_right _ hc), ?_⟩
    intro a ha c hc
    rcases h.closed a ha c hc with hc | hc
    · exact Or.inl (List.mem_cons_of_mem b hc)
    · rcases List.mem_cons.mp hc with rfl | hc
      · exact Or.inl List.mem_cons_self
      · exact Or.inr (List.mem_append_left _ hc)

theorem Explored.not_mem (h : Explored next target visited []) {c : BlockId} (hb : b ∈ visited)
    (hpath : Relation.ReflTransGen (fun x y => y ∈ next x) b c) : target ∉ next c := by
  suffices hc : c ∈ visited from h.missed c hc
  induction hpath with
  | refl => exact hb
  | tail _ hc ih => exact (h.closed _ ih _ hc).resolve_right List.not_mem_nil

/-- A search that ends without its target has visited all that its queue leads to. -/
theorem not_mem_of_search (hnext : ∀ x, ∀ y ∈ next x, y < size)
    (hsearch : search next target fuel visited queue = false)
    (hexplored : Explored next target visited queue) (hqueue : ∀ b ∈ queue, b < size)
    (hfuel : searchLoad next size visited queue ≤ fuel) :
    ∀ b, b ∈ visited ∨ b ∈ queue → ∀ c, Relation.ReflTransGen (fun x y => y ∈ next x) b c →
      target ∉ next c := by
  fun_induction search next target fuel visited queue with
  | case1 visited queue =>
    obtain rfl : queue = [] := by
      rw [searchLoad] at hfuel
      exact List.length_eq_zero_iff.mp (by omega)
    exact fun b hb c => hexplored.not_mem (hb.resolve_right List.not_mem_nil)
  | case2 fuel visited =>
    exact fun b hb c => hexplored.not_mem (hb.resolve_right List.not_mem_nil)
  | case3 fuel visited b queue hvisited ih =>
    rw [← searchLoad_skip] at hfuel
    have hrest := ih hsearch (hexplored.skip hvisited)
      (fun c hc => hqueue c (List.mem_cons_of_mem b hc)) (Nat.le_of_succ_le_succ hfuel)
    intro a ha
    refine hrest a (ha.elim Or.inl fun ha => ?_)
    rcases List.mem_cons.mp ha with rfl | ha
    · exact Or.inl hvisited
    · exact Or.inr ha
  | case4 => cases hsearch
  | case5 fuel visited b queue hvisited htarget ih =>
    rw [← searchLoad_visit (hqueue b List.mem_cons_self) hvisited] at hfuel
    have hqueue' : ∀ c ∈ queue ++ next b, c < size := by
      intro c hc
      rcases List.mem_append.mp hc with hc | hc
      · exact hqueue c (List.mem_cons_of_mem b hc)
      · exact hnext b c hc
    have hrest := ih hsearch (hexplored.visit htarget) hqueue' (Nat.le_of_succ_le_succ hfuel)
    intro a ha
    refine hrest a (ha.elim (fun ha => Or.inl (List.mem_cons_of_mem b ha)) fun ha => ?_)
    rcases List.mem_cons.mp ha with rfl | ha
    · exact Or.inl List.mem_cons_self
    · exact Or.inr (List.mem_append_left _ ha)

end Search

namespace Graph

/-- Clean edges lead from one block to the other, in no step if the two are the same. -/
def CleanPath (g : Graph) : BlockId → BlockId → Prop :=
  Relation.ReflTransGen fun x y => y ∈ g.clean x

section

variable {g : Graph} (hclean : ∀ a, ∀ b ∈ g.clean a, b < g.size) {a b : BlockId}
  {blocks : List BlockId} (hblocks : ∀ b ∈ blocks, b < g.size)
include hclean

/-- A search finds just the blocks that clean edges lead to. -/
theorem reaches_iff (ha : a < g.size) : g.reaches a b = true ↔ g.CleanPath a b := by
  simp only [reaches, Bool.or_eq_true, decide_eq_true_eq]
  constructor
  · rintro (rfl | hb | hsearch)
    · exact .refl
    · exact .single hb
    · obtain ⟨a', ha', c, hpath, hb⟩ := exists_of_search hsearch
      rw [List.mem_singleton.mp ha'] at hpath
      exact hpath.tail hb
  · intro h
    rcases h.cases_tail with rfl | ⟨c, hpath, hb⟩
    · exact Or.inl rfl
    · refine Or.inr (Or.inr (of_not_not fun hnot => ?_))
      have hexplored : Explored g.clean b [] [a] := ⟨by simp, by simp⟩
      have hfuel : searchLoad g.clean g.size [] [a] ≤ g.searchFuel := by
        simp [searchLoad, searchFuel, Nat.add_comm]
      exact not_mem_of_search hclean (eq_false_of_ne_true hnot) hexplored (by simpa using ha) hfuel
        a (Or.inr List.mem_cons_self) c hpath hb

include hblocks

theorem firstWith_top : FirstWith (fun b => ∀ c ∈ blocks, g.CleanPath b c) blocks
    (blocks.find? fun b => blocks.all fun c => g.reaches b c) := by
  refine .of_find? fun b hb => ?_
  simp only [List.all_eq_true, reaches_iff hclean (hblocks b hb)]

theorem firstWith_bottom : FirstWith (fun b => ∀ c ∈ blocks, g.CleanPath c b) blocks
    (blocks.find? fun b => blocks.all fun c => g.reaches c b) := by
  refine .of_find? fun b _ => ?_
  rw [List.all_eq_true]
  refine forall_congr' fun c => forall_congr' fun hc => ?_
  rw [reaches_iff hclean (hblocks c hc)]

end

/-- Path queries are exact for a graph whose clean edges lead to blocks that exist, and for all
blocks that exist: a path is said to exist just if zero or more clean edges lead from the one block
to the other, or from one of the given blocks. The top of a list is its first block that leads to
all of them, the bottom the first one that all of them lead to, and there is no top or no bottom
just if no block of the list is such. -/
theorem path_queries_exact (g : Graph) (hclean : ∀ a, ∀ b ∈ g.clean a, b < g.size) :
    (∀ a < g.size, ∀ b, ∃ answer, g.pathExists a b = .ok answer ∧
      (answer = true ↔ g.CleanPath a b)) ∧
    ∀ blocks : List BlockId, (∀ b ∈ blocks, b < g.size) →
      (∀ b, ∃ answer, g.anyPathExists blocks b = .ok answer ∧
        (answer = true ↔ ∃ a ∈ blocks, g.CleanPath a b)) ∧
      (∃ top, g.topBlock blocks = .ok top ∧
        FirstWith (fun b => ∀ c ∈ blocks, g.CleanPath b c) blocks top) ∧
      ∃ bottom, g.bottomBlock blocks = .ok bottom ∧
        FirstWith (fun b => ∀ c ∈ blocks, g.CleanPath c b) blocks bottom := by
  refine ⟨fun a ha b => ⟨_, pathExists_eq ha b, ?_⟩, fun blocks hblocks =>
    ⟨fun b => ⟨_, anyPathExists_eq hblocks b, ?_⟩, ⟨_, topBlock_eq hblocks,
      firstWith_top hclean hblocks⟩, _, bottomBlock_eq hblocks, firstWith_bottom hclean hblocks⟩⟩
  · exact reaches_iff hclean ha
  · rw [List.any_eq_true]
    refine exists_congr fun a => and_congr_right fun ha => ?_
    rw [reaches_iff hclean (hblocks a ha)]

/-- Block 0 leads to block 1, the blocks 1 and 2 lead to each other, block 2 leads to block 3 as
well, and block 4 to itself only. -/
def whirl : Graph :=
  ((((((((((({} : Graph).newBlock 0).newBlock 0).newBlock 0).newBlock 0).newBlock 0).addEdge 0
    1).addEdge 1 2).addEdge 2 1).addEdge 2 3).addEdge 4 4).refreshAll

/-- Both blocks of the cycle lead to all listed blocks, and the first one is the top; no block is
the top of a list that holds a block apart. -/
theorem path_queries_exact_whirl :
    (∀ a, ∀ b ∈ whirl.clean a, b < whirl.size) ∧
      whirl.topBlock [3, 2, 1] = .ok (some 2) ∧
      FirstWith (fun b => ∀ c ∈ [3, 2, 1], whirl.CleanPath b c) [3, 2, 1] (some 2) ∧
      whirl.bottomBlock [2, 3, 1] = .ok (some 3) ∧
      FirstWith (fun b => ∀ c ∈ [2, 3, 1], whirl.CleanPath c b) [2, 3, 1] (some 3) ∧
      whirl.topBlock [0, 4] = .ok none ∧ ¬(∃ b ∈ [0, 4], ∀ c ∈ [0, 4], whirl.CleanPath b c) ∧
      whirl.pathExists 1 3 = .ok true ∧ whirl.CleanPath 1 3 := by
  have hclean : ∀ a, ∀ b ∈ whirl.clean a, b < whirl.size := by
    have hall : ∀ a < whirl.size, ∀ b ∈ whirl.clean a, b < whirl.size := by decide +kernel
    exact fun a b hb => hall a (lt_of_mem_clean hb) b hb
  obtain ⟨hpath, hlists⟩ := path_queries_exact whirl hclean
  have htop : whirl.topBlock [3, 2, 1] = .ok (some 2) := by decide +kernel
  have hbottom : whirl.bottomBlock [2, 3, 1] = .ok (some 3) := by decide +kernel
  have hnone : whirl.topBlock [0, 4] = .ok none := by decide +kernel
  have hthere : whirl.pathExists 1 3 = .ok true := by decide +kernel
  obtain ⟨-, ⟨top, hok, hfirst⟩, -⟩ := hlists [3, 2, 1] (by decide +kernel)
  obtain rfl : some 2 = top := Except.ok.inj (htop.symm.trans hok)
  obtain ⟨-, -, bottom, hok', hfirst'⟩ := hlists [2, 3, 1] (by decide +kernel)
  obtain rfl : some 3 = bottom := Except.ok.inj (hbottom.symm.trans hok')
  obtain ⟨-, ⟨absent, hok'', hfirst''⟩, -⟩ := hlists [0, 4] (by decide +kernel)
  obtain rfl : none = absent := Except.ok.inj (hnone.symm.trans hok'')
  obtain ⟨answer, hanswer, hiff⟩ := hpath 1 (by decide +kernel) 3
  obtain rfl : true = answer := Except.ok.inj (hthere.symm.trans hanswer)
  exact ⟨hclean, htop, hfirst, hbottom, hfirst', hnone, hfirst''.none_iff.mp rfl, hthere,
    hiff.mp rfl⟩

end Graph

end TryRegions
