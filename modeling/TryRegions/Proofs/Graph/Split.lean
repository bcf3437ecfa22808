import Mathlib.Logic.Relation
import TryRegions.Proofs.Graph.Trace

/-! The split of a block is a subdivision of the edges to it. Each of them is turned to the new
block at its place in the list of its source, also where the source is the block itself, and paths
between the old blocks lead where they led. -/

namespace TryRegions

open Relation

/-- A way that may pass everywhere is a path of at least one edge. -/
theorem Route.iff_transGen {edge : BlockId → BlockId → Prop} {u v : BlockId} :
    Route edge (fun _ => True) u v ↔ TransGen edge u v := by
  constructor
  · intro h
    induction h with
    | edge h => exact .single h
    | via h _ _ ih => exact .head h ih
  · intro h
    induction h using TransGen.head_induction_on with
    | single h => exact .edge h
    | head h _ ih => exact .via h trivial ih

namespace Graph

variable {g : Graph} {b : BlockId}

/-! ### Edges turned one by one -/

/-- Where an edge to `c` leads when the edges to `old` are turned to `new`. -/
def retarget (old new c : BlockId) : BlockId := if c = old then new else c

theorem map_retarget_of_not_mem {old new : BlockId} {l : List BlockId} (h : old ∉ l) :
    l.map (retarget old new) = l := by
  have hsame : ∀ c ∈ l, retarget old new c = c := by
    intro c hc
    apply if_neg
    rintro rfl
    exact h hc
  exact (List.map_congr_left hsame).trans (List.map_id l)

/-- In a list without repetition there is one place to change. -/
theorem turn_eq_map {old new : BlockId} {l : List BlockId} (hl : l.Nodup) (hnew : new ∉ l) :
    turn l old new = l.map (retarget old new) := by
  rw [turn, if_neg hnew]
  clear hnew
  induction l with
  | nil => rfl
  | cons c l ih =>
    obtain ⟨hc, hl⟩ := List.nodup_cons.mp hl
    by_cases hold : c = old
    · subst hold
      simp [map_retarget_of_not_mem hc, retarget]
    · have hne : (old == c) = false := beq_eq_false_iff_ne.mpr (Ne.symm hold)
      simp [List.replace_cons, hne, ih hl, retarget, hold]

/-- `g'` is `g` with the edges from the blocks `ps` to `old` turned to `new`, and nothing else
changed. -/
structure Turned (g g' : Graph) (old new : BlockId) (ps : List BlockId) : Prop where
  clean : ∀ a, g'.clean a = g.clean a
  succs : ∀ a, g'.succs a = if a ∈ ps then (g.succs a).map (retarget old new) else g.succs a
  preds_old : g'.preds old = (g.preds old).filter fun a => decide (a ∉ ps)
  preds_new : g'.preds new = g.preds new ++ ps
  preds : ∀ c, c ≠ old → c ≠ new → g'.preds c = g.preds c

theorem redirect_turned (wf : g.WellFormed) {source old new : BlockId} (hold : old ∈ g.succs source)
    (hne : old ≠ new) (hnew : new < g.size) (hfresh : new ∉ g.succs source) :
    g.Turned (g.redirect source old new) old new [source] := by
  have hsource := lt_of_mem_succs hold
  constructor
  case clean => exact clean_redirect
  case succs =>
    intro a
    rw [succs_redirect]
    by_cases ha : a = source
    · subst ha
      simp [hsource, turn_eq_map (wf.succs_nodup a) hfresh]
    · simp [ha, Ne.symm ha]
  case preds_old =>
    rw [preds_redirect hne]
    simp only [Ne.symm hne, false_and, if_false, wf.succs_lt source old hold, and_self, if_true]
    rw [(wf.preds_nodup old).erase_eq_filter]
    apply List.filter_congr
    intro a _
    by_cases ha : a = source <;> simp [ha]
  case preds_new =>
    have hnot : source ∉ g.preds new := mt (wf.mirrored source new).mpr hfresh
    rw [preds_redirect hne]
    simp [hnew, insertNew, hnot]
  case preds =>
    intro c hc hc'
    rw [preds_redirect hne]
    simp [Ne.symm hc, Ne.symm hc']

theorem Turned.cons {g' g'' : Graph} {old new p : BlockId} {ps : List BlockId}
    (first : g.Turned g' old new [p]) (rest : g'.Turned g'' old new ps) (hp : p ∉ ps) :
    g.Turned g'' old new (p :: ps) := by
  constructor
  case clean =>
    intro a
    rw [rest.clean, first.clean]
  case succs =>
    intro a
    rw [rest.succs, first.succs]
    by_cases ha : a = p
    · subst ha
      simp [hp]
    · simp [ha]
  case preds_old =>
    rw [rest.preds_old, first.preds_old, List.filter_filter]
    apply List.filter_congr
    intro a _
    by_cases ha : a = p <;> simp [ha]
  case preds_new =>
    rw [rest.preds_new, first.preds_new, List.append_assoc]
    rfl
  case preds =>
    intro c hc hc'
    rw [rest.preds c hc hc', first.preds c hc hc']

/-- No edge is turned twice, so every one is there when it is its turn. -/
theorem foldl_redirect_turned (wf : g.WellFormed) {old new : BlockId} (hne : old ≠ new)
    (hnew : new < g.size) (ps : List BlockId) (hnodup : ps.Nodup)
    (hps : ∀ p ∈ ps, old ∈ g.succs p ∧ new ∉ g.succs p) :
    g.Turned (ps.foldl (fun h p => h.redirect p old new) g) old new ps := by
  induction ps generalizing g with
  | nil =>
    constructor <;> simp
  | cons p ps ih =>
    obtain ⟨hp, hnodup⟩ := List.nodup_cons.mp hnodup
    obtain ⟨hold, hfresh⟩ := hps p List.mem_cons_self
    have first := redirect_turned wf hold hne hnew hfresh
    refine first.cons (ih (wf.redirect hold hne hnew) ?_ hnodup fun q hq => ?_) hp
    · rwa [size_redirect]
    · have hqp : q ∉ [p] := by
        rw [List.mem_singleton]
        rintro rfl
        exact hp hq
      rw [first.succs, if_neg hqp]
      exact hps q (List.mem_cons_of_mem _ hq)

/-! ### The subdivision -/

/-- `g'` is `g` with the new block `n` put on the edges to `b`: it is the only block that leads to
`b`, and all that led to `b` leads to it instead. Nothing else is changed. -/
structure Subdivided (g g' : Graph) (b n : BlockId) : Prop where
  /-- There was no block of that number. -/
  fresh : g.size ≤ n
  size : g'.size = n + 1
  live : g'.live = g.live ++ [n]
  succs_new : g'.succs n = [b]
  preds_split : g'.preds b = [n]
  preds_new : g'.preds n = g.preds b
  /-- Edges to `b` are turned at their places, those of `b` to itself too. -/
  succs : ∀ a, a ≠ n → g'.succs a = (g.succs a).map fun c => if c = b then n else c
  preds : ∀ c, c ≠ b → c ≠ n → g'.preds c = g.preds c
  clean : ∀ a, g'.clean a = g.clean a
  core_new : g'.core n = some { offset := (g.block? b).elim 0 Block.offset }
  core : ∀ a, a ≠ n → g'.core a = g.core a
  /-- Old blocks are joined by a path of at least one edge just if they were. -/
  paths : ∀ u < g.size, ∀ v < g.size,
    (TransGen (fun a c => c ∈ g'.succs a) u v ↔ TransGen (fun a c => c ∈ g.succs a) u v)

section Split

variable (wf : g.WellFormed) (hb : b < g.size)
include wf hb

/-- What the split has done before it joins the new block to `b`. -/
theorem newBlock_turned (offset : Int) :
    (g.newBlock offset).Turned
      ((g.preds b).foldl (fun h p => h.redirect p b g.size) (g.newBlock offset)) b g.size
      (g.preds b) := by
  refine foldl_redirect_turned (wf.newBlock offset) (Nat.ne_of_lt hb) (by simp) (g.preds b)
    (wf.preds_nodup b) fun p hp => ?_
  rw [succs_newBlock]
  exact ⟨(wf.mirrored p b).mpr hp, fun h => Nat.lt_irrefl _ (wf.succs_lt p g.size h)⟩

theorem transGen_splitAbove_iff {u v : BlockId} (hu : u < g.size) (hv : v < g.size) :
    TransGen (fun a c => c ∈ (g.splitAbove b).succs a) u v ↔
      TransGen (fun a c => c ∈ g.succs a) u v := by
  calc TransGen (fun a c => c ∈ (g.splitAbove b).succs a) u v
      ↔ Route (fun a c => c ∈ (g.splitAbove b).succs a) (fun _ => True) u v :=
        Route.iff_transGen.symm
    _ ↔ Route (fun a c => c ∈ g.succs a) (fun _ => True) u v :=
        route_splitAbove_iff wf hb trivial (Nat.ne_of_lt hu) (Nat.ne_of_lt hv)
    _ ↔ TransGen (fun a c => c ∈ g.succs a) u v := Route.iff_transGen

theorem splitAbove_subdivided : g.Subdivided (g.splitAbove b) b g.size := by
  have turned := newBlock_turned wf hb ((g.block? b).elim 0 Block.offset)
  have hbn : b ≠ g.size := Nat.ne_of_lt hb
  have hnew : g.size ∉ g.preds b := fun h => Nat.lt_irrefl _ (wf.preds_lt h)
  have hempty : g.succs g.size = [] ∧ g.preds g.size = [] := by
    simp [succs, preds, block?_eq_none.mpr (Nat.le_refl g.size)]
  have hsize := size_splitAbove wf hb
  rw [splitAbove, size_addEdge] at hsize
  constructor
  case fresh => exact Nat.le_refl _
  case size => exact size_splitAbove wf hb
  case live => exact (splitAbove_rewired wf hb).live
  case succs_new =>
    rw [splitAbove, succs_addEdge, turned.succs, succs_newBlock, hempty.1]
    simp [hsize, hnew, insertNew]
  case preds_split =>
    have hgone : (g.preds b).filter (fun a => decide (a ∉ g.preds b)) = [] := by simp
    rw [splitAbove, preds_addEdge, turned.preds_old, preds_newBlock, hgone]
    simp [hsize, Nat.lt_succ_of_lt hb, insertNew]
  case preds_new =>
    rw [splitAbove, preds_addEdge, turned.preds_new, preds_newBlock, hempty.2]
    simp [hbn]
  case succs =>
    intro a ha
    rw [splitAbove, succs_addEdge, if_neg fun h => ha h.1.symm, turned.succs, succs_newBlock]
    split
    · rfl
    · rename_i hpred
      exact (map_retarget_of_not_mem (mt (wf.mirrored a b).mp hpred)).symm
  case preds =>
    intro c hc hc'
    rw [splitAbove, preds_addEdge, turned.preds c hc hc', preds_newBlock]
    simp [Ne.symm hc]
  case clean =>
    intro a
    rw [splitAbove, clean_addEdge, turned.clean, clean_newBlock]
  case core_new => rw [core_splitAbove wf hb, if_pos rfl]
  case core =>
    intro a ha
    rw [core_splitAbove wf hb, if_neg ha]
  case paths => exact fun u hu v hv => transGen_splitAbove_iff wf hb hu hv

end Split

/-- To split a block of a well-formed graph works, whatever leads to it, and subdivides the edges to
it. The number of the new block is the size of the graph before. -/
theorem splitTop_subdivides (g : Graph) (wf : g.WellFormed) (b : BlockId) (hb : b < g.size) :
    ∃ g', g.splitTop b = .ok g' ∧ g.Subdivided g' b g.size :=
  ⟨g.splitAbove b, splitTop_eq_ok.mpr ⟨hb, rfl⟩, splitAbove_subdivided wf hb⟩

/-- Block 2 leads to itself and to block 3. Block 1 leads to block 2, and block 0 to the blocks 1, 2
and 3. -/
def knotted : Graph :=
  ((((((((({} : Graph).newBlock 0).newBlock 0).newBlock 7).newBlock 0).addEdge 0 1).addEdge 0
    2).addEdge 0 3).addEdge 1 2 |>.addEdge 2 2).addEdge 2 3

theorem splitTop_subdivides_knotted :
    knotted.WellFormed ∧ 2 < knotted.size ∧ knotted.preds 2 = [0, 1, 2] ∧
      ∃ g', knotted.splitTop 2 = .ok g' ∧ knotted.Subdivided g' 2 4 ∧
        g'.succs 0 = [1, 4, 3] ∧ g'.succs 2 = [4, 3] ∧ g'.preds 4 = [0, 1, 2] := by
  have wf : knotted.WellFormed := by decide +kernel
  have hlt : 2 < knotted.size := by decide +kernel
  have hpreds : knotted.preds 2 = [0, 1, 2] := by decide +kernel
  obtain ⟨g', hsplit, sub⟩ := splitTop_subdivides knotted wf 2 hlt
  refine ⟨wf, hlt, hpreds, g', hsplit, sub, ?_, ?_, sub.preds_new.trans hpreds⟩
  · exact (sub.succs 0 (by decide +kernel)).trans (by decide +kernel)
  · exact (sub.succs 2 (by decide +kernel)).trans (by decide +kernel)

end Graph

end TryRegions
