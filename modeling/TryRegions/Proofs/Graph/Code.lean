import TryRegions.Proofs.Graph.Rewiring
import TryRegions.Proofs.Method.Edits

/-! The instructions of a block, and its code: the instructions without what is noted on them while
handlers are set up. Edits of the flow leave the instructions of every block alone, and a block that
is made has none. -/

namespace TryRegions

/-- The instruction without what is noted on it: the handler that starts at it, the variable that
its result is bound to with the type of that variable, and coverage that cannot be used. -/
def Instr.bare (i : Instr) : Instr :=
  { i with
    result := i.result.map fun r => { index := r.index }
    flags := { i.flags with dontInline := false }
    catches := if i.canThrow then i.catches else none
    entry := none
    binds := none }

theorem Instr.bare_dropIdleCoverage (i : Instr) : i.dropIdleCoverage.bare = i.bare := by
  unfold dropIdleCoverage
  split
  · rfl
  · rename_i h
    unfold bare
    rw [if_neg h, ite_self]

/-- What a block does, whatever is noted on its instructions. -/
def Block.code (k : Block) : List Instr := k.instrs.map Instr.bare

theorem Block.code_promoteCoverage (k : Block) : k.promoteCoverage.code = k.code := by
  have hdrop : (k.instrs.map Instr.dropIdleCoverage).map Instr.bare = k.code := by
    rw [List.map_map, Block.code]
    exact List.map_congr_left fun i _ => i.bare_dropIdleCoverage
  unfold promoteCoverage
  dsimp only
  split <;> exact hdrop

/-- One instruction changes in what is noted on it. -/
theorem Block.code_modifyInstr (k : Block) (n : Nat) {f : Instr → Instr}
    (hf : ∀ i, k.instrs[n]? = some i → (f i).bare = i.bare) :
    ({ k with instrs := k.instrs.modify n f } : Block).code = k.code := by
  refine List.ext_getElem? fun j => ?_
  rw [Block.code, Block.code, List.getElem?_map, List.getElem?_map, List.getElem?_modify]
  by_cases hj : n = j
  · subst hj
    cases hi : k.instrs[n]? with
    | none => rfl
    | some i => simpa using hf i hi
  · simp [hj]

namespace Graph

variable {g g' : Graph} {b : BlockId} {k : Block}

/-- What no step of a loop changes, the loop does not change. -/
theorem foldl_keeps {β : Type} (view : Graph → β) {step : Graph → BlockId → Graph}
    (hstep : ∀ g a, view (step g a) = view g) (l : List BlockId) (g : Graph) :
    view (l.foldl step g) = view g := by
  induction l generalizing g with
  | nil => rfl
  | cons a l ih => rw [List.foldl_cons, ih, hstep]

section Instrs

/-- The instructions of a block; none if there is no block of that number. -/
def instrs (g : Graph) (b : BlockId) : List Instr := (g.block? b).elim [] Block.instrs

theorem instrs_eq (hk : g.block? b = some k) : g.instrs b = k.instrs := by rw [instrs, hk]; rfl

theorem instrs_of_size_le (hb : g.size ≤ b) : g.instrs b = [] := by
  rw [instrs, block?_eq_none.mpr hb]
  rfl

theorem instrs_congr (h : (g'.block? b).map Block.instrs = (g.block? b).map Block.instrs) :
    g'.instrs b = g.instrs b := by
  have hview := congrArg (fun instrs => instrs.elim [] id) h
  rwa [Option.elim_map, Option.elim_map] at hview

theorem instrs_of_core (h : g'.core b = g.core b) : g'.instrs b = g.instrs b := by
  have hview := congrArg (Option.map Block.instrs) h
  rw [core, core, Option.map_map, Option.map_map] at hview
  exact instrs_congr hview

theorem instrs_modify (g : Graph) (b : BlockId) {f : Block → Block}
    (hf : ∀ k, (f k).instrs = k.instrs) (c : BlockId) : (g.modify b f).instrs c = g.instrs c :=
  instrs_congr (map_block?_modify Block.instrs g b c f hf)

/-- The instructions of one block are changed. -/
theorem instrs_modifyInstrs (g : Graph) (b c : BlockId) {f : List Instr → List Instr}
    (hf : f [] = []) : (g.modify b fun k => { k with instrs := f k.instrs }).instrs c =
      if c = b then f (g.instrs c) else g.instrs c := by
  rw [instrs, block?_modify, instrs]
  by_cases hc : c = b
  · subst hc
    rw [if_pos rfl, if_pos rfl]
    cases g.block? c with
    | none => exact hf.symm
    | some k => rfl
  · rw [if_neg (Ne.symm hc), if_neg hc]

theorem instrs_refreshAll (g : Graph) (b : BlockId) : g.refreshAll.instrs b = g.instrs b :=
  instrs_congr (map_block?_refreshAll Block.instrs (fun _ _ => rfl) g b)

theorem instrs_newBlock (g : Graph) (offset : Int) (b : BlockId) :
    (g.newBlock offset).instrs b = g.instrs b := by
  rw [instrs, block?_newBlock]
  split
  · rename_i hb
    rw [instrs_of_size_le (Nat.le_of_eq hb.symm)]
    rfl
  · rfl

theorem instrs_splitAbove (g : Graph) (b c : BlockId) :
    (g.splitAbove b).instrs c = g.instrs c := by
  rw [splitAbove, instrs_of_core (core_addEdge c),
    foldl_keeps (·.instrs c) fun g a => instrs_of_core (core_redirect c), instrs_newBlock]

theorem instrs_isolate (g : Graph) (b c : BlockId) : (g.isolate b).instrs c = g.instrs c := by
  rw [isolate, foldl_keeps (·.instrs c) fun g a => instrs_of_core (core_removeEdge c),
    foldl_keeps (·.instrs c) fun g a => instrs_of_core (core_removeEdge c)]

theorem instrs_detachMarked (g : Graph) (b : BlockId) :
    g.detachMarked.instrs b = g.instrs b := by
  unfold detachMarked
  dsimp only
  split
  · rfl
  · rw [instrs_of_core (core_bump _ b), foldl_keeps (·.instrs b) fun g a => g.instrs_isolate a b]
    exact foldl_keeps (·.instrs b) (fun g a => g.instrs_modify a (fun _ => by rfl) b) _ _

end Instrs

/-- The code of a block; none if there is no block of that number. -/
def code (g : Graph) (b : BlockId) : List Instr := (g.block? b).elim [] Block.code

theorem code_eq (hk : g.block? b = some k) : g.code b = k.code := by rw [code, hk]; rfl

theorem code_eq_map (g : Graph) (b : BlockId) : g.code b = (g.instrs b).map Instr.bare := by
  rw [code, instrs]
  cases g.block? b <;> rfl

theorem code_of_instrs (h : g'.instrs b = g.instrs b) : g'.code b = g.code b := by
  rw [code_eq_map, h, ← code_eq_map]

theorem code_of_size_le (hb : g.size ≤ b) : g.code b = [] := by
  rw [code_eq_map, instrs_of_size_le hb]
  rfl

theorem code_modify (g : Graph) (b : BlockId) {f : Block → Block}
    (hf : ∀ k, g.block? b = some k → (f k).code = k.code) (c : BlockId) :
    (g.modify b f).code c = g.code c := by
  rw [code, block?_modify, code]
  split
  · rename_i hc
    subst hc
    cases hk : g.block? b with
    | none => rfl
    | some k => exact hf k hk
  · rfl

end Graph

namespace Method

theorem instrs_modifyBinders (m : Method) (h : HandlerId) (f : Instr → Instr) (b : BlockId) :
    (m.modifyBinders h f).graph.instrs b =
      (m.graph.instrs b).map fun i => if i.binds = some h then f i else i := by
  have hblock := Graph.block?_mapBlocks m.graph
    (fun k => { k with instrs := k.instrs.map fun i => if i.binds = some h then f i else i }) b
  rw [Graph.instrs, Graph.instrs]
  refine (congrArg (fun k => k.elim [] Block.instrs) hblock).trans ?_
  cases m.graph.block? b <;> rfl

theorem code_modifyBinders (m : Method) (h : HandlerId) {f : Instr → Instr}
    (hf : ∀ i, (f i).bare = i.bare) (b : BlockId) :
    (m.modifyBinders h f).graph.code b = m.graph.code b := by
  rw [Graph.code_eq_map, instrs_modifyBinders, Graph.code_eq_map, List.map_map]
  refine List.map_congr_left fun i _ => ?_
  rw [Function.comp_apply]
  split
  · exact hf i
  · rfl

theorem code_addTypes (m : Method) (h : HandlerId) (types : List TypeName) (b : BlockId) :
    (m.addTypes h types).graph.code b = m.graph.code b := by
  refine code_modifyBinders _ h (fun i => ?_) b
  simp only [Instr.bare, Option.map_map]
  rfl

theorem instrs_markRemoved {m m' : Method} {h : HandlerId} (hmark : m.markRemoved h = .ok m')
    (b : BlockId) : m'.graph.instrs b = m.graph.instrs b := by
  obtain ⟨-, rfl⟩ := markRemoved_eq_ok.mp hmark
  exact Graph.foldl_keeps (·.instrs b) (fun g a => g.instrs_modify a (fun _ => by rfl) b) _ _

/-- The block that the handler starts in ends by binding the caught value to a register. -/
def Captures (m : Method) (h : HandlerId) : Prop :=
  ∃ e i, (m.handler h).entry = some e ∧ (m.graph.code e).getLast? = some i ∧
    i.opcode = .moveException ∧ i.result.isSome = true

theorem captures_iff {m : Method} {h : HandlerId} :
    m.Captures h ↔ ∃ e i, (m.handler h).entry = some e ∧
      (m.graph.instrs e).getLast? = some i ∧ i.opcode = .moveException ∧
        i.result.isSome = true := by
  simp [Captures, Graph.code_eq_map, List.getLast?_map, Instr.bare]

theorem captures_congr {m m' : Method} {h : HandlerId}
    (hentry : (m'.handler h).entry = (m.handler h).entry)
    (hcode : ∀ b, m'.graph.code b = m.graph.code b) : m'.Captures h ↔ m.Captures h := by
  unfold Captures
  simp only [hentry, hcode]

theorem Captures.isSome_entry {m : Method} {h : HandlerId} (hcaptures : m.Captures h) :
    (m.handler h).entry.isSome = true := by
  obtain ⟨e, -, he, -⟩ := hcaptures
  rw [he]
  rfl

end Method

end TryRegions
