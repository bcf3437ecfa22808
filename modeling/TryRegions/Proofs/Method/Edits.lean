import TryRegions.Method.Basic
import TryRegions.Proofs.Graph.Extension

/-! Reading a method after an edit of its handlers or of the instructions that bind their variables.
-/

namespace TryRegions

namespace Graph

/-- The graph with every block changed, live or not. -/
def mapBlocks (g : Graph) (f : Block → Block) : Graph := { g with blocks := g.blocks.map f }

theorem block?_mapBlocks (g : Graph) (f : Block → Block) (b : BlockId) :
    (g.mapBlocks f).block? b = (g.block? b).map f := by
  simp [mapBlocks, block?]

theorem map_block?_mapBlocks {β : Type} (view : Block → β) (g : Graph) (f : Block → Block)
    (hf : ∀ k, view (f k) = view k) (b : BlockId) :
    ((g.mapBlocks f).block? b).map view = (g.block? b).map view := by
  rw [block?_mapBlocks, Option.map_map]
  congr 1
  funext k
  exact hf k

theorem SameFlow.mapBlocks (g : Graph) (f : Block → Block)
    (hsuccs : ∀ k, (f k).succs = k.succs) (hpreds : ∀ k, (f k).preds = k.preds)
    (hdetached : ∀ k, (f k).detached = k.detached) : g.SameFlow (g.mapBlocks f) where
  size := Array.size_map
  live := rfl
  succs b := by
    rw [Graph.succs, Graph.succs, block?_mapBlocks]
    cases g.block? b with
    | none => rfl
    | some k => exact hsuccs k
  preds b := by
    rw [Graph.preds, Graph.preds, block?_mapBlocks]
    cases g.block? b with
    | none => rfl
    | some k => exact hpreds k
  isLive b := by
    rw [Graph.isLive, Graph.isLive, block?_mapBlocks]
    cases g.block? b with
    | none => rfl
    | some k =>
      show (!(f k).detached) = !k.detached
      rw [hdetached]

theorem clean_lt_mapBlocks {g : Graph} (hclean : ∀ a, ∀ b ∈ g.clean a, b < g.size)
    {f : Block → Block} (hf : ∀ k, (f k).clean = k.clean) :
    ∀ a, ∀ b ∈ (g.mapBlocks f).clean a, b < (g.mapBlocks f).size := by
  intro a b hb
  have hsize : (g.mapBlocks f).size = g.size := Array.size_map
  rw [clean, block?_mapBlocks] at hb
  rw [hsize]
  refine hclean a b ?_
  rw [clean]
  cases hk : g.block? a with
  | none => rw [hk] at hb; cases hb
  | some k =>
    rw [hk] at hb
    show b ∈ k.clean
    rw [← hf k]
    exact hb

end Graph

/-- Where the clause starts, what it owns, and whether it is removed. -/
def Handler.extent (k : Handler) : Option BlockId × List BlockId × Bool :=
  (k.entry, k.body, k.removed)

namespace Method

theorem handler_modifyHandler (m : Method) (h x : HandlerId) (f : Handler → Handler) :
    (m.modifyHandler h f).handler x =
      if h = x ∧ x < m.handlers.size then f (m.handler x) else m.handler x := by
  unfold handler modifyHandler
  rw [Array.getElem?_modify]
  by_cases hx : h = x
  · subst hx
    by_cases hlt : h < m.handlers.size
    · simp [hlt]
    · simp [hlt]
  · simp [hx]

theorem size_modifyHandler (m : Method) (h : HandlerId) (f : Handler → Handler) :
    (m.modifyHandler h f).handlers.size = m.handlers.size := by
  simp [modifyHandler]

/-- A part of the record that the change leaves alone. -/
theorem handler_modifyHandler_eq {β : Type} (view : Handler → β) (m : Method) (h x : HandlerId)
    (f : Handler → Handler) (hf : ∀ k, view (f k) = view k) :
    view ((m.modifyHandler h f).handler x) = view (m.handler x) := by
  rw [handler_modifyHandler]
  split
  · exact hf _
  · rfl

theorem handler_of_size_le {m : Method} {h : HandlerId} (hsize : m.handlers.size ≤ h) :
    m.handler h = default := by
  rw [handler, Array.getElem?_eq_none hsize]
  rfl

theorem lt_of_isSome_entry {m : Method} {h : HandlerId}
    (hentry : (m.handler h).entry.isSome = true) : h < m.handlers.size := by
  refine Nat.lt_of_not_le fun hsize => ?_
  rw [handler_of_size_le hsize] at hentry
  cases hentry

theorem types_addTypes (m : Method) {first : HandlerId} (hfirst : first < m.handlers.size)
    (types : List TypeName) (x : HandlerId) :
    ((m.addTypes first types).handler x).types =
      if x = first then appendNew (m.handler first).types types else (m.handler x).types := by
  show ((m.modifyHandler first fun k => k.addTypes types).handler x).types = _
  rw [handler_modifyHandler]
  by_cases hx : x = first
  · subst hx
    rw [if_pos ⟨rfl, hfirst⟩, if_pos rfl]
    rfl
  · rw [if_neg fun h => hx h.1.symm, if_neg hx]

theorem map_block?_modifyBinders {β : Type} (view : Block → β) (m : Method) (h : HandlerId)
    (f : Instr → Instr) (b : BlockId) (hview : ∀ k instrs, view { k with instrs } = view k) :
    ((m.modifyBinders h f).graph.block? b).map view = (m.graph.block? b).map view :=
  Graph.map_block?_mapBlocks view m.graph
    (fun k => { k with instrs := k.instrs.map fun i => if i.binds = some h then f i else i })
    (fun k => hview k _) b

theorem markRemoved_eq_ok {m m' : Method} {h : HandlerId} :
    m.markRemoved h = .ok m' ↔ (∀ b ∈ (m.handler h).body, b < m.graph.size) ∧
      m' = { m.modifyHandler h (fun k => { k with removed := true }) with
        graph := (m.handler h).body.foldl
          (fun g b => g.modify b (·.addFlags { remove := true })) m.graph } := by
  unfold markRemoved
  dsimp only
  split
  · rename_i hall
    have hlt := fun b hb => of_decide_eq_true (List.all_eq_true.mp hall b hb)
    exact ⟨fun hok => ⟨hlt, (Except.ok.inj hok).symm⟩, fun hok => congrArg Except.ok hok.2.symm⟩
  · rename_i hall
    refine ⟨nofun, fun hok => absurd (List.all_eq_true.mpr fun b hb => ?_) hall⟩
    exact decide_eq_true (hok.1 b hb)

theorem of_markRemoved {m m' : Method} {h : HandlerId} (hmark : m.markRemoved h = .ok m') :
    m'.handlers = (m.modifyHandler h fun k => { k with removed := true }).handlers := by
  obtain ⟨-, rfl⟩ := markRemoved_eq_ok.mp hmark
  rfl

end Method

end TryRegions
