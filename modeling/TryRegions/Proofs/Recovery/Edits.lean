import TryRegions.Proofs.Recovery.Entering
import TryRegions.Proofs.Recovery.Pass
import TryRegions.Proofs.Recovery.Regroup
import TryRegions.Proofs.Recovery.Wrapping

/-! The recovery keeps the representation of a graph in order. Every graph made by edits is
well-formed, and the recovery leaves one that is made by edits, on any method and wherever it stops,
unless it asks for a block that does not exist. -/

open Relation

namespace TryRegions.Recovery

open RecoverM TryRegions.Graph

variable {s t : State}

theorem moves_finish (regions : List RegionId) :
    Moves (Quiet Cut) (finish regions) s fun _ _ => True := by
  refine Moves.andThen (moves_modifyMethod (.refreshAll _) rfl rfl) fun _ t _ => .of_method ?_
  refine Moves.andThen (.each fun h _ u _ => .of_method (.each fun b _ v _ => ?_)) fun _ u _ => ?_
  · refine .of_block fun k _ => Moves.andThen (.each fun _ _ _ _ => moves_record _) fun _ w _ => ?_
    exact Moves.weaken (moves_annotate (.modify _ b fun _ => ⟨rfl, rfl, rfl⟩))
  · refine .modify ⟨.of_graph ?_ rfl rfl, .refl _⟩ trivial
    exact .tail (.single .detachMarked) (.annotate (.refreshAll _))

theorem moves_promote : Moves (Quiet Cut) promoteCoverage s fun _ _ => True := by
  refine Moves.weaken (moves_annotate (.mapLive _ fun k => ?_))
  obtain ⟨hsuccs, hpreds, -, hdetached, -⟩ := k.promoteCoverage_kept
  exact ⟨hsuccs, hpreds, hdetached⟩

/-- What the recovery does to a method that has handlers. -/
def phases (c : Config) : RecoverM Unit := do
  modifyGraph Graph.refreshAll
  promoteCoverage
  setUpEntries
  let regions ← group c.types
  wire c.limitFactor regions
  finish regions

theorem recover_eq (c : Config) :
    recover c = method >>= fun m =>
      if m.registered.isEmpty then pure false
      else
        (if c.debug then record (.before m.listing) else pure ()) >>= fun _ =>
          phases c >>= fun _ =>
            (if c.debug then method >>= fun m => record (.after m.listing) else pure ()) >>=
              fun _ => pure true := by
  unfold recover phases
  refine congrArg (bind method) (funext fun m => ?_)
  cases c.debug <;> simp only [bind_assoc, pure_bind, if_true, if_false, Bool.false_eq_true]

theorem traced_phases (c : Config) (wf : s.method.graph.WellFormed) :
    Moves (Traced Edit) (phases c) s fun _ _ => True := by
  have hedits : ∀ {s t : State}, Traced Edit s t → s.method.graph.WellFormed →
      t.method.graph.WellFormed := fun h wf => wellFormed_of_edits h.graph wf
  refine Moves.andThen (Moves.relax (Moves.edits (moves_annotate (.refreshAll _)))
    fun _ h => h.toTraced) fun _ t ht => ?_
  refine (moves_promote.edits.relax fun _ h => h.toTraced).andThen fun _ u hu => ?_
  refine ((enters_setUpEntries (hedits hu (hedits ht wf))).relax fun _ h =>
    (quiet_of_enters h).toTraced).andThen fun _ v hv => ?_
  refine ((regroups_group (P := fun _ => True) c.types fun _ _ _ => trivial).relax fun _ h =>
    (traced_of_regroups h).mono fun _ _ => .cut).andThen fun regions w hw => ?_
  have ready : Ready 0 regions False w :=
    .of_zero (hedits hw (hedits hv (hedits hu (hedits ht wf)))) False.elim
  refine ((joins_wire ready c.limitFactor).relax fun _ h =>
    (ready.joined h).toTraced).andThen fun _ x _ => ?_
  exact (moves_finish regions).edits.relax fun _ h => h.toTraced

theorem traced_recover (c : Config) (wf : s.method.graph.WellFormed) :
    Moves (Traced Edit) (recover c) s fun _ _ => True := by
  have hrecord : ∀ (e : Event) (t : State), Moves (Traced Edit) (record e) t fun _ _ => True :=
    fun e t => (moves_record e).relax fun _ h => h.toTraced
  rw [recover_eq]
  refine .of_method ?_
  split
  · exact .pure trivial
  · refine Moves.andThen (Q := fun _ _ => True) ?_ fun _ t ht => ?_
    · split
      · exact hrecord _ s
      · exact .pure trivial
    · refine (traced_phases c (wellFormed_of_edits ht.graph wf)).andThen fun _ u _ => ?_
      refine Moves.andThen (Q := fun _ _ => True) ?_ fun _ v _ => .pure trivial
      split
      · exact .of_method (hrecord _ u)
      · exact .pure trivial

/-- Every graph made by edits is kept as a graph has to be. The recovery goes on by edits: where it
does not meet a fault, it leaves a graph that edits lead to from the one that it was given, on any
method. -/
theorem built_represented (c : Config) (m : Method) (hbuilt : m.graph.Built) :
    m.graph.Represented ∧
    ((∀ f, (process c m).result ≠ .error (.fault f)) →
      ReflTransGen Edit m.graph (process c m).method.graph ∧
        (process c m).method.graph.Represented) := by
  have wf := hbuilt.wellFormed
  refine ⟨wf.represented, fun hexit => ?_⟩
  have hedits : ReflTransGen Edit m.graph (process c m).method.graph := by
    have hmoves := traced_recover c (s := { method := m }) wf
    unfold process at hexit ⊢
    unfold Moves at hmoves
    generalize exec (recover c) { method := m } = r at hmoves hexit ⊢
    obtain ⟨(f | v) | a, t⟩ := r
    · exact absurd rfl (hexit f)
    · exact hmoves.graph
    · exact hmoves.1.graph
  exact ⟨hedits, (wellFormed_of_edits hedits wf).represented⟩

/-- Block 1 leads to itself and is covered by the handler that starts in block 3. Block 4 was
detached. -/
def builtMethod : Method where
  name := "m"
  graph :=
    let linked := [(0, 1), (1, 1), (1, 2), (1, 3), (3, 2), (1, 4)].foldl
      (fun g e => g.addEdge e.1 e.2) ([0, 2, 4, 6, 8].foldl Graph.newBlock {})
    let coded := (linked.modify 1 fun k => { k with
      instrs := [{ opcode := .invoke, offset := 2, catches := some ⟨[0]⟩ }] }).modify 3
        fun k => { k with
          instrs := [{ opcode := .moveException, offset := 6, entry := some 0 }]
          tmpEdge := some 1 }
    (coded.modify 4 (·.addFlags { remove := true })).detachMarked
  enter := some 0
  handlers := #[{ number := 0, offset := 6, types := ["E"] }]
  registered := [0]

theorem built_represented_builtMethod :
    builtMethod.graph.Built ∧ builtMethod.graph.live = [0, 1, 2, 3] ∧
      (process {} builtMethod).result = .ok true ∧
      (process {} builtMethod).method.graph.Represented := by
  have hbuilt : builtMethod.graph.Built := by
    have note : ∀ {g : Graph} {b f}, g.Built →
        (∀ k : Block, (f k).succs = k.succs ∧ (f k).preds = k.preds ∧ (f k).detached = k.detached) →
        (g.modify b f).Built := fun hg hf => hg.tail (.cut (.annotate (.modify _ _ hf)))
    unfold builtMethod
    dsimp only [List.foldl]
    refine ReflTransGen.tail ?_ (.cut .detachMarked)
    iterate 3 refine note ?_ fun _ => ⟨rfl, rfl, rfl⟩
    iterate 6
      refine ReflTransGen.tail ?_ (.connect (connect_eq_ok.mpr ⟨by decide +kernel, rfl⟩))
    iterate 5 refine ReflTransGen.tail ?_ .newBlock
    exact .refl
  have hok : (process {} builtMethod).result = .ok true := by decide +kernel
  refine ⟨hbuilt, by decide +kernel, hok, ((built_represented {} builtMethod hbuilt).2 ?_).2⟩
  rintro f hf
  cases hok.symm.trans hf

end TryRegions.Recovery
