import TryRegions.Proofs.Recovery.Stages

/-! The recovery loses no instruction. Up to the end of wiring each block has the code that it had,
and a block that is made has none. What is done last takes monitor exits out of the code of
handlers, and nothing else: of each block in the body of a handler that is left, those in front of
the first monitor entry. -/

open Relation

namespace TryRegions.Recovery

open RecoverM TryRegions.Graph

variable {s t u : State}

section Exits

variable {code kept : List Instr}

/-- `kept` is `code` without the monitor exits in front of its first monitor entry. -/
def Unlocked (code kept : List Instr) : Prop :=
  ∃ front rest, code = front ++ rest ∧ (∀ i ∈ front, i.opcode ≠ .monitorEnter) ∧
    (∀ i ∈ rest.head?, i.opcode = .monitorEnter) ∧
    kept = front.filter (fun i => i.opcode ≠ .monitorExit) ++ rest

theorem unlocked_withoutExits (code : List Instr) : Unlocked code (withoutExits code) := by
  refine ⟨_, _, (List.takeWhile_append_dropWhile).symm, fun i hi => ?_, fun i hi => ?_, rfl⟩
  · exact of_decide_eq_true (List.all_eq_true.mp List.all_takeWhile i hi)
  · have hstop := List.head?_dropWhile_not (fun i : Instr => decide (i.opcode ≠ .monitorEnter)) code
    rw [Option.mem_def.mp hi] at hstop
    simpa using hstop

theorem Unlocked.eq_withoutExits (h : Unlocked code kept) : kept = withoutExits code := by
  obtain ⟨front, rest, rfl, hfront, hrest, rfl⟩ := h
  have hpass : ∀ i ∈ front, decide (i.opcode ≠ .monitorEnter) = true :=
    fun i hi => decide_eq_true (hfront i hi)
  unfold withoutExits
  rw [List.takeWhile_append_of_pos hpass, List.dropWhile_append_of_pos hpass]
  cases rest with
  | nil => simp
  | cons i rest =>
    have hi : i.opcode = .monitorEnter := hrest i rfl
    simp [hi]

/-- Nothing is left to drop. -/
theorem withoutExits_idem (code : List Instr) :
    withoutExits (withoutExits code) = withoutExits code := by
  obtain ⟨front, rest, -, hfront, hrest, hkept⟩ := unlocked_withoutExits code
  symm
  refine Unlocked.eq_withoutExits ⟨_, rest, hkept, fun i hi => ?_, hrest, ?_⟩
  · exact hfront i (List.mem_of_mem_filter hi)
  · rw [List.filter_filter, hkept]
    simp

theorem map_bare_withoutExits (code : List Instr) :
    (withoutExits code).map Instr.bare = withoutExits (code.map Instr.bare) := by
  unfold withoutExits
  rw [List.map_append, List.takeWhile_map, List.dropWhile_map, List.filter_map]
  rfl

/-- From `code` to `kept` some monitor exits are left out. -/
structure Thinned (code kept : List Instr) : Prop where
  sublist : kept.Sublist code
  others : kept.filter (fun i => i.opcode ≠ .monitorExit) =
    code.filter fun i => i.opcode ≠ .monitorExit

theorem Thinned.refl (code : List Instr) : Thinned code code := ⟨.refl _, rfl⟩

theorem Thinned.trans {left : List Instr} (h : Thinned code kept) (h' : Thinned kept left) :
    Thinned code left :=
  ⟨h'.sublist.trans h.sublist, h'.others.trans h.others⟩

theorem thinned_withoutExits (code : List Instr) : Thinned code (withoutExits code) := by
  obtain ⟨front, rest, rfl, -, -, hkept⟩ := unlocked_withoutExits code
  rw [hkept]
  refine ⟨List.filter_sublist.append (.refl rest), ?_⟩
  rw [List.filter_append, List.filter_append, List.filter_filter]
  simp

end Exits

section Steps

theorem Entering.code (h : Entering s t) (b : BlockId) :
    t.method.graph.code b = s.method.graph.code b := by
  cases h with
  | note h => exact h.code b
  | disconnect hcut =>
    obtain ⟨-, rfl⟩ := disconnect_eq_ok.mp hcut
    exact code_of_instrs (instrs_of_core (core_removeEdge b))
  | @own c h hlive hpreds => exact code_of_instrs (instrs_modify _ c (fun _ => by rfl) b)
  | collect hentry hlive hdom => rfl
  | @standIn c h offset hlive hpreds => exact code_of_instrs (instrs_withStandIn offset h b)

theorem Cull.code (h : Cull s t) (b : BlockId) :
    t.method.graph.code b = s.method.graph.code b := by
  cases h with
  | note hmethod htree => rw [hmethod]
  | widen h types hcaptures => exact s.method.code_addTypes h types b
  | mark hmark => exact code_of_instrs (Method.instrs_markRemoved hmark b)
  | disconnect hcut =>
    obtain ⟨-, rfl⟩ := disconnect_eq_ok.mp hcut
    exact code_of_instrs (instrs_of_core (core_removeEdge b))
  | sweep => exact code_of_instrs (instrs_detachMarked _ b)
  | fill r hchange => rfl

theorem Regroup.code {P : BlockId → Prop} (h : Regroup P s t) (b : BlockId) :
    t.method.graph.code b = s.method.graph.code b := by
  cases h with
  | cull h => exact h.code b
  | reforest nextRegion hholds => rfl

/-- Traced, with the code of every block left as it is. -/
structure Carried (s t : State) : Prop extends Traced Edit s t where
  code : ∀ b, t.method.graph.code b = s.method.graph.code b

namespace Carried

theorem refl (s : State) : Carried s s := ⟨.refl s, fun _ => rfl⟩

theorem trans (h : Carried s t) (h' : Carried t u) : Carried s u :=
  ⟨h.toTraced.trans h'.toTraced, fun b => (h'.code b).trans (h.code b)⟩

instance : IsPreorder State Carried where
  refl := refl
  trans _ _ _ := trans

theorem wellFormed (h : Carried s t) (wf : s.method.graph.WellFormed) :
    t.method.graph.WellFormed :=
  wellFormed_of_edits h.graph wf

theorem record (s : State) (e : Event) :
    Carried s { s with log := s.log ++ [⟨s.method.name, e⟩] } :=
  ⟨.of_graph .refl rfl rfl, fun _ => rfl⟩

theorem withGraph {g : Graph} (hnoted : s.method.graph.Annotated g)
    (hcode : ∀ b, g.code b = s.method.graph.code b) : Carried s (s.withGraph g) :=
  ⟨.of_graph (.single (.cut (.annotate hnoted))) rfl rfl, hcode⟩

theorem of_steps {R : State → State → Prop} (hR : ∀ {s t}, R s t → s.method.graph.WellFormed →
    Carried s t) (wf : s.method.graph.WellFormed) (h : ReflTransGen R s t) : Carried s t := by
  induction h with
  | refl => exact .refl s
  | tail _ hstep ih => exact ih.trans (hR hstep (ih.wellFormed wf))

theorem of_enters (wf : s.method.graph.WellFormed) (h : ReflTransGen Entering s t) :
    Carried s t :=
  of_steps (fun hstep _ => ⟨hstep.quiet.toTraced, hstep.code⟩) wf h

theorem of_regroups {P : BlockId → Prop} (wf : s.method.graph.WellFormed)
    (h : ReflTransGen (Regroup P) s t) : Carried s t :=
  of_steps (fun hstep _ => ⟨hstep.traced.mono fun _ _ => .cut, hstep.code⟩) wf h

theorem of_joins {n : Nat} {regions : List RegionId} {tidy : Prop}
    (wf : s.method.graph.WellFormed) (h : Joins n regions tidy s t) : Carried s t :=
  of_steps (fun hstep wf =>
    ⟨(hstep.joined wf).toTraced, fun b => code_of_instrs (hstep.instrs b)⟩) wf h

end Carried

end Steps

section Phases

variable {c : Config}

theorem carries_refresh : Moves Carried (modifyGraph Graph.refreshAll) s fun _ _ => True :=
  .modify (.withGraph (.refreshAll _) fun b => code_of_instrs (instrs_refreshAll _ b)) trivial

theorem code_promoteAll (g : Graph) (b : BlockId) :
    (g.mapLive Block.promoteCoverage).code b = g.code b :=
  foldl_keeps (·.code b) (fun g a => g.code_modify a (fun k _ => k.code_promoteCoverage) b) _ _

theorem carries_promote : Moves Carried promoteCoverage s fun _ _ => True := by
  refine .modify (.withGraph (.mapLive _ fun k => ?_) (code_promoteAll _)) trivial
  obtain ⟨hsuccs, hpreds, -, hdetached, -⟩ := k.promoteCoverage_kept
  exact ⟨hsuccs, hpreds, hdetached⟩

/-- Setting up entries and grouping change no code. -/
theorem carries_preparing (m : Method) (wf : s.method.graph.WellFormed) :
    Moves Carried (preparing c m) s fun _ _ => True := by
  have hphases : ∀ {s : State}, s.method.graph.WellFormed → Moves Carried (do
      modifyGraph Graph.refreshAll
      promoteCoverage
      setUpEntries
      group c.types) s fun _ _ => True := by
    intro s wf
    refine carries_refresh.andThen fun _ t ht => carries_promote.andThen fun _ u hu => ?_
    have wf := hu.wellFormed (ht.wellFormed wf)
    refine ((enters_setUpEntries wf).relax fun _ => .of_enters wf).andThen fun _ v hv => ?_
    exact ((regroups_group (P := fun _ => True) c.types fun _ _ _ => trivial).relax fun _ =>
      .of_regroups (hv.wellFormed wf)).weaken
  unfold preparing
  split
  · refine Moves.andThen (Q := fun _ _ => True) (.modify (.record s _) trivial) fun _ t ht => ?_
    exact hphases (ht.wellFormed wf)
  · exact hphases wf

/-- Wiring changes no code. -/
theorem carries_wire (wf : s.method.graph.WellFormed) (regions : List RegionId) :
    Moves Carried (wire c.limitFactor regions) s fun _ _ => True := by
  have ready : Ready 0 regions False s := .of_zero wf False.elim
  exact ((joins_wire ready c.limitFactor).relax fun _ => .of_joins wf).weaken

end Phases

section Finish

/-- From `s` to `t` nothing but monitor exits leaves the code of blocks. -/
def Thins (s t : State) : Prop :=
  ∀ b, Thinned (s.method.graph.code b) (t.method.graph.code b)

instance : IsPreorder State Thins where
  refl _ _ := .refl _
  trans _ _ _ h h' b := (h b).trans (h' b)

theorem Carried.thins (h : Carried s t) : Thins s t := by
  intro b
  rw [h.code]
  exact .refl _

/-- From `s` to `t` the blocks `bs` lose the monitor exits in front of their first monitor entry,
and handlers stay as they are. -/
structure Drops (bs : List BlockId) (s t : State) : Prop where
  handlers : t.method.handlers = s.method.handlers
  registered : t.method.registered = s.method.registered
  code : ∀ b, t.method.graph.code b =
    if b ∈ bs then withoutExits (s.method.graph.code b) else s.method.graph.code b

namespace Drops

variable {bs bs' : List BlockId}

theorem of_code (hhandlers : t.method.handlers = s.method.handlers)
    (hregistered : t.method.registered = s.method.registered)
    (hcode : ∀ b, t.method.graph.code b = s.method.graph.code b) : Drops [] s t :=
  ⟨hhandlers, hregistered, fun b => by rw [hcode, if_neg List.not_mem_nil]⟩

theorem trans (h : Drops bs s t) (h' : Drops bs' t u) : Drops (bs ++ bs') s u where
  handlers := h'.handlers.trans h.handlers
  registered := h'.registered.trans h.registered
  code b := by
    -- A block in both lists is treated twice, and the second time nothing is left to drop.
    rw [h'.code, h.code]
    by_cases hb : b ∈ bs <;> by_cases hb' : b ∈ bs' <;> simp [hb, hb', withoutExits_idem]

theorem thins (h : Drops bs s t) : Thins s t := by
  intro b
  rw [h.code]
  split
  · exact thinned_withoutExits _
  · exact .refl _

theorem handler (h : Drops bs s t) : t.method.handler = s.method.handler := by
  unfold Method.handler
  rw [h.handlers]

end Drops

/-- A loop drops what its turns drop. -/
theorem drops_each {α : Type} {f : α → RecoverM PUnit} (bs : α → List BlockId)
    (step : ∀ a t, t.method.handlers = s.method.handlers →
      Moves Thins (f a) t fun _ u => Drops (bs a) t u) (l : List α) :
    Moves Thins (l.forM f) s fun _ t => Drops (l.flatMap bs) s t := by
  refine (Moves.loop (fun rest t => ∃ done, done ++ rest = l ∧ Drops (done.flatMap bs) s t)
    (fun a rest t _ h => ?_) ⟨[], rfl, .of_code rfl rfl fun _ => rfl⟩).mono ?_
  · obtain ⟨done, hl, hdone⟩ := h
    refine (step a t hdone.handlers).mono fun _ u _ hu => ⟨done ++ [a], ?_, ?_⟩
    · rw [List.append_assoc, List.singleton_append, hl]
    · rw [List.flatMap_append, List.flatMap_singleton]
      exact hdone.trans hu
  · rintro _ t - ⟨done, hl, hdone⟩
    rwa [← hl, List.append_nil]

theorem Drops.modify (s : State) (b : BlockId) :
    Drops [b] s (s.withGraph (s.method.graph.modify b fun k =>
      { k with instrs := withoutExits k.instrs })) where
  handlers := rfl
  registered := rfl
  code c := by
    rw [State.graph_withGraph, code_eq_map, instrs_modifyInstrs _ b c (by rfl), code_eq_map]
    by_cases hc : c = b
    · rw [if_pos hc, if_pos (List.mem_singleton.mpr hc), map_bare_withoutExits]
    · rw [if_neg hc, if_neg (mt List.mem_singleton.mp hc)]

theorem drops_dropExits (b : BlockId) :
    Moves Thins (dropExits b) s fun _ t => Drops [b] s t := by
  refine .of_block fun k _ => ?_
  have hnoted : ∀ (e : Event) (t : State),
      Moves Thins (record e) t fun _ u => Drops [] t u := fun e t =>
    have same : Drops [] t { t with log := t.log ++ [⟨t.method.name, e⟩] } :=
      .of_code rfl rfl fun _ => rfl
    .modify same.thins same
  refine (drops_each (fun _ => []) (fun _ t _ => hnoted _ t) (leadingExits k.instrs)).bind
    fun _ t _ ht => ?_
  have hdrop := Drops.modify t b
  refine .modify hdrop.thins ?_
  have hboth := ht.trans hdrop
  rwa [List.flatMap_eq_nil_iff.mpr fun _ _ => rfl] at hboth

theorem drops_dropMonitorExits (h : HandlerId) :
    Moves Thins (dropMonitorExits h) s fun _ t => Drops (s.method.handler h).body s t := by
  refine .of_method ?_
  have hblocks := drops_each (s := s) (fun b => [b]) (fun b t _ => drops_dropExits b)
    (s.method.handler h).body
  rwa [List.flatMap_singleton'] at hblocks

/-- The blocks in the bodies of the handlers that are registered. -/
def State.guarding (s : State) : List BlockId :=
  s.method.registered.flatMap fun h => (s.method.handler h).body

theorem drops_finish (regions : List RegionId) :
    Moves Thins (finish regions) s fun _ t => Drops s.guarding s t := by
  have hset : Drops [] s { s with
      method := { s.method with regions, graph := s.method.graph.refreshAll } } :=
    .of_code rfl rfl fun b => code_of_instrs (instrs_refreshAll _ b)
  refine Moves.bind (Q := fun _ t => Drops [] s t) (.modify hset.thins hset) fun _ t _ ht => ?_
  refine .of_method ?_
  refine (drops_each (fun h => (s.method.handler h).body) (fun h u hu => ?_)
    t.method.registered).bind fun _ u _ hu => ?_
  · have hsame : u.method.handler = s.method.handler := by
      unfold Method.handler
      rw [hu, ht.handlers]
    rw [← hsame]
    exact drops_dropMonitorExits h
  · have hswept : Drops [] u (u.withGraph u.method.graph.detachMarked.refreshAll) :=
      .of_code rfl rfl fun b =>
        code_of_instrs ((instrs_refreshAll _ b).trans (instrs_detachMarked _ b))
    refine .modify hswept.thins ?_
    have hall := (ht.trans hu).trans hswept
    rwa [List.append_nil, List.nil_append, ht.registered] at hall

theorem Drops.guarding {bs : List BlockId} (h : Drops bs s t) : t.guarding = s.guarding := by
  rw [State.guarding, State.guarding, h.registered, h.handler]

/-- What a recovery that succeeds leaves of the code: of the blocks of handlers all but the monitor
exits in front of the first monitor entry, of all others everything. -/
def Unguards (s t : State) : Prop :=
  ∀ b, t.method.graph.code b =
    if b ∈ t.guarding then withoutExits (s.method.graph.code b) else s.method.graph.code b

/-- What changes no code thins none. -/
theorem Moves.carried {α : Type} {x : RecoverM α} {Q : α → State → Prop} (h : Moves Carried x s Q) :
    Moves Thins x s fun _ t => Carried s t :=
  (h.mono fun _ _ ht _ => ht).relax fun _ ht => ht.thins

theorem unguards_ending (c : Config) (wf : s.method.graph.WellFormed) (regions : List RegionId) :
    Moves Thins (ending c regions) s fun _ t => Unguards s t := by
  refine (carries_wire wf regions).carried.bind fun _ t _ ht => ?_
  refine (drops_finish regions).bind fun _ u _ hu => ?_
  have hcode : Unguards s u := by
    intro b
    rw [hu.guarding, hu.code, ht.code]
  split
  · refine .of_method (Moves.bind (Q := fun _ v => Unguards s v) ?_ fun _ _ _ hv => .pure hv)
    exact .modify (Carried.record u _).thins hcode
  · exact .pure hcode

theorem Thins.instrs_eq_nil (h : Thins s t) {b : BlockId} {k : Block}
    (hb : s.method.graph.size ≤ b) (hk : t.method.graph.block? b = some k) : k.instrs = [] := by
  have hsub := (h b).sublist
  rw [code_of_size_le hb, code_eq hk] at hsub
  exact List.map_eq_nil_iff.mp (List.sublist_nil.mp hsub)

theorem State.mem_guarding {b : BlockId} :
    b ∈ s.guarding ↔ ∃ h ∈ s.method.registered, b ∈ (s.method.handler h).body :=
  List.mem_flatMap

theorem unguards_recover (c : Config) (wf : s.method.graph.WellFormed) :
    Moves Thins (recover c) s fun _ t => Unguards s t := by
  rw [recover_eq_preparing]
  refine .of_method ?_
  split
  · rename_i hempty
    refine .pure fun b => ?_
    rw [State.guarding, List.isEmpty_iff.mp hempty]
    rfl
  · refine (carries_preparing s.method wf).carried.bind fun regions t _ ht => ?_
    refine (unguards_ending c (ht.wellFormed wf) regions).mono fun _ u _ hu b => ?_
    rw [hu b, ht.code]

end Finish

/-- Wherever a recovery of a fresh method ends, the blocks of the method are still there and nothing
but monitor exits is gone from their code, and a block that was made has none. Where it succeeds,
the blocks in the bodies of the handlers that are left have lost the monitor exits in front of their
first monitor entry, and all others have the code that they had. -/
theorem process_loses_no_instruction (c : Config) {m : Method} (hm : m.Fresh) :
    m.graph.size ≤ (process c m).method.graph.size ∧
    (∀ b k, m.graph.size ≤ b → (process c m).method.graph.block? b = some k → k.instrs = []) ∧
    (∀ b, Thinned (m.graph.code b) ((process c m).method.graph.code b)) ∧
    ∀ handled, (process c m).result = .ok handled → ∀ b,
      ((∀ h ∈ (process c m).method.registered, b ∉ ((process c m).method.handler h).body) →
        (process c m).method.graph.code b = m.graph.code b) ∧
      ∀ h ∈ (process c m).method.registered, b ∈ ((process c m).method.handler h).body →
        Unlocked (m.graph.code b) ((process c m).method.graph.code b) := by
  have hsound := yields_recover c hm
  have hmoves := unguards_recover c (s := { method := m }) hm.wellFormed
  have htraced := traced_recover c (s := { method := m }) hm.wellFormed
  unfold Yields at hsound
  unfold Moves at hmoves htraced
  unfold process
  generalize exec (recover c) { method := m } = outcome at hsound hmoves htraced ⊢
  obtain ⟨(f | v) | handled, t⟩ := outcome
  · exact hsound.elim
  · exact ⟨size_le_of_edits htraced.graph hm.wellFormed,
      fun b k hb hk => hmoves.instrs_eq_nil hb hk, hmoves, nofun⟩
  · obtain ⟨hthins, hunguards⟩ := hmoves
    refine ⟨size_le_of_edits htraced.1.graph hm.wellFormed,
      fun b k hb hk => hthins.instrs_eq_nil hb hk, hthins, fun _ _ b => ⟨fun hout => ?_, ?_⟩⟩
    · rw [hunguards b, if_neg]
      rintro hb
      obtain ⟨h, hh, hbody⟩ := State.mem_guarding.mp hb
      exact hout h hh hbody
    · intro h hh hbody
      rw [hunguards b, if_pos (State.mem_guarding.mpr ⟨h, hh, hbody⟩)]
      exact unlocked_withoutExits _

/-- Block 4 is in the bodies of both handlers, and block 2 in none. -/
def syncCode : Method where
  name := "m"
  graph :=
    { blocks := #[
        { offset := 0, succs := [1] },
        { offset := 2, instrs := [{ opcode := .invoke, offset := 2, catches := some ⟨[0]⟩ }],
          preds := [0], succs := [2, 3] },
        { offset := 4, instrs := [{ opcode := .monitorExit, offset := 4 }], preds := [1] },
        { offset := 6, instrs := [
            { opcode := .moveException, offset := 6, entry := some 0 },
            { opcode := .monitorExit, offset := 7 },
            { opcode := .invoke, offset := 8, catches := some ⟨[1]⟩ }],
          preds := [1], succs := [4], tmpEdge := some 1 },
        { offset := 10, instrs := [
            { opcode := .moveException, offset := 10, entry := some 1 },
            { opcode := .monitorExit, offset := 11 },
            { opcode := .monitorEnter, offset := 12 },
            { opcode := .monitorExit, offset := 13 }],
          preds := [3], tmpEdge := some 3 }]
      live := [0, 1, 2, 3, 4] }
  enter := some 0
  handlers := #[{ number := 0, offset := 6, types := ["A"] },
    { number := 1, offset := 10, types := ["B"] }]
  registered := [0, 1]

/-- The monitor exit of block 4 goes once, for both handlers; the one behind the monitor entry
stays, and so does that of block 2. -/
theorem process_loses_no_instruction_syncCode :
    syncCode.Fresh ∧ (process {} syncCode).result = .ok true ∧
      (process {} syncCode).method.registered = [0, 1] ∧
      ((process {} syncCode).method.handler 0).body = [3, 4] ∧
      ((process {} syncCode).method.handler 1).body = [4] ∧
      Unlocked (syncCode.graph.code 4) ((process {} syncCode).method.graph.code 4) ∧
      ((process {} syncCode).method.graph.code 4).map Instr.offset = [10, 12, 13] ∧
      (process {} syncCode).method.graph.code 2 = syncCode.graph.code 2 ∧
      Thinned (syncCode.graph.code 3) ((process {} syncCode).method.graph.code 3) := by
  have hm : syncCode.Fresh := by decide +kernel
  have hok : (process {} syncCode).result = .ok true := by decide +kernel
  have hregistered : (process {} syncCode).method.registered = [0, 1] := by decide +kernel
  have hfirst : ((process {} syncCode).method.handler 0).body = [3, 4] := by decide +kernel
  have hsecond : ((process {} syncCode).method.handler 1).body = [4] := by decide +kernel
  obtain ⟨-, -, hthinned, hsuccess⟩ := process_loses_no_instruction {} hm
  refine ⟨hm, hok, hregistered, hfirst, hsecond, ?_, by decide +kernel, ?_, hthinned 3⟩
  · refine (hsuccess true hok 4).2 1 ?_ ?_
    · rw [hregistered]
      decide
    · rw [hsecond]
      decide
  · refine (hsuccess true hok 2).1 ?_
    rw [hregistered]
    simp [hfirst, hsecond]

end TryRegions.Recovery
