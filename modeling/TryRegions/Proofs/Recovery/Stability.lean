import TryRegions.Proofs.Recovery.Intake

/-! What the last scan of the pairs leaves to do. A pair that asks for nothing when it is looked at
is not looked at again in that scan, though nesting may change one of its regions afterwards. Only
such pairs may ask for a change once the combination is done. -/

open Relation

namespace TryRegions.Recovery

open RecoverM Forest

/-- A pair that asks for nothing does so as long as both regions stay as they are. -/
theorem relation_unrelated_of_same {m m' : Method} {outer inner : RegionId}
    (hgraph : m'.graph = m.graph) (hhandler : m'.handler = m.handler)
    (hhandlers : ∀ r, r = outer ∨ r = inner → (m'.region r).handlers = (m.region r).handlers)
    (hblocks : ∀ r, r = outer ∨ r = inner → (m'.region r).blocks = (m.region r).blocks)
    (hbelow : m.forest.hasAncestor outer inner = true →
      m'.forest.hasAncestor outer inner = true)
    (h : relation m outer inner = .ok .unrelated) :
    relation m' outer inner = .ok .unrelated := by
  rcases relation_eq_ok_iff.mp h with ⟨-, h⟩ | ⟨hsame, code, block, hcode, hblock, hjudge⟩
  · cases h
  have hclauses : clauseCode m' inner = clauseCode m inner := by
    rw [clauseCode, clauseCode, hhandlers inner (Or.inr rfl), hhandler]
  refine relation_eq_ok_iff.mpr (Or.inr ⟨?_, code, block, ?_, ?_, ?_⟩)
  · rw [hblocks outer (Or.inl rfl), hblocks inner (Or.inr rfl), hsame]
  · rw [hgraph, hhandlers outer (Or.inl rfl), hclauses, hcode]
  · rw [hgraph, hhandlers outer (Or.inl rfl), hblocks inner (Or.inr rfl), hblock]
  · unfold judge at hjudge ⊢
    rw [hclauses, hblocks outer (Or.inl rfl), hhandlers outer (Or.inl rfl),
      hhandlers inner (Or.inr rfl)]
    split at hjudge
    · split at hjudge
      · rename_i hcovers habove
        rw [if_pos hcovers, if_pos (hbelow habove)]
      · split at hjudge <;> cases hjudge
    · rename_i hcovers
      rw [if_neg hcovers]
      exact hjudge

namespace Combining

/-- The pair asks for nothing, or it is not asked. -/
def Idle (s : State) (outer inner : RegionId) : Prop :=
  outer ≠ inner → (s.method.region inner).outer = none →
    relation s.method outer inner = .ok .unrelated

/-- A scan that leaves the list of regions as it is: from a point, through the points `later` that
follow it, to the end of the pairs, where the state is `t`. -/
inductive Scan : Combining → List Combining → State → Prop where
  | done {s regions} : Scan ⟨s, regions, []⟩ [] s
  | pass {s regions outer inner pairs later t} (hidle : Idle s outer inner)
      (hrest : Scan ⟨s, regions, pairs⟩ later t) :
      Scan ⟨s, regions, (outer, inner) :: pairs⟩ (⟨s, regions, pairs⟩ :: later) t
  | nest {s regions outer inner pairs later t}
      (hne : outer ≠ inner) (hfree : (s.method.region inner).outer = none)
      (hrel : relation s.method outer inner = .ok .nest)
      (hrest : Scan ⟨s.withForest (nestInto s.method.forest outer inner), regions, pairs⟩ later t) :
      Scan ⟨s, regions, (outer, inner) :: pairs⟩
        (⟨s.withForest (nestInto s.method.forest outer inner), regions, pairs⟩ :: later) t

/-- The pair is looked at, and later one of its regions takes in another one. -/
def Stirred (points : List Combining) (outer inner : RegionId) : Prop :=
  ∃ q rest, q :: rest <:+ points ∧ q.pairs.head? = some (outer, inner) ∧
    ∃ x ∈ rest, ∃ j, x.Takes outer j ∨ x.Takes inner j

/-- Scans that change the list of regions, and so start the next one: `k` of them lead from
`regions` in the state `s` to `result` in the state `t`. -/
inductive Restarts : Nat → State → List RegionId → State → List RegionId → Prop where
  | none {s regions} : Restarts 0 s regions s regions
  | again {k s regions u next t result}
      (hscan : exec (combine regions) s = (.ok (next, true), u))
      (hrest : Restarts k u next t result) : Restarts (k + 1) s regions t result

variable {base : Nat} {hs : List HandlerId} {s t : State} {regions : List RegionId}
  {pairs : List (RegionId × RegionId)} {p : Combining} {later : List Combining}
  {outer inner : RegionId}

theorem exists_relation_of_relate {a : List RegionId × Bool}
    (h : exec (relate regions outer inner) s = (.ok a, t)) :
    ∃ r, relation s.method outer inner = .ok r := by
  cases hrel : relation s.method outer inner with
  | ok r => exact ⟨r, rfl⟩
  | error e =>
    unfold relate at h
    rw [exec_bind] at h
    change exec (ofExcept (relation s.method outer inner) >>= _) s = _ at h
    rw [hrel] at h
    cases h

theorem scan_of_relatePairs {result : List RegionId}
    (hrun : exec (relatePairs regions pairs) s = (.ok (result, false), t)) :
    result = regions ∧ ∃ later, Scan ⟨s, regions, pairs⟩ later t := by
  induction pairs generalizing s with
  | nil =>
    cases hrun
    exact ⟨rfl, [], .done⟩
  | cons pair pairs ih =>
    obtain ⟨outer, inner⟩ := pair
    obtain ⟨m, _, hm, hrun⟩ := exec_bind_eq_ok.mp hrun
    cases hm
    split at hrun
    · rename_i hpair
      obtain ⟨rfl, later, hscan⟩ := ih hrun
      refine ⟨rfl, _, .pass (fun hne hfree => ?_) hscan⟩
      simp [hne, hfree] at hpair
    · rename_i hpair
      obtain ⟨hne, hfree⟩ : outer ≠ inner ∧ (s.method.region inner).outer = none := by
        simpa using hpair
      obtain ⟨⟨list, new⟩, u, hrelate, hrun⟩ := exec_bind_eq_ok.mp hrun
      obtain ⟨r, hrel⟩ := exists_relation_of_relate hrelate
      rw [exec_relate hrel] at hrelate
      cases r with
      | unrelated =>
        cases hrelate
        obtain ⟨rfl, later, hscan⟩ := ih hrun
        exact ⟨rfl, _, .pass (fun _ _ => hrel) hscan⟩
      | nest =>
        cases hrelate
        obtain ⟨rfl, later, hscan⟩ := ih hrun
        exact ⟨rfl, _, .nest hne hfree hrel hscan⟩
      | sameBlocks =>
        cases hrelate
        cases hrun
      | absorb =>
        cases hrelate
        cases hrun
      | sameClauses =>
        cases hrelate
        cases hrun

/-- What is left as it was at `p` when the scan is over. -/
structure Keeps (base : Nat) (p : Combining) (later : List Combining) (t : State) : Prop where
  method : t.method = { p.state.method with forest := t.method.forest }
  nested : Nested base t.method.forest p.regions
  under : ∀ r o, p.forest.Under r o → t.method.forest.Under r o
  handlers : ∀ r, (t.method.region r).handlers = (p.forest.get r).handlers
  blocks : ∀ r, (∀ q ∈ p :: later, ∀ i, ¬q.Takes r i) →
    (t.method.region r).blocks = (p.forest.get r).blocks

theorem Keeps.cons {pair : RegionId × RegionId} (h : Keeps base ⟨s, regions, pairs⟩ later t) :
    Keeps base ⟨s, regions, pair :: pairs⟩ (⟨s, regions, pairs⟩ :: later) t :=
  { h with blocks := fun r hr => h.blocks r fun q hq => hr q (List.mem_cons_of_mem _ hq) }

theorem Keeps.nest (h : Keeps base
      ⟨s.withForest (nestInto s.method.forest outer inner), regions, pairs⟩ later t)
    (hp : Shared hs ⟨s, regions, (outer, inner) :: pairs⟩) (hne : outer ≠ inner)
    (hfree : (s.method.region inner).outer = none)
    (hrel : relation s.method outer inner = .ok .nest) :
    Keeps base ⟨s, regions, (outer, inner) :: pairs⟩
      (⟨s.withForest (nestInto s.method.forest outer inner), regions, pairs⟩ :: later) t := by
  obtain ⟨ho, hi⟩ := hp.pairs _ List.mem_cons_self
  constructor
  case method => exact h.method
  case nested => exact h.nested
  case under =>
    intro r o hro
    apply h.under
    show ((nestInto s.method.forest outer inner).get r).outer = some o
    rw [outer_nestInto (hp.covering.lt _ hi), if_neg]
    · exact hro
    · rintro rfl
      cases hfree.symm.trans hro
  case handlers =>
    intro r
    rw [h.handlers]
    apply handlers_nestInto
    exact fun x hx hx' => hne (hp.covering.disjoint outer ho inner hi x hx hx')
  case blocks =>
    intro r hr
    rw [h.blocks r fun q hq => hr q (List.mem_cons_of_mem _ hq)]
    show ((nestInto s.method.forest outer inner).get r).blocks = _
    rw [blocks_nestInto, if_neg]
    rintro ⟨rfl, -⟩
    exact hr _ List.mem_cons_self inner (takes_cons.mpr ⟨⟨rfl, rfl⟩, hne, hfree, Or.inr hrel⟩)

theorem Shared.pass {pair : RegionId × RegionId} (hp : Shared hs ⟨s, regions, pair :: pairs⟩) :
    Shared hs ⟨s, regions, pairs⟩ :=
  { hp with pairs := fun q hq => hp.pairs q (List.mem_cons_of_mem _ hq) }

theorem InOrder.pass {pair : RegionId × RegionId} (hn : InOrder base ⟨s, regions, pair :: pairs⟩) :
    InOrder base ⟨s, regions, pairs⟩ :=
  { hn with pairs := fun q hq => hn.pairs q (List.mem_cons_of_mem _ hq) }

theorem step_of_nest (hne : outer ≠ inner) (hfree : (s.method.region inner).outer = none)
    (hrel : relation s.method outer inner = .ok .nest) :
    Step ⟨s, regions, (outer, inner) :: pairs⟩
      ⟨s.withForest (nestInto s.method.forest outer inner), regions, pairs⟩ :=
  .keep hne hfree (exec_relate hrel)

theorem Scan.keeps (hscan : Scan p later t) (hp : p.Shared hs) (hn : p.InOrder base) :
    Keeps base p later t := by
  induction hscan generalizing hs with
  | done => exact ⟨rfl, hn.nested, fun _ _ h => h, fun _ => rfl, fun _ _ => rfl⟩
  | pass _ _ ih => exact (ih hp.pass hn.pass).cons
  | nest hne hfree hrel _ ih =>
    have hp' := (hp.step (step_of_nest hne hfree hrel)).1
    have hn' := hn.step (step_of_nest hne hfree hrel)
    exact (ih hp' hn').nest hp hne hfree hrel

/-- A pair that was left alone, and neither region of which has taken in anything since, asks for
nothing in the end. -/
theorem Keeps.unrelated (h : Keeps base p later t) (hn : p.InOrder base) (ho : outer ∈ p.regions)
    (hquiet : ∀ q ∈ p :: later, ∀ j, ¬q.Takes outer j ∧ ¬q.Takes inner j)
    (hrel : relation p.state.method outer inner = .ok .unrelated) :
    relation t.method outer inner = .ok .unrelated := by
  refine relation_unrelated_of_same ?_ ?_ (fun r _ => h.handlers r) (fun r hr => ?_)
    (fun habove => ?_) hrel
  · rw [h.method]
  · rw [h.method]
    rfl
  · apply h.blocks
    intro q hq j
    rcases hr with rfl | rfl
    · exact (hquiet q hq j).1
    · exact (hquiet q hq j).2
  · have hbase := (hn.nested.bounds outer ho).1
    rw [h.nested.hasAncestor_iff hbase]
    exact TransGen.mono h.under _ _ ((hn.nested.hasAncestor_iff hbase).mp habove)

theorem Stirred.cons {q : Combining} {points : List Combining} (h : Stirred points outer inner) :
    Stirred (q :: points) outer inner := by
  obtain ⟨x, rest, hsuffix, hrest⟩ := h
  exact ⟨x, rest, hsuffix.trans (List.suffix_cons _ _), hrest⟩

/-- A region that is under no other one in the end was so at each point. -/
theorem Keeps.free (h : Keeps base p later t) (hfree : (t.method.region inner).outer = none) :
    (p.forest.get inner).outer = none := by
  apply Option.eq_none_iff_forall_ne_some.mpr
  intro o hunder
  cases hfree.symm.trans (h.under inner o hunder)

/-- A pair that may ask for a change when the scan is over was stirred in it. -/
theorem Scan.unrelated_or_stirred (hscan : Scan p later t) (hp : p.Shared hs) (hn : p.InOrder base)
    (hpair : (outer, inner) ∈ p.pairs) (hne : outer ≠ inner)
    (hfree : (t.method.region inner).outer = none) :
    relation t.method outer inner = .ok .unrelated ∨ Stirred (p :: later) outer inner := by
  have hkeeps := hscan.keeps hp hn
  have hfree' := hkeeps.free hfree
  induction hscan generalizing hs with
  | done => cases hpair
  | pass hidle hrest ih =>
    rcases List.mem_cons.mp hpair with heq | hpair
    · cases heq
      have hrel := hidle hne hfree'
      rw [or_iff_not_imp_right]
      intro hcalm
      refine hkeeps.unrelated hn (hp.pairs _ List.mem_cons_self).1 (fun q hq j => ?_) hrel
      rcases List.mem_cons.mp hq with rfl | hq
      · simp [takes_cons, hrel]
      · rw [← not_or]
        exact fun htakes => hcalm ⟨_, _, List.suffix_refl _, rfl, q, hq, j, htakes⟩
    · exact (ih hp.pass hn.pass hpair hfree (hrest.keeps hp.pass hn.pass) hfree').imp id .cons
  | nest hne' hnested hrel hrest ih =>
    have hp' := (hp.step (step_of_nest hne' hnested hrel)).1
    have hn' := hn.step (step_of_nest hne' hnested hrel)
    have hfree' := (hrest.keeps hp' hn').free hfree
    rcases List.mem_cons.mp hpair with heq | hpair
    · cases heq
      have hi := hp.covering.lt _ (hp.pairs _ List.mem_cons_self).2
      cases hfree'.symm.trans (under_nestInto hi)
    · exact (ih hp' hn' hpair hfree (hrest.keeps hp' hn') hfree').imp id .cons

/-- A scan that leaves all links as they are leaves all pairs alone. -/
theorem Scan.idle_of_same (hscan : Scan p later t) (hp : p.Shared hs) (hn : p.InOrder base)
    (hsame : ∀ r, (t.method.region r).outer = (p.forest.get r).outer)
    (hpair : (outer, inner) ∈ p.pairs) : Idle p.state outer inner := by
  induction hscan generalizing hs with
  | done => cases hpair
  | pass hidle _ ih =>
    rcases List.mem_cons.mp hpair with heq | hpair
    · cases heq
      exact hidle
    · exact ih hp.pass hn.pass hsame hpair
  | nest hne hfree hrel hrest ih =>
    have hkeeps := hrest.keeps (hp.step (step_of_nest hne hfree hrel)).1
      (hn.step (step_of_nest hne hfree hrel))
    have hi := hp.covering.lt _ (hp.pairs _ List.mem_cons_self).2
    cases (hfree.symm.trans (hsame _).symm).trans (hkeeps.under _ _ (under_nestInto hi))

theorem exec_relatePairs_of_idle (h : ∀ pair ∈ pairs, Idle s pair.1 pair.2) :
    exec (relatePairs regions pairs) s = (.ok (regions, false), s) := by
  induction pairs with
  | nil => rfl
  | cons pair pairs ih =>
    obtain ⟨outer, inner⟩ := pair
    have hrest := ih fun q hq => h q (List.mem_cons_of_mem _ hq)
    rw [relatePairs, exec_bind]
    show exec (if outer = inner || (s.method.region inner).outer.isSome then _ else _) s = _
    split
    · exact hrest
    · rename_i hpair
      obtain ⟨hne, hfree⟩ : outer ≠ inner ∧ (s.method.region inner).outer = none := by
        simpa using hpair
      rw [exec_bind, exec_relate (h _ List.mem_cons_self hne hfree)]
      exact hrest

/-- A further scan changes nothing exactly if no pair asks for anything. -/
theorem combine_stable_iff (hp : (start s regions).Shared hs)
    (hn : (start s regions).InOrder base) :
    (∃ t, exec (combine regions) s = (.ok (regions, false), t) ∧
        ∀ r, t.method.region r = s.method.region r) ↔
      ∀ outer ∈ regions, ∀ inner ∈ regions, Idle s outer inner := by
  constructor
  · rintro ⟨t, hrun, hsame⟩ outer ho inner hi
    obtain ⟨-, later, hscan⟩ := scan_of_relatePairs hrun
    refine hscan.idle_of_same hp hn (fun r => congrArg Region.outer (hsame r)) ?_
    exact List.mem_flatMap.mpr ⟨outer, ho, List.mem_map.mpr ⟨inner, hi, rfl⟩⟩
  · intro hidle
    refine ⟨s, exec_relatePairs_of_idle fun pair hpair => ?_, fun _ => rfl⟩
    obtain ⟨ho, hi⟩ := mem_pairs_start (s := s) pair hpair
    exact hidle _ ho _ hi

/-- The combination is a number of restarts and a last scan, and each restart costs a region. -/
theorem exists_restarts {fuel : Nat} {result : List RegionId}
    (h : Nested base s.method.forest regions) (hfuel : regions.length ≤ fuel)
    (hrun : exec (combineAll fuel regions) s = (.ok result, t)) :
    ∃ k u, Restarts k s regions u result ∧
      exec (combine result) u = (.ok (result, false), t) ∧ k + result.length = regions.length := by
  induction fuel generalizing s regions with
  | zero =>
    obtain rfl := List.eq_nil_of_length_eq_zero (Nat.le_zero.mp hfuel)
    cases hrun
    exact ⟨0, _, .none, rfl, rfl⟩
  | succ fuel ih =>
    obtain ⟨⟨list, changed⟩, u, hscan, hrun⟩ := exec_bind_eq_ok.mp hrun
    have hgo := run_of_relatePairs (inOrder_start h) hscan
    cases changed with
    | false =>
      cases hrun
      obtain ⟨rfl, -⟩ := scan_of_relatePairs hscan
      exact ⟨0, s, .none, hscan, Nat.zero_add _⟩
    | true =>
      obtain ⟨hgo, hshorter⟩ := hgo
      have hnested : Nested base u.method.forest list := ((inOrder_start h).run hgo).nested
      obtain ⟨k, v, hrest, hlast, hlength⟩ := ih hnested (by omega) hrun
      exact ⟨k + 1, v, .again hscan hrest, hlast, by omega⟩

/-- Restarts are a run from point to point. -/
theorem Restarts.run {k : Nat} {result : List RegionId} (h : Restarts k s regions t result)
    (hn : Nested base s.method.forest regions) :
    ReflTransGen Step (start s regions) (start t result) := by
  induction h with
  | none => exact .refl
  | again hscan _ ih =>
    have hgo := (run_of_relatePairs (inOrder_start hn) hscan).1
    exact hgo.trans (ih ((inOrder_start hn).run hgo).nested)

end Combining

section Stable

open Combining

/-- When the combination of regions is done. For a fresh method the regions are combined in a number
of scans, the recovery goes on with what they leave, and a further scan changes neither the list nor
any region exactly if it leaves the pairs alone that were stirred in the last one: those with a
region that took in another one after the pair had been looked at. -/
theorem combination_stable_iff (c : Config) {m : Method} (hm : m.Fresh) :
    Nonempty (Stages c m) ∧ ∀ st : Stages c m,
      (m.registered ≠ [] → st.made ≠ [] → exec (recover c) { method := m } =
        exec (settling c st.combined >>= ending c) st.joined) ∧
      ∃ k u later, Restarts k st.opened st.made u st.combined ∧
        exec (combine st.combined) u = (.ok (st.combined, false), st.joined) ∧
        Scan (.start u st.combined) later st.joined ∧
        ((∃ t, exec (combine st.combined) st.joined = (.ok (st.combined, false), t) ∧
            ∀ r, t.method.region r = st.joined.method.region r) ↔
          ∀ outer ∈ st.combined, ∀ inner ∈ st.combined,
            Stirred (.start u st.combined :: later) outer inner → Idle st.joined outer inner) := by
  refine ⟨Stages.nonempty c hm, fun st => ⟨st.exec_recover_joined, ?_⟩⟩
  obtain ⟨hshared, base, horder⟩ := st.opened_shared hm
  obtain ⟨k, u, hrestarts, hlast, -⟩ :=
    exists_restarts horder.nested (Nat.le_refl _) st.combines
  obtain ⟨-, later, hscan⟩ := scan_of_relatePairs hlast
  have hrun := hrestarts.run horder.nested
  obtain ⟨hs, hshared'⟩ := hshared.at_run hrun
  have horder' := horder.run hrun
  obtain ⟨hs', hend⟩ := hshared.at_run st.trail.run
  have hstart : (start st.joined st.combined).Shared hs' :=
    { hend with pairs := mem_pairs_start }
  refine ⟨k, u, later, hrestarts, hlast, hscan, ?_⟩
  rw [combine_stable_iff hstart (inOrder_start (horder.run st.trail.run).nested)]
  constructor
  · exact fun hall outer ho inner hi _ => hall outer ho inner hi
  · intro hstirred outer ho inner hi hne hfree
    have hpair : (outer, inner) ∈ (start u st.combined).pairs :=
      List.mem_flatMap.mpr ⟨outer, ho, List.mem_map.mpr ⟨inner, hi, rfl⟩⟩
    rcases hscan.unrelated_or_stirred hshared' horder' hpair hne hfree with hrel | hstir
    · exact hrel
    · exact hstirred outer ho inner hi hstir hne hfree

/-- Handler 1 covers its own code, which is code of handler 2 as well. -/
def lateTwins : Method where
  name := "m"
  graph :=
    { blocks := #[
        { offset := 0, succs := [1] },
        { offset := 2, instrs := [{ opcode := .invoke, offset := 2, catches := some ⟨[0, 1]⟩ }],
          preds := [0], succs := [2, 4] },
        { offset := 4, instrs := [{ opcode := .invoke, offset := 4, catches := some ⟨[0, 2]⟩ }],
          preds := [1], succs := [3, 5] },
        { offset := 6, preds := [2] },
        { offset := 10, instrs := [{ opcode := .moveException, offset := 10, entry := some 0 }],
          preds := [1], tmpEdge := some 1 },
        { offset := 12, instrs := [{ opcode := .moveException, offset := 12, entry := some 2 }],
          preds := [2], succs := [6], tmpEdge := some 2 },
        { offset := 14, instrs := [
            { opcode := .moveException, offset := 14, entry := some 1 },
            { opcode := .invoke, offset := 15, catches := some ⟨[1]⟩ }],
          preds := [5], tmpEdge := some 5 }]
      live := [0, 1, 2, 3, 4, 5, 6] }
  enter := some 0
  handlers := #[{ number := 0, offset := 10, types := ["A"] },
    { number := 1, offset := 14, types := ["B"] }, { number := 2, offset := 12, types := ["C"] }]
  registered := [0, 1, 2]

def twinsOpened : State := (exec (opening {} lateTwins) { method := lateTwins }).2

def twinsCombined : State := (exec (combineAll 3 [0, 1, 2]) twinsOpened).2

theorem lateTwins_fresh : lateTwins.Fresh := by decide +kernel

theorem exec_opening_lateTwins :
    exec (opening {} lateTwins) { method := lateTwins } = (.ok [0, 1, 2], twinsOpened) :=
  Prod.ext (by decide +kernel) (by rw [twinsOpened])

theorem exec_combineAll_lateTwins :
    exec (combineAll 3 [0, 1, 2]) twinsOpened = (.ok [0, 1, 2], twinsCombined) :=
  Prod.ext (by decide +kernel) (by rw [twinsCombined])

theorem exec_combine_twinsCombined :
    (exec (combine [0, 1, 2]) twinsCombined).1 = .ok ([2, 3], true) := by decide +kernel

/-- A further scan may change the list: regions 0 and 1, which hold the same blocks in the end,
become one. -/
theorem combine_again_merges :
    lateTwins.Fresh ∧
      exec (opening {} lateTwins) { method := lateTwins } = (.ok [0, 1, 2], twinsOpened) ∧
      exec (combineAll 3 [0, 1, 2]) twinsOpened = (.ok [0, 1, 2], twinsCombined) ∧
      (twinsCombined.method.region 0).blocks = [1, 2] ∧
      (twinsCombined.method.region 1).blocks = [1, 2] ∧
      (exec (combine [0, 1, 2]) twinsCombined).1 = .ok ([2, 3], true) :=
  ⟨lateTwins_fresh, exec_opening_lateTwins, exec_combineAll_lateTwins, by decide +kernel,
    by decide +kernel, exec_combine_twinsCombined⟩

/-- A pair asks for a change because it was stirred after it had been looked at. -/
theorem combination_stable_iff_lateTwins :
    lateTwins.Fresh ∧ ∃ st : Stages {} lateTwins, st.combined = [0, 1, 2] ∧
      ∃ u later, Scan (.start u [0, 1, 2]) later st.joined ∧ ∃ outer inner,
        Stirred (.start u [0, 1, 2] :: later) outer inner ∧ ¬Idle st.joined outer inner := by
  obtain ⟨⟨st⟩, hall⟩ := combination_stable_iff {} lateTwins_fresh
  obtain ⟨-, k, u, later, -, -, hscan, hiff⟩ := hall st
  obtain ⟨hcombined, hjoined⟩ :=
    st.eq_of_combines exec_opening_lateTwins exec_combineAll_lateTwins
  rw [hcombined] at hscan hiff
  refine ⟨lateTwins_fresh, st, hcombined, u, later, hscan, ?_⟩
  by_contra hnone
  obtain ⟨t, hstable, -⟩ := hiff.mpr fun outer _ inner _ hstirred => by
    by_contra hidle
    exact hnone ⟨outer, inner, hstirred, hidle⟩
  have hagain := exec_combine_twinsCombined
  rw [← hjoined, hstable] at hagain
  cases hagain

end Stable

end TryRegions.Recovery
