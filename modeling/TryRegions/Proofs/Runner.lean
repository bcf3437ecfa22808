import TryRegions.Runner
import Mathlib.Data.List.Forall2

/-! Passes fail alone. A run goes over methods and passes and keeps one list of methods and one
error for all failures. All the same each method ends as if it were the only one: the passes are
called on it one after the other until one of them fails or leaves an error on it, the failure is
put on that method and is collected once, and no other method takes notice. -/

namespace TryRegions

/-- What passes make of a method that are all called on it and go well. -/
def Method.after (m : Method) (passes : List Pass) : Method :=
  passes.foldl (fun m p => (p.visit m).method) m

namespace Runner

/-- A failed visit `v` of the pass is on record: one failure, and one error with the code on the
method that the visit left. -/
def Marks (p : Pass) (v : Visit) (code : String) (m : Method) (failures : List Failure) : Prop :=
  ∃ f d, failures = [f] ∧ m = { v.method with diagnostics := v.method.diagnostics ++ [d] } ∧
    d.severity = .error ∧ d.code = code ∧ d.stage = p.name ∧ d.cause = some f.text

/-- What is on record after the visit `v` of a pass, which was the last one called. -/
structure Ends (r : Runner) (p : Pass) (v : Visit) (m : Method) (failures : List Failure) :
    Prop where
  done : v.result = .done → m = v.method ∧ failures = []
  failed : ∀ cause, v.result = .failed cause →
    Marks p v (if r.isInvariant.any fun check => check cause then "INTERNAL_INVARIANT"
      else "PASS_FAILED") m failures
  panicked : ∀ cause, v.result = .panicked cause → Marks p v "PASS_PANIC" m failures

/-- The method `m` became `m'`, with the failures, where the passes `called` were called and
`skipped` were not. No pass is called on a method with an error, and none after one that did not go
well. -/
structure Served (r : Runner) (m : Method) (called skipped : List Pass) (m' : Method)
    (failures : List Failure) : Prop where
  clear : ∀ before p rest, called = before ++ p :: rest → (m.after before).hasErrors = false ∧
    (rest ≠ [] → (p.visit (m.after before)).result = .done)
  stops : skipped ≠ [] → m'.hasErrors = true
  untouched : called = [] → m' = m ∧ failures = []
  ends : ∀ before p, called = before ++ [p] →
    Ends r p (p.visit (m.after before)) m' failures

section Visit

theorem marks_mark (p : Pass) (v : Visit) (code : String) (f : Failure) :
    Marks p v code (mark p.name v.method code f.text) [f] :=
  ⟨f, _, rfl, rfl, rfl, rfl, rfl, rfl⟩

theorem Marks.hasErrors {p : Pass} {v : Visit} {code : String} {m : Method}
    {failures : List Failure} (h : Marks p v code m failures) : m.hasErrors = true := by
  obtain ⟨f, d, -, rfl, hd, -⟩ := h
  simp [Method.hasErrors, hd]

variable {r : Runner} {p : Pass} {m : Method}

theorem visit_of_hasErrors (r : Runner) (p : Pass) (hm : m.hasErrors = true) :
    r.visit p m = { method := m } := by
  simp [visit, hm]

/-- A visit is a call, and what it ends with is on record. -/
theorem visit_of_clear (r : Runner) (p : Pass) (hm : m.hasErrors = false) :
    (r.visit p m).called = true ∧
      Ends r p (p.visit m) (r.visit p m).method (r.visit p m).failure.toList := by
  unfold visit
  rw [if_neg (Bool.eq_false_iff.mp hm)]
  dsimp only
  generalize p.visit m = v
  cases hresult : v.result with
  | done => exact ⟨rfl, ⟨fun _ => ⟨rfl, rfl⟩, by simp [hresult], by simp [hresult]⟩⟩
  | failed cause =>
    refine ⟨rfl, ⟨by simp [hresult], fun cause' hcause => ?_, by simp [hresult]⟩⟩
    cases hresult.symm.trans hcause
    exact marks_mark p v _ _
  | panicked cause =>
    exact ⟨rfl, ⟨by simp [hresult], by simp [hresult], fun _ _ => marks_mark p v _ _⟩⟩

variable {v : Visit} {failures : List Failure}

/-- A method that a pass failed on has an error, and there is one failure. -/
theorem Ends.of_ne_done (h : Ends r p v m failures) (hresult : v.result ≠ .done) :
    m.hasErrors = true ∧ ∃ f, failures = [f] := by
  have hmarks : ∀ {code}, Marks p v code m failures → m.hasErrors = true ∧ ∃ f, failures = [f] :=
    fun hmarks => ⟨hmarks.hasErrors, hmarks.imp fun _ ⟨_, hf, _⟩ => hf⟩
  cases hcause : v.result with
  | done => exact absurd hcause hresult
  | failed cause => exact hmarks (h.failed cause hcause)
  | panicked cause => exact hmarks (h.panicked cause hcause)

theorem Ends.failures_eq_nil_iff (h : Ends r p v m failures) :
    failures = [] ↔ v.result = .done := by
  refine ⟨fun hnone => ?_, fun hdone => (h.done hdone).2⟩
  by_contra hresult
  obtain ⟨-, f, hf⟩ := h.of_ne_done hresult
  rw [hnone] at hf
  cases hf

end Visit

/-- What passes do to one method. -/
structure Service where
  method : Method
  /-- How many of the passes were called. -/
  calls : Nat := 0
  failures : List Failure := []
  log : List LogEntry := []

/-- The visits of one method by the passes, apart from a run. -/
def serve (r : Runner) : List Pass → Method → Service
  | [], m => { method := m }
  | p :: ps, m =>
    let v := r.visit p m
    let rest := r.serve ps v.method
    { method := rest.method
      calls := v.called.toNat + rest.calls
      failures := v.failure.toList ++ rest.failures
      log := v.log ++ rest.log }

section Serve

variable {r : Runner} {p : Pass} {m m' m'' : Method} {called skipped passes : List Pass}
  {failures failures' : List Failure}

theorem serve_of_hasErrors (r : Runner) (passes : List Pass) (hm : m.hasErrors = true) :
    r.serve passes m = { method := m } := by
  induction passes with
  | nil => rfl
  | cons p ps ih =>
    rw [serve, visit_of_hasErrors r p hm]
    dsimp only
    rw [ih]
    rfl

theorem Served.called_eq_nil (h : Served r m called skipped m' failures)
    (hm : m.hasErrors = true) : called = [] := by
  cases called with
  | nil => rfl
  | cons p called =>
    have hclear : m.hasErrors = false := (h.clear [] p called rfl).1
    rw [hm] at hclear
    cases hclear

/-- One more pass is called in front. -/
theorem Served.cons (hm : m.hasErrors = false) (hfirst : Ends r p (p.visit m) m' failures)
    (hrest : Served r m' called skipped m'' failures') :
    Served r m (p :: called) skipped m'' (failures ++ failures') := by
  -- Further passes are called only if this one went well.
  have hdone : called ≠ [] → (p.visit m).result = .done := by
    intro hmore
    by_contra hresult
    exact hmore (hrest.called_eq_nil (hfirst.of_ne_done hresult).1)
  constructor
  · rintro before q after hat
    cases before with
    | nil =>
      obtain ⟨rfl, rfl⟩ := List.cons_eq_cons.mp hat
      exact ⟨hm, hdone⟩
    | cons p' before =>
      obtain ⟨rfl, rfl⟩ := List.cons_eq_cons.mp hat
      have hclear := hrest.clear before q after rfl
      rwa [(hfirst.done (hdone (by simp))).1] at hclear
  · exact hrest.stops
  · nofun
  · rintro before q hat
    cases before with
    | nil =>
      obtain ⟨rfl, rfl⟩ := List.cons_eq_cons.mp hat
      obtain ⟨hmethod, hfailures⟩ := hrest.untouched rfl
      rw [hmethod, hfailures, List.append_nil]
      exact hfirst
    | cons p' before =>
      obtain ⟨rfl, rfl⟩ := List.cons_eq_cons.mp hat
      obtain ⟨hmethod, hfailures⟩ := hfirst.done (hdone (by simp))
      have hends := hrest.ends before q rfl
      rw [hmethod] at hends
      rwa [hfailures, List.nil_append]

/-- The passes are called on a method up to and including the first one that does not go well. -/
theorem served_serve (r : Runner) (passes : List Pass) (m : Method) :
    ∃ called skipped, passes = called ++ skipped ∧ (r.serve passes m).calls = called.length ∧
      Served r m called skipped (r.serve passes m).method (r.serve passes m).failures := by
  induction passes generalizing m with
  | nil => exact ⟨[], [], rfl, rfl, ⟨by simp, nofun, fun _ => ⟨rfl, rfl⟩, by simp⟩⟩
  | cons p ps ih =>
    cases hm : m.hasErrors with
    | false =>
      obtain ⟨called, skipped, hpasses, hcalls, hrest⟩ := ih (r.visit p m).method
      obtain ⟨hcalled, hfirst⟩ := visit_of_clear r p hm
      refine ⟨p :: called, skipped, congrArg (p :: ·) hpasses, ?_, .cons hm hfirst hrest⟩
      rw [serve, List.length_cons, hcalled, ← hcalls]
      exact Nat.add_comm ..
    | true =>
      rw [serve_of_hasErrors r (p :: ps) hm]
      exact ⟨[], p :: ps, rfl, rfl, ⟨by simp, fun _ => hm, fun _ => ⟨rfl, rfl⟩, by simp⟩⟩

/-- There is a failure if the last pass called did not go well, and then there is one. -/
theorem Served.failures_ne_nil_iff (h : Served r m called skipped m' failures) :
    failures ≠ [] ↔
      ∃ before p, called = before ++ [p] ∧ (p.visit (m.after before)).result ≠ .done := by
  constructor
  · intro hsome
    rcases List.eq_nil_or_concat called with hnone | ⟨before, p, hlast⟩
    · exact absurd (h.untouched hnone).2 hsome
    · rw [List.concat_eq_append] at hlast
      exact ⟨before, p, hlast, fun hdone =>
        hsome ((h.ends before p hlast).failures_eq_nil_iff.mpr hdone)⟩
  · rintro ⟨before, p, hlast, hresult⟩ hnone
    exact hresult ((h.ends before p hlast).failures_eq_nil_iff.mp hnone)

theorem Served.failures_cases (h : Served r m called skipped m' failures) :
    failures = [] ∨ ∃ f, failures = [f] := by
  by_cases hsome : failures = []
  · exact Or.inl hsome
  · obtain ⟨before, p, hlast, hresult⟩ := h.failures_ne_nil_iff.mp hsome
    exact Or.inr ((h.ends before p hlast).of_ne_done hresult).2

theorem serve_failures_cases (r : Runner) (passes : List Pass) (m : Method) :
    (r.serve passes m).failures = [] ∨ ∃ f, (r.serve passes m).failures = [f] := by
  obtain ⟨called, skipped, -, -, hserved⟩ := served_serve r passes m
  exact hserved.failures_cases

end Serve

section Run

variable (r : Runner) (passes : List Pass)

theorem error_eq_none_iff {u : Run} : u.error = none ↔ u.failures = [] := by
  unfold Run.failures
  cases u.error with
  | none => exact ⟨fun _ => rfl, fun _ => rfl⟩
  | some e => exact ⟨nofun, fun h => absurd h e.nonempty⟩

/-- What a run did with what passes do to the method at place `i`; the first of them has the given
place. -/
structure Records (u v : Run) (i place : Nat) (s : Service) : Prop where
  methods : v.methods = u.methods.set i s.method
  calls : v.calls = u.calls ++ (List.range' place s.calls).map fun n => ⟨i, n⟩
  failures : v.failures = u.failures ++ s.failures

theorem Records.callsOn {u v : Run} {i place : Nat} {s : Service} (h : Records u v i place s)
    (j : Nat) :
    v.callsOn j = u.callsOn j ++ if j = i then List.range' place s.calls else [] := by
  unfold Run.callsOn
  rw [h.calls, List.filter_append, List.map_append, List.filter_map]
  congr 1
  split
  · rename_i heq
    simp [heq, Function.comp_def]
  · rename_i hne
    simp [Function.comp_def, Ne.symm hne]

/-- One visit in a run does what it does apart from it, and all else stays as it is. -/
theorem records_visitAt (p : Pass) (place : Nat) {u : Run} {i : Nat} {m : Method}
    (hm : u.methods[i]? = some m) :
    Records u (r.visitAt i u (p, place)) i place
      { method := (r.visit p m).method, calls := (r.visit p m).called.toNat
        failures := (r.visit p m).failure.toList } := by
  unfold visitAt
  rw [hm]
  refine ⟨rfl, ?_, ?_⟩
  · dsimp only
    cases (r.visit p m).called with
    | true => rfl
    | false => exact (List.append_nil _).symm
  · unfold Run.failures
    dsimp only
    cases (r.visit p m).failure with
    | none => exact (List.append_nil _).symm
    | some f => rfl

/-- The passes do to a method in a run what they do to it apart from a run. -/
theorem records_passes (place : Nat) {u : Run} {i : Nat} {m : Method}
    (hm : u.methods[i]? = some m) :
    Records u ((passes.zipIdx place).foldl (r.visitAt i) u) i place (r.serve passes m) := by
  induction passes generalizing place u m with
  | nil =>
    obtain ⟨hi, rfl⟩ := List.getElem?_eq_some_iff.mp hm
    exact ⟨(List.set_getElem_self hi).symm, (List.append_nil _).symm, (List.append_nil _).symm⟩
  | cons p ps ih =>
    have hfirst := records_visitAt r p place hm
    have hrest := ih (place + 1) (u := r.visitAt i u (p, place)) (m := (r.visit p m).method) (by
      rw [hfirst.methods, List.getElem?_set_self (List.getElem?_eq_some_iff.mp hm).1])
    rw [List.zipIdx_cons, List.foldl_cons, serve]
    refine ⟨?_, ?_, ?_⟩
    · rw [hrest.methods, hfirst.methods, List.set_set]
    · rw [hrest.calls, hfirst.calls, List.append_assoc, ← List.map_append]
      -- A pass that is not called leaves a method on which the later ones are not called either.
      cases hclear : m.hasErrors with
      | false =>
        rw [(visit_of_clear r p hclear).1, Bool.toNat_true, Nat.add_comm 1, List.range'_succ]
        rfl
      | true =>
        rw [visit_of_hasErrors r p hclear, serve_of_hasErrors r ps hclear]
        rfl
    · rw [hrest.failures, hfirst.failures, List.append_assoc]

/-- A run that has the methods `rest` before it serves them in turn. -/
theorem foldl_visits (done rest : List Method) {u : Run} (hu : u.methods = done ++ rest) :
    let v := (List.range' done.length rest.length).foldl
      (fun u i => passes.zipIdx.foldl (r.visitAt i) u) u
    v.methods = done ++ rest.map (fun m => (r.serve passes m).method) ∧
      v.failures = u.failures ++ rest.flatMap (fun m => (r.serve passes m).failures) ∧
      ∀ i, v.callsOn i = u.callsOn i ++ if i < done.length then [] else
        (rest[i - done.length]?).elim [] fun m => List.range (r.serve passes m).calls := by
  induction rest generalizing done u with
  | nil => simp [hu]
  | cons m rest ih =>
    have hm : u.methods[done.length]? = some m := by simp [hu]
    have hfirst := records_passes r passes 0 hm
    have hmethods : (passes.zipIdx.foldl (r.visitAt done.length) u).methods =
        (done ++ [(r.serve passes m).method]) ++ rest := by
      simp [hfirst.methods, hu]
    obtain ⟨hmethods, hfailures, hcalls⟩ := ih _ hmethods
    rw [List.length_append, List.length_singleton] at hmethods hfailures hcalls
    rw [List.length_cons, List.range'_succ, List.foldl_cons]
    refine ⟨?_, ?_, fun i => ?_⟩
    · rw [hmethods, List.append_assoc]
      rfl
    · rw [hfailures, hfirst.failures, List.append_assoc]
      rfl
    · rw [hcalls, hfirst.callsOn, List.append_assoc]
      congr 1
      rcases Nat.lt_trichotomy i done.length with hlt | rfl | hgt
      · rw [if_neg (Nat.ne_of_lt hlt), if_pos (Nat.lt_succ_of_lt hlt), if_pos hlt]
        rfl
      · simp [List.range_eq_range']
      · obtain ⟨k, rfl⟩ := Nat.exists_eq_add_of_lt hgt
        have hcut : done.length + k + 1 - (done.length + 1) = k ∧
            done.length + k + 1 - done.length = k + 1 := by omega
        rw [if_neg (by omega), if_neg (by omega), if_neg (by omega), hcut.1, hcut.2,
          List.getElem?_cons_succ, List.nil_append]

/-- A run does to each method what the passes do to it apart from a run. -/
theorem run_serves (methods : List Method) :
    (r.run passes methods).methods = methods.map (fun m => (r.serve passes m).method) ∧
      (r.run passes methods).failures = methods.flatMap (fun m => (r.serve passes m).failures) ∧
      ∀ i, (r.run passes methods).callsOn i =
        (methods[i]?).elim [] fun m => List.range (r.serve passes m).calls := by
  obtain ⟨hmethods, hfailures, hcalls⟩ :=
    foldl_visits r passes [] methods (u := { methods }) rfl
  rw [List.length_nil, ← List.range_eq_range'] at hmethods hfailures hcalls
  exact ⟨hmethods, hfailures, fun i => (hcalls i).trans (by simp [Run.callsOn])⟩

theorem run_singleton (m : Method) :
    (r.run passes [m]).methods = [(r.serve passes m).method] ∧
      (r.run passes [m]).failures = (r.serve passes m).failures := by
  obtain ⟨hmethods, hfailures, -⟩ := run_serves r passes [m]
  exact ⟨hmethods, hfailures.trans (List.append_nil _)⟩

end Run

end Runner

/-- Lists of which none has two elements, put together: one element for each that has any. -/
theorem forall₂_flatMap {α β : Type} {l : List α} {f : α → List β}
    (hone : ∀ a ∈ l, f a = [] ∨ ∃ b, f a = [b]) :
    List.Forall₂ (fun a b => f a = [b]) (l.filter fun a => !(f a).isEmpty) (l.flatMap f) := by
  induction l with
  | nil => exact .nil
  | cons a l ih =>
    have hrest := ih fun b hb => hone b (List.mem_cons_of_mem _ hb)
    rw [List.flatMap_cons]
    rcases hone a List.mem_cons_self with hnone | ⟨b, hb⟩
    · rwa [hnone, List.filter_cons_of_neg (by simp [hnone])]
    · rw [hb, List.filter_cons_of_pos (by simp [hb])]
      exact .cons hb hrest

namespace Runner

/-- Passes fail alone. In a run over any methods the passes are called on each of them in order up
to and including the first one that fails, breaks down or leaves an error; a method with an error is
left as it is. A failure adds one error to the method it happened on, with the code of its kind.
Each method ends as in a run over it alone. And the error that the run returns holds the failures of
the methods in turn, one for each that a pass failed on. -/
theorem run_isolates (r : Runner) (passes : List Pass) (methods : List Method) :
    (r.run passes methods).methods.length = methods.length ∧
    (∀ i m, methods[i]? = some m → ∃ called skipped m' failures,
      passes = called ++ skipped ∧ (r.run passes methods).methods[i]? = some m' ∧
        (r.run passes methods).callsOn i = List.range called.length ∧
        Served r m called skipped m' failures ∧
        (failures ≠ [] ↔ ∃ before p, called = before ++ [p] ∧
          (p.visit (m.after before)).result ≠ .done) ∧
        (r.run passes [m]).methods = [m'] ∧ (r.run passes [m]).failures = failures) ∧
    List.Forall₂ (fun m f => (r.run passes [m]).failures = [f])
      (methods.filter fun m => (r.run passes [m]).error.isSome)
      (r.run passes methods).failures ∧
    ((r.run passes methods).error = none ↔
      ∀ m ∈ methods, (r.run passes [m]).error = none) := by
  obtain ⟨hmethods, hfailures, hcalls⟩ := run_serves r passes methods
  refine ⟨by rw [hmethods, List.length_map], fun i m hm => ?_, ?_, ?_⟩
  · obtain ⟨called, skipped, hpasses, hcount, hserved⟩ := served_serve r passes m
    obtain ⟨halone, hfailed⟩ := run_singleton r passes m
    refine ⟨called, skipped, _, _, hpasses, ?_, ?_, hserved, hserved.failures_ne_nil_iff, halone,
      hfailed⟩
    · rw [hmethods, List.getElem?_map, hm]
      rfl
    · rw [hcalls, hm, ← hcount]
      rfl
  · have hone := forall₂_flatMap fun m (_ : m ∈ methods) => serve_failures_cases r passes m
    have hfilter : (methods.filter fun m => (r.run passes [m]).error.isSome) =
        methods.filter fun m => !(r.serve passes m).failures.isEmpty := by
      refine List.filter_congr fun m _ => ?_
      rw [← (run_singleton r passes m).2, Bool.eq_iff_iff, Option.isSome_iff_ne_none, ne_eq,
        error_eq_none_iff]
      simp
    rw [hfailures, hfilter]
    exact hone.imp fun m f hf => (run_singleton r passes m).2.trans hf
  · rw [error_eq_none_iff, hfailures, List.flatMap_eq_nil_iff]
    refine forall₂_congr fun m _ => ?_
    rw [error_eq_none_iff, (run_singleton r passes m).2]

/-- A pass that leaves methods as they are and ends by their names. -/
def fragile (name : String) (result : String → VisitResult) : Pass where
  name := name
  visit m := { result := result m.name, method := m }

/-- The first pass fails on the method `a`, and the second one breaks down on the method `c`. -/
def fragilePasses : List Pass :=
  [fragile "first" fun m => if m = "a" then .failed ⟨"broken", true⟩ else .done,
    fragile "second" fun m => if m = "c" then .panicked "lost" else .done]

/-- Of three methods two fail, each in its own way, and the one between them is served as if it were
alone. -/
theorem run_isolates_fragile :
    let u := run { isInvariant := some Failure.invariant } fragilePasses
      [{ name := "a" }, { name := "b" }, { name := "c" }]
    u.failures = [⟨"first failed in a: broken", true⟩, ⟨"panic in second: lost", false⟩] ∧
      u.callsOn 0 = [0] ∧ u.callsOn 1 = [0, 1] ∧ u.callsOn 2 = [0, 1] ∧
      u.methods.map (fun m => m.diagnostics.map fun d => d.code) =
        [["INTERNAL_INVARIANT"], [], ["PASS_PANIC"]] ∧
      ∃ m, u.methods[1]? = some m ∧
        (run { isInvariant := some Failure.invariant } fragilePasses [{ name := "b" }]).methods =
          [m] := by
  obtain ⟨-, heach, -⟩ := run_isolates { isInvariant := some Failure.invariant } fragilePasses
    [{ name := "a" }, { name := "b" }, { name := "c" }]
  obtain ⟨_, _, m, _, -, hm, -, -, -, halone, -⟩ := heach 1 { name := "b" } rfl
  exact ⟨by decide +kernel, by decide +kernel, by decide +kernel, by decide +kernel,
    by decide +kernel, m, hm, halone⟩

end Runner

end TryRegions
