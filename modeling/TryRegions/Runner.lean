import TryRegions.Recovery.Pass

/-! Passes run over methods. A failure is recorded on the method in which it happened and stops the
passes on that method only. -/

namespace TryRegions

/-- A failure that a pass or a run reports. -/
structure Failure where
  text : String
  /-- The pass met a structure that a method cannot have. -/
  invariant : Bool
deriving DecidableEq, Repr

/-- How the visit of a method ends. -/
inductive VisitResult where
  | done
  /-- The pass gave up. -/
  | failed (cause : Failure)
  /-- The pass broke down. -/
  | panicked (cause : String)
deriving DecidableEq, Repr

/-- What a visit leaves. -/
structure Visit where
  result : VisitResult := .done
  method : Method
  log : List LogEntry := []

structure Pass where
  name : String
  visit : Method → Visit

namespace Recovery

/-- The recovery of try regions as a pass. -/
def pass (c : Config) : Pass where
  name := passName
  visit m :=
    let o := process c m
    let result := match o.result with
      | .ok _ => .done
      | .error (.violation v) => .failed ⟨violationText o.method.name v.reason, true⟩
      | .error (.fault f) => .panicked f.message
    { result, method := o.method, log := o.log }

end Recovery

/-- How a runner reports. -/
structure Runner where
  /-- Tells which failures are those of a broken invariant, which have a code of their own. -/
  isInvariant : Option (Failure → Bool) := none
  level : LogLevel := .disabled
deriving Inhabited

/-- What the visit of a method by a runner leaves. -/
structure VisitReport where
  method : Method
  /-- Whether the pass was called. -/
  called : Bool := false
  failure : Option Failure := none
  log : List LogEntry := []

/-- The failures of a run taken together. -/
structure RunError where
  failures : List Failure
  nonempty : failures ≠ []
deriving DecidableEq, Repr

/-- One more failure, with those that were collected before. -/
def RunError.append (e : Option RunError) (f : Failure) : RunError :=
  ⟨e.elim [] RunError.failures ++ [f], List.append_ne_nil_of_right_ne_nil _ (List.cons_ne_nil f [])⟩

/-- A call of a pass: the place of the method among the methods and of the pass among the passes. -/
structure Call where
  method : Nat
  pass : Nat
deriving DecidableEq, Repr

/-- What a run did so far, and in the end what it leaves and returns. -/
structure Run where
  /-- The methods as the passes left them. -/
  methods : List Method
  /-- The calls of passes, in the order in which they were made. -/
  calls : List Call := []
  /-- The error that stands for all failures, none without one. -/
  error : Option RunError := none
  log : List LogEntry := []

namespace Run

/-- The failures that were collected. -/
def failures (u : Run) : List Failure := u.error.elim [] RunError.failures

/-- The passes that were called on the method at the given place, by their places. -/
def callsOn (u : Run) (i : Nat) : List Nat := (u.calls.filter fun c => c.method = i).map Call.pass

end Run

namespace Runner

/-- Adds an error diagnostic about a failed pass. -/
def mark (pass : String) (m : Method) (code text : String) : Method :=
  m.addError pass code (pass ++ " pass failed") (some text)

/-- The failure that the result of a visit stands for, and the code it is reported with. -/
def failureOf (r : Runner) (pass : String) (method : String) :
    VisitResult → Option (Failure × String)
  | .done => none
  | .failed cause =>
    let code := if r.isInvariant.any fun check => check cause then "INTERNAL_INVARIANT"
      else "PASS_FAILED"
    some (⟨pass ++ " failed in " ++ method ++ ": " ++ cause.text, cause.invariant⟩, code)
  | .panicked cause => some (⟨"panic in " ++ pass ++ ": " ++ cause, false⟩, "PASS_PANIC")

/-- Runs the pass on a method, unless the method carries an error. -/
def visit (r : Runner) (p : Pass) (m : Method) : VisitReport :=
  if m.hasErrors then { method := m }
  else
    let v := p.visit m
    match r.failureOf p.name v.method.name v.result with
    | none => { method := v.method, called := true, log := v.log }
    | some (failure, code) =>
      let event := .passFailed p.name failure.text
      { method := mark p.name v.method code failure.text
        called := true
        failure := some failure
        log := v.log ++ LogEntry.shown r.level [⟨v.method.name, event⟩] }

/-- Runs a pass, given with its place, on the method at place `i`. The method is left in its place,
and a failure goes to those that were collected. -/
def visitAt (r : Runner) (i : Nat) (u : Run) (p : Pass × Nat) : Run :=
  match u.methods[i]? with
  | none => u
  | some m =>
    let v := r.visit p.1 m
    { methods := u.methods.set i v.method
      calls := if v.called then u.calls ++ [⟨i, p.2⟩] else u.calls
      error := v.failure.elim u.error fun f => some (.append u.error f)
      log := u.log ++ v.log }

/-- Runs the passes in order on every method. -/
def run (r : Runner) (passes : List Pass) (methods : List Method) : Run :=
  (List.range methods.length).foldl (fun u i => passes.zipIdx.foldl (r.visitAt i) u) { methods }

end Runner

end TryRegions
