import TryRegions.Proofs.Recovery.Waiting

/-! The queue of regions that are to be wired, attempt by attempt. An attempt wires its region,
which leaves the queue, or puts it off and leaves the method as it is. The queue counts attempts, so
that there are no more than the limit allows and one for each region. -/

namespace TryRegions.Recovery

open RecoverM

section Waiting

/-- Nothing of the method changes but clean edges. -/
structure Unmoved (s t : State) : Prop where
  method : t.method = { s.method with graph := t.method.graph }
  live : t.method.graph.live = s.method.graph.live
  version : t.method.graph.version = s.method.graph.version
  block : ∀ b, (t.method.graph.block? b).map (fun k => { k with clean := [] }) =
    (s.method.graph.block? b).map fun k => { k with clean := [] }

variable {s t : State}

theorem Unmoved.refreshAll (s : State) : Unmoved s (s.withGraph s.method.graph.refreshAll) where
  method := rfl
  live := (Graph.Annotated.refreshAll _).live
  version := (Graph.Annotated.refreshAll _).version
  block b := Graph.map_block?_refreshAll _ (fun _ _ => rfl) _ b

/-- A region that has to wait leaves the method as it is. -/
theorem unmoved_of_wrap {r : RegionId} (h : exec (wrap r) s = (.ok false, t)) : Unmoved s t := by
  have unmoved := Unmoved.refreshAll s
  have hmethod := (alike_of_wrap h).method
  constructor
  case method =>
    rw [hmethod]
    exact unmoved.method
  case live =>
    rw [hmethod]
    exact unmoved.live
  case version =>
    rw [hmethod]
    exact unmoved.version
  case block =>
    rw [hmethod]
    exact unmoved.block

end Waiting

section Queue

/-- An attempt to wire a region. -/
structure Attempt where
  region : RegionId
  before : State
  result : Except Stop Bool
  after : State

/-- The attempt wired its region. -/
def Attempt.completes (a : Attempt) : Bool :=
  match a.result with
  | .ok done => done
  | .error _ => false

/-- The regions that were wired, in turn. -/
def completed (attempts : List Attempt) : List RegionId :=
  (attempts.filter Attempt.completes).map Attempt.region

/-- The attempts that are made for a queue when `n` were made before, and what they end with. -/
inductive Attempts (limit : Int) :
    Nat → State → List RegionId → List Attempt → Except Stop Unit × State → Prop where
  | done {n s} : Attempts limit n s [] [] (.ok (), s)
  | stopped {n s r rest e t} (hwrap : exec (wrap r) s = (.error e, t)) :
      Attempts limit n s (r :: rest) [⟨r, s, .error e, t⟩] (.error e, t)
  | exhausted {n s r rest t} (hwrap : exec (wrap r) s = (.ok false, t))
      (hlimit : limit ≤ (n + 1 : Nat)) :
      Attempts limit n s (r :: rest) [⟨r, s, .ok false, t⟩]
        (.error (.violation (.queueLimit (n + 1))), t)
  | wired {n s r rest t later out} (hwrap : exec (wrap r) s = (.ok true, t))
      (hrest : Attempts limit (n + 1) t rest later out) :
      Attempts limit n s (r :: rest) (⟨r, s, .ok true, t⟩ :: later) out
  | postponed {n s r rest t later out} (hwrap : exec (wrap r) s = (.ok false, t))
      (hlimit : (n + 1 : Nat) < limit)
      (hrest : Attempts limit (n + 1) t (rest ++ [r]) later out) :
      Attempts limit n s (r :: rest) (⟨r, s, .ok false, t⟩ :: later) out

variable {limit : Int} {n fuel : Nat} {s : State} {queue : List RegionId}
  {attempts : List Attempt} {out : Except Stop Unit × State}

/-- With enough fuel the queue is worked off as if there were no fuel, and each attempt lowers what
is left of the limit or the length of the queue. -/
theorem exists_attempts (hfuel : (limit - n).toNat + queue.length ≤ fuel) :
    ∃ attempts, Attempts limit n s queue attempts (exec (wrapQueue limit fuel n queue) s) ∧
      attempts.length ≤ (limit - n).toNat + queue.length := by
  induction fuel generalizing n s queue with
  | zero =>
    obtain rfl : queue = [] := List.eq_nil_of_length_eq_zero (by omega)
    exact ⟨[], .done, Nat.zero_le _⟩
  | succ fuel ih =>
    cases queue with
    | nil => exact ⟨[], .done, Nat.zero_le _⟩
    | cons r rest =>
      rw [List.length_cons] at hfuel ⊢
      rw [wrapQueue, exec_bind]
      cases hwrap : exec (wrap r) s with
      | mk result t =>
        cases result with
        | error e =>
          refine ⟨_, .stopped hwrap, ?_⟩
          rw [List.length_singleton]
          omega
        | ok wired =>
          cases wired with
          | true =>
            have hrest : (limit - (n + 1 : Nat)).toNat + rest.length ≤ fuel := by omega
            obtain ⟨later, hlater, hlength⟩ := ih (s := t) hrest
            refine ⟨_, .wired hwrap hlater, ?_⟩
            rw [List.length_cons]
            omega
          | false =>
            show ∃ attempts, Attempts limit n s (r :: rest) attempts
              (exec (if limit ≤ (n + 1 : Nat) then violate (.queueLimit (n + 1))
                else wrapQueue limit fuel (n + 1) (rest ++ [r])) t) ∧ _
            split
            · rename_i hlimit
              refine ⟨_, .exhausted hwrap hlimit, ?_⟩
              rw [List.length_singleton]
              omega
            · rename_i hlimit
              have hlength : (rest ++ [r]).length = rest.length + 1 := by simp
              have hrest : (limit - (n + 1 : Nat)).toNat + (rest ++ [r]).length ≤ fuel := by omega
              obtain ⟨later, hlater, hbound⟩ := ih (s := t) hrest
              refine ⟨_, .postponed hwrap (by omega) hlater, ?_⟩
              rw [List.length_cons]
              omega

/-- A region that is put off stays as it is, with all of the method. -/
theorem Attempts.unmoved (h : Attempts limit n s queue attempts out) :
    ∀ a ∈ attempts, a.result = .ok false → Unmoved a.before a.after := by
  induction h with
  | done =>
    intro a ha
    cases ha
  | stopped _ =>
    intro a ha hresult
    cases List.mem_singleton.mp ha
    cases hresult
  | exhausted hwrap _ =>
    intro a ha _
    cases List.mem_singleton.mp ha
    exact unmoved_of_wrap hwrap
  | wired _ _ ih =>
    intro a ha hresult
    rcases List.mem_cons.mp ha with rfl | ha
    · cases hresult
    · exact ih a ha hresult
  | postponed hwrap _ _ ih =>
    intro a ha hresult
    rcases List.mem_cons.mp ha with rfl | ha
    · exact unmoved_of_wrap hwrap
    · exact ih a ha hresult

/-- Attempts that end well wire each region of the queue once. -/
theorem Attempts.perm_completed (h : Attempts limit n s queue attempts out)
    (hout : out.1 = .ok ()) : (completed attempts).Perm queue := by
  induction h with
  | done => exact .nil
  | stopped _ => cases hout
  | exhausted _ _ => cases hout
  | wired _ _ ih => exact (ih hout).cons _
  | postponed _ _ _ ih => exact (ih hout).trans (List.perm_append_singleton _ _)

/-- Before each attempt, the regions that were wired and those that are still in the queue are those
that were in the queue. -/
theorem Attempts.perm_before (h : Attempts limit n s queue attempts out)
    {before after : List Attempt} {a : Attempt} (hat : attempts = before ++ a :: after) :
    ∃ rest, (completed before ++ a.region :: rest).Perm queue := by
  induction h generalizing before with
  | done => simp at hat
  | stopped _ | exhausted _ _ =>
    cases before with
    | nil =>
      cases hat
      exact ⟨_, .refl _⟩
    | cons b before => simp at hat
  | wired _ _ ih =>
    cases before with
    | nil =>
      cases hat
      exact ⟨_, .refl _⟩
    | cons b before =>
      obtain ⟨rfl, hlater⟩ := List.cons_eq_cons.mp hat
      obtain ⟨rest, hrest⟩ := ih hlater
      exact ⟨rest, hrest.cons _⟩
  | postponed _ _ _ ih =>
    cases before with
    | nil =>
      cases hat
      exact ⟨_, .refl _⟩
    | cons b before =>
      obtain ⟨rfl, hlater⟩ := List.cons_eq_cons.mp hat
      obtain ⟨rest, hrest⟩ := ih hlater
      exact ⟨rest, hrest.trans (List.perm_append_singleton _ _)⟩

/-- A region is attempted until it was wired as often as it was in the queue. -/
theorem Attempts.count_completed_lt (h : Attempts limit n s queue attempts out)
    {before after : List Attempt} {a : Attempt} (hat : attempts = before ++ a :: after) :
    (completed before).count a.region < queue.count a.region := by
  obtain ⟨rest, hrest⟩ := h.perm_before hat
  have hcount := hrest.count_eq a.region
  rw [List.count_append, List.count_cons_self] at hcount
  omega

/-- A region that is in the queue once is not attempted after it was wired. -/
theorem Attempts.not_mem_completed (h : Attempts limit n s queue attempts out)
    (hnodup : queue.Nodup) {before after : List Attempt} {a : Attempt}
    (hat : attempts = before ++ a :: after) : a.region ∉ completed before := by
  have hlt := h.count_completed_lt hat
  have hone := List.nodup_iff_count_le_one.mp hnodup a.region
  exact List.count_eq_zero.mp (by omega)

end Queue

end TryRegions.Recovery
