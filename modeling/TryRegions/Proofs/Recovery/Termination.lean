import TryRegions.Proofs.Recovery.Attempts
import TryRegions.Proofs.Recovery.Stability

/-! How long the two loops of a recovery may go on. Each new scan of the pairs of regions costs a
region, of which one is left; each attempt to wire a region empties the queue or uses up the
limit. -/

open Relation

namespace TryRegions.Recovery

open RecoverM Forest

namespace Combining

variable {base k : Nat} {s t : State} {regions result : List RegionId}

/-- There are two regions where a scan changes the list of regions. -/
theorem exists_ne_of_changed {pairs : List (RegionId × RegionId)}
    (hpairs : ∀ q ∈ pairs, q.1 ∈ regions ∧ q.2 ∈ regions)
    (hrun : exec (relatePairs regions pairs) s = (.ok (result, true), t)) :
    ∃ o ∈ regions, ∃ i ∈ regions, o ≠ i := by
  induction pairs generalizing s with
  | nil => cases hrun
  | cons pair pairs ih =>
    obtain ⟨outer, inner⟩ := pair
    have hrest := fun q hq => hpairs q (List.mem_cons_of_mem _ hq)
    obtain ⟨ho, hi⟩ := hpairs _ List.mem_cons_self
    obtain ⟨m, _, hm, hrun⟩ := exec_bind_eq_ok.mp hrun
    cases hm
    split at hrun
    · exact ih hrest hrun
    · rename_i hpair
      have hne : outer ≠ inner := by
        rintro rfl
        simp at hpair
      exact ⟨outer, ho, inner, hi, hne⟩

/-- Restarts leave a region. -/
theorem Restarts.ne_nil (h : Restarts k s regions t result)
    (hn : Nested base s.method.forest regions) (hsome : regions ≠ []) : result ≠ [] := by
  induction h with
  | none => exact hsome
  | again hscan _ ih =>
    obtain ⟨hgo, hlength⟩ := run_of_relatePairs (inOrder_start hn) hscan
    obtain ⟨o, ho, i, hi, hne⟩ := exists_ne_of_changed (inOrder_start hn).pairs hscan
    apply ih ((inOrder_start hn).run hgo).nested
    rintro rfl
    obtain ⟨x, rfl⟩ := List.length_eq_one_iff.mp hlength.symm
    exact hne ((List.mem_singleton.mp ho).trans (List.mem_singleton.mp hi).symm)

end Combining

open Combining

/-- Both loops of a recovery end, and soon. For a fresh method with `n` handlers left, the
combination of regions starts at most `n - 1` scans anew before the recovery goes on, and at each of
its points a walk outwards from a region ends, also when a region is just being added. For any list
of regions, wiring makes at most one attempt for each and as many as the limit says; an attempt that
is put off changes nothing but clean edges, a region is attempted only until it is wired, and where
wiring ends well each one was wired once. -/
theorem loops_bounded :
    (∀ (c : Config) (m : Method), m.Fresh → Nonempty (Stages c m) ∧ ∀ st : Stages c m,
      (m.registered ≠ [] → st.made ≠ [] → exec (recover c) { method := m } =
        exec (settling c st.combined >>= ending c) st.joined) ∧
      (∃ k u, Restarts k st.opened st.made u st.combined ∧
        exec (combine st.combined) u = (.ok (st.combined, false), st.joined) ∧
        k ≤ st.opened.method.registered.length - 1) ∧
      ∀ p, ReflTransGen Step (.start st.opened st.made) p → ∀ r ∈ p.regions,
        (∃ n < p.regions.length, p.forest.Ends n r ∧
          ∀ region : Region, region.outer = none → (p.forest.push region).Ends n r) ∧
        ∀ o, p.forest.hasAncestor r o = true ↔ TransGen p.forest.Under r o) ∧
    ∀ (factor : Int) (regions : List RegionId) (s : State), ∃ attempts,
      Attempts (attemptLimit factor regions) 0 s regions attempts
        (exec (wire factor regions) s) ∧
      attempts.length ≤ (attemptLimit factor regions).toNat + regions.length ∧
      (∀ a ∈ attempts, a.result = .ok false → Unmoved a.before a.after) ∧
      (∀ before a after, attempts = before ++ a :: after →
        (completed before).count a.region < regions.count a.region ∧
        (regions.Nodup → a.region ∉ completed before)) ∧
      ((exec (wire factor regions) s).1 = .ok () → (completed attempts).Perm regions) := by
  refine ⟨fun c m hm => ⟨Stages.nonempty c hm, fun st => ?_⟩, fun factor regions s => ?_⟩
  · obtain ⟨-, base, horder⟩ := st.opened_shared hm
    refine ⟨st.exec_recover_joined, ?_, fun p hp r hr => ?_⟩
    · have hnested : Nested base st.opened.method.forest st.made := horder.nested
      obtain ⟨k, u, hrestarts, hlast, hlength⟩ :=
        exists_restarts hnested (Nat.le_refl _) st.combines
      refine ⟨k, u, hrestarts, hlast, ?_⟩
      rw [← st.opened_apart.1]
      by_cases hnone : st.made = []
      · rw [hnone] at hlength ⊢
        simp only [List.length_nil] at hlength ⊢
        omega
      · have hsome := List.length_pos_iff.mpr (hrestarts.ne_nil hnested hnone)
        omega
    · have hnested := (horder.run hp).nested
      obtain ⟨n, hlt, hends⟩ := hnested.ends hr
      refine ⟨⟨n, hlt, hends, fun region houter => ?_⟩, fun o => ?_⟩
      · exact hends.of_under (under_push _ houter)
      · exact hnested.hasAncestor_iff (hnested.bounds r hr).1
  · have hfuel : (attemptLimit factor regions - (0 : Nat)).toNat + regions.length ≤
        (attemptLimit factor regions).toNat + regions.length + 1 := by omega
    obtain ⟨attempts, hattempts, hlength⟩ := exists_attempts (s := s) hfuel
    refine ⟨attempts, hattempts, by omega, hattempts.unmoved, fun before a after hat => ?_,
      hattempts.perm_completed⟩
    exact ⟨hattempts.count_completed_lt hat, fun hnodup => hattempts.not_mem_completed hnodup hat⟩

/-- The region of handler 0 lies in the code of handler 1, to which no edge leads at first. -/
def guardedCode : Method where
  name := "m"
  graph :=
    { blocks := #[
        { offset := 0, succs := [1] },
        { offset := 2, instrs := [{ opcode := .invoke, offset := 2, catches := some ⟨[1]⟩ }],
          preds := [0], succs := [2, 3] },
        { offset := 4, preds := [1] },
        { offset := 6, instrs := [
            { opcode := .moveException, offset := 6, entry := some 1 },
            { opcode := .invoke, offset := 7, catches := some ⟨[0]⟩ }],
          preds := [1], succs := [4], tmpEdge := some 1 },
        { offset := 10, instrs := [{ opcode := .moveException, offset := 10, entry := some 0 }],
          preds := [3], tmpEdge := some 3 }]
      live := [0, 1, 2, 3, 4] }
  enter := some 0
  handlers := #[{ number := 0, offset := 10, types := ["A"] },
    { number := 1, offset := 6, types := ["B"] }]
  registered := [0, 1]

def guardedOpened : State := (exec (opening {} guardedCode) { method := guardedCode }).2

def guardedSettled : State := (exec (preparing {} guardedCode) { method := guardedCode }).2

/-- Region 0 waits for region 1, and then both are wired. -/
theorem loops_bounded_guardedCode :
    guardedCode.Fresh ∧
      (∃ st : Stages {} guardedCode,
        (∃ k u, Restarts k guardedOpened [0, 1] u st.combined ∧ k ≤ 1) ∧
        ∃ n < 2, guardedOpened.method.forest.Ends n 0) ∧
      (exec (wrap 0) guardedSettled).1 = .ok false ∧
      (exec (wire 3 [0, 1]) guardedSettled).1 = .ok () ∧
      ∃ attempts, Attempts 6 0 guardedSettled [0, 1] attempts
          (exec (wire 3 [0, 1]) guardedSettled) ∧
        attempts.length ≤ 8 ∧ (completed attempts).Perm [0, 1] ∧
        ∀ before a after, attempts = before ++ a :: after → a.region ∉ completed before := by
  have hm : guardedCode.Fresh := by decide +kernel
  have hopens : exec (opening {} guardedCode) { method := guardedCode } =
      (.ok [0, 1], guardedOpened) := Prod.ext (by decide +kernel) (by rw [guardedOpened])
  have hregistered : guardedOpened.method.registered.length = 2 := by decide +kernel
  have hwired : (exec (wire 3 [0, 1]) guardedSettled).1 = .ok () := by decide +kernel
  obtain ⟨hcombination, hwiring⟩ := loops_bounded
  obtain ⟨⟨st⟩, hall⟩ := hcombination {} guardedCode hm
  obtain ⟨hmade, hopened⟩ := st.eq_of_opens hopens
  obtain ⟨-, ⟨k, u, hrestarts, -, hk⟩, hwalks⟩ := hall st
  rw [hmade, hopened] at hrestarts hwalks
  rw [hopened, hregistered] at hk
  obtain ⟨⟨n, hn, hends, -⟩, -⟩ := hwalks _ .refl 0 List.mem_cons_self
  obtain ⟨attempts, hattempts, hlength, -, honce, hperm⟩ := hwiring 3 [0, 1] guardedSettled
  refine ⟨hm, ⟨st, ⟨k, u, hrestarts, hk⟩, n, hn, hends⟩, by decide +kernel, hwired, attempts,
    hattempts, hlength, hperm hwired, fun before a after hat => ?_⟩
  exact (honce before a after hat).2 (by decide)

end TryRegions.Recovery
