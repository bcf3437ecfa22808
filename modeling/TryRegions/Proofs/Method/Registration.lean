import TryRegions.Proofs.Method.Edits
import Mathlib.Logic.Relation

/-! Handlers that are registered with a method, marked as removed and forgotten, in any order. The
registered handlers have different numbers all the time, so that the order of catch sets tells any
two of them apart, and a catch set depends on which handlers it is made of and on nothing else. -/

open Relation

namespace TryRegions

namespace Handler

theorem codeBefore_iff {a b : Handler} :
    codeBefore a b = true ↔ a.offset < b.offset ∨ a.offset = b.offset ∧ a.number < b.number := by
  unfold codeBefore
  split <;> simp only [decide_eq_true_eq] <;> omega

theorem codeBefore_eq_false_iff {a b : Handler} :
    codeBefore a b = false ↔ b.offset < a.offset ∨ a.offset = b.offset ∧ b.number ≤ a.number := by
  rw [← Bool.not_eq_true, codeBefore_iff]
  omega

end Handler

namespace CatchSet

variable (info : HandlerId → Handler) {xs ys : List HandlerId}

theorem mem_ofList {h : HandlerId} : h ∈ (ofList info xs).handlers ↔ h ∈ xs := by
  rw [ofList, (sortBy_perm _ _).mem_iff, mem_appendNew]
  simp

variable {info}

/-- Handlers with different numbers have one catch set, whatever their order and repetitions. -/
theorem ofList_eq_iff (hnumber : ∀ a ∈ xs, ∀ b ∈ xs, (info a).number = (info b).number → a = b) :
    ofList info xs = ofList info ys ↔ ∀ h, h ∈ xs ↔ h ∈ ys := by
  constructor
  · intro heq h
    rw [← mem_ofList info, heq, mem_ofList]
  · intro hsame
    have hperm : (appendNew [] xs).Perm (appendNew [] ys) :=
      (List.perm_ext_iff_of_nodup (nodup_appendNew .nil xs) (nodup_appendNew .nil ys)).mpr
        fun h => by simp [hsame h]
    refine congrArg CatchSet.mk (sortBy_eq_of_perm (fun a b => ?_) (fun a b c => ?_) hperm ?_)
    · rw [Handler.codeBefore_iff, Handler.codeBefore_eq_false_iff]
      omega
    · simp only [Handler.codeBefore_eq_false_iff]
      omega
    · intro a ha b hb hab hba
      rw [Handler.codeBefore_eq_false_iff] at hab hba
      refine hnumber a ?_ b ?_ (by omega)
      · simpa using ha
      · simpa using hb

end CatchSet

namespace Method

/-- What may be done to the handlers of a method: one is made, one that is not registered is
registered, one is marked as removed, and those that are marked are forgotten. -/
inductive Enrolling : Method → Method → Prop
  | make (m : Method) (offset : Int) (types : List TypeName) :
    Enrolling m (m.newHandler offset types)
  | register {m : Method} {h : HandlerId} (hmade : h < m.handlers.size) (hnew : h ∉ m.registered) :
    Enrolling m (m.register h)
  | mark {m m' : Method} {h : HandlerId} (hmark : m.markRemoved h = .ok m') : Enrolling m m'
  | forget (m : Method) : Enrolling m m.forgetRemoved

/-- The numbers of the registered handlers. -/
def numbers (m : Method) : List Int := m.registered.map fun h => (m.handler h).number

/-- The registered handlers are made, and their numbers are different. -/
structure Enrolled (m : Method) : Prop where
  made : ∀ h ∈ m.registered, h < m.handlers.size
  numbers_nodup : m.numbers.Nodup

variable {m m' : Method} {h : HandlerId}

/-- A loop that raises a number above each one that it meets ends above all of them. -/
theorem lt_foldl (number : HandlerId → Int) {raise : Int → HandlerId → Int} {hs : List HandlerId}
    (hraise : ∀ n, ∀ r ∈ hs, n ≤ raise n r ∧ number r < raise n r) (n : Int) :
    n ≤ hs.foldl raise n ∧ ∀ r ∈ hs, number r < hs.foldl raise n := by
  induction hs generalizing n with
  | nil => simp
  | cons x hs ih =>
    obtain ⟨hn, hx⟩ := hraise n x List.mem_cons_self
    obtain ⟨hle, hlt⟩ := ih (fun n r hr => hraise n r (List.mem_cons_of_mem _ hr)) (raise n x)
    rw [List.foldl_cons]
    refine ⟨by omega, fun r hr => ?_⟩
    rcases List.mem_cons.mp hr with rfl | hr
    · omega
    · exact hlt r hr

/-- The number for the next handler is above those of the registered ones. -/
theorem lt_freshNumber (hnew : h ∉ m.registered) {r : HandlerId} (hr : r ∈ m.registered) :
    (m.handler r).number < m.freshNumber h := by
  refine (lt_foldl (fun r => (m.handler r).number) (fun n r hr => ?_) _).2 r hr
  have hne : r ≠ h := fun heq => hnew (heq ▸ hr)
  dsimp only
  rw [if_neg hne]
  split <;> omega

theorem number_register (hmade : h < m.handlers.size) (x : HandlerId) :
    ((m.register h).handler x).number =
      if x = h then m.freshNumber h else (m.handler x).number := by
  show ((m.modifyHandler h fun k => { k with number := m.freshNumber h }).handler x).number = _
  rw [handler_modifyHandler]
  by_cases hx : x = h
  · subst hx
    rw [if_pos ⟨rfl, hmade⟩, if_pos rfl]
  · rw [if_neg fun hxh => hx hxh.1.symm, if_neg hx]

namespace Enrolled

/-- Registered handlers that keep their numbers and their places. -/
theorem congr (hm : m.Enrolled) (hregistered : m'.registered = m.registered)
    (hsize : m.handlers.size ≤ m'.handlers.size)
    (hnumber : ∀ x ∈ m.registered, (m'.handler x).number = (m.handler x).number) :
    m'.Enrolled := by
  refine ⟨fun x hx => Nat.lt_of_lt_of_le (hm.made x (hregistered ▸ hx)) hsize, ?_⟩
  have hnumbers : m'.numbers = m.numbers := by
    rw [numbers, numbers, hregistered]
    exact List.map_congr_left hnumber
  rw [hnumbers]
  exact hm.numbers_nodup

theorem newHandler (hm : m.Enrolled) (offset : Int) (types : List TypeName) :
    (m.newHandler offset types).Enrolled := by
  refine hm.congr rfl (by simp [Method.newHandler]) fun x hx => ?_
  have hlt := hm.made x hx
  rw [handler, handler, Method.newHandler, Array.getElem?_push_lt hlt,
    Array.getElem?_eq_getElem hlt]

theorem register (hm : m.Enrolled) (hmade : h < m.handlers.size) (hnew : h ∉ m.registered) :
    (m.register h).Enrolled := by
  have hold : ∀ x ∈ m.registered, ((m.register h).handler x).number = (m.handler x).number :=
    fun x hx => by
      have hne : x ≠ h := fun heq => hnew (heq ▸ hx)
      rw [number_register hmade, if_neg hne]
  constructor
  · intro x hx
    show x < (m.modifyHandler h _).handlers.size
    rw [size_modifyHandler]
    rcases List.mem_append.mp hx with hx | hx
    · exact hm.made x hx
    · rwa [List.mem_singleton.mp hx]
  · have hnumbers : (m.register h).numbers = m.numbers ++ [m.freshNumber h] := by
      show (m.registered ++ [h]).map _ = _
      rw [List.map_append, List.map_congr_left hold, List.map_singleton, number_register hmade,
        if_pos rfl]
      rfl
    rw [hnumbers]
    refine List.nodup_append.mpr ⟨hm.numbers_nodup, List.nodup_singleton _, fun n hn k hk => ?_⟩
    obtain ⟨r, hr, rfl⟩ := List.mem_map.mp hn
    rw [List.mem_singleton.mp hk]
    exact Int.ne_of_lt (lt_freshNumber hnew hr)

theorem markRemoved (hm : m.Enrolled) (hmark : m.markRemoved h = .ok m') : m'.Enrolled := by
  obtain ⟨-, rfl⟩ := markRemoved_eq_ok.mp hmark
  refine hm.congr rfl (Nat.le_of_eq (size_modifyHandler m h _).symm) fun x _ => ?_
  exact handler_modifyHandler_eq Handler.number m h x _ fun _ => rfl

theorem forgetRemoved (hm : m.Enrolled) : m.forgetRemoved.Enrolled :=
  ⟨fun x hx => hm.made x (List.mem_of_mem_filter hx),
    hm.numbers_nodup.sublist (List.filter_sublist.map _)⟩

theorem step (hm : m.Enrolled) (hstep : Enrolling m m') : m'.Enrolled := by
  cases hstep with
  | make offset types => exact hm.newHandler offset types
  | register hmade hnew => exact hm.register hmade hnew
  | mark hmark => exact hm.markRemoved hmark
  | forget => exact hm.forgetRemoved

theorem run (hm : m.Enrolled) (hrun : ReflTransGen Enrolling m m') : m'.Enrolled := by
  induction hrun with
  | refl => exact hm
  | tail _ hstep ih => exact ih.step hstep

theorem eq_of_number (hm : m.Enrolled) {a b : HandlerId} (ha : a ∈ m.registered)
    (hb : b ∈ m.registered) (hnumber : (m.handler a).number = (m.handler b).number) : a = b :=
  List.inj_on_of_nodup_map hm.numbers_nodup ha hb hnumber

end Enrolled

/-- Whatever is done to the handlers of a method that starts without registered ones, those that
are registered have different numbers, and two catch sets of them are the same iff they are made of
the same handlers. -/
theorem catchSet_eq_iff_of_enrolled {start m : Method} (hstart : start.registered = [])
    (hrun : ReflTransGen Enrolling start m) :
    (m.registered.map fun h => (m.handler h).number).Nodup ∧
      ∀ xs ys : List HandlerId, xs ⊆ m.registered → ys ⊆ m.registered →
        (m.catchSet xs = m.catchSet ys ↔ ∀ h, h ∈ xs ↔ h ∈ ys) := by
  have hempty : start.Enrolled := ⟨by simp [hstart], by simp [numbers, hstart]⟩
  have hm := hempty.run hrun
  refine ⟨hm.numbers_nodup, fun xs ys hxs _ => CatchSet.ofList_eq_iff fun a ha b hb => ?_⟩
  exact hm.eq_of_number (hxs ha) (hxs hb)

/-- Three handlers, two of them at the same place of the code. -/
def threeClauses : Method :=
  { name := "m", handlers := #[.new 4 ["A"], .new 4 ["B"], .new 2 []] }

/-- All three are registered, and the second one is marked as removed. -/
def secondMarked : Method :=
  (((threeClauses.register 0).register 1).register 2).modifyHandler 1 fun k =>
    { k with removed := true }

/-- The second one is forgotten, and then registered again. -/
def reenrolled : Method := secondMarked.forgetRemoved.register 1

theorem enrolling_secondMarked : ReflTransGen Enrolling threeClauses secondMarked := by
  have hmark : (((threeClauses.register 0).register 1).register 2).markRemoved 1 =
      .ok secondMarked := by
    decide +kernel
  refine .tail (.tail (.tail (.tail .refl (.register ?_ ?_)) (.register ?_ ?_)) (.register ?_ ?_))
    (.mark hmark)
  all_goals decide +kernel

theorem catchSet_eq_iff_of_enrolled_reenrolled :
    threeClauses.registered = [] ∧ ReflTransGen Enrolling threeClauses reenrolled ∧
      reenrolled.numbers = [0, 2, 3] ∧
      reenrolled.catchSet [1, 0, 2, 0] = reenrolled.catchSet [2, 1, 0] ∧
      reenrolled.catchSet [1, 0] ≠ reenrolled.catchSet [0, 2] := by
  have hrun : ReflTransGen Enrolling threeClauses reenrolled :=
    (enrolling_secondMarked.tail (.forget _)).tail (.register (by decide +kernel)
      (by decide +kernel))
  have hregistered : reenrolled.registered = [0, 2, 1] := by decide +kernel
  obtain ⟨-, hsame⟩ := catchSet_eq_iff_of_enrolled rfl hrun
  rw [hregistered] at hsame
  refine ⟨rfl, hrun, by decide +kernel, (hsame _ _ (by simp) (by simp)).mpr ?_, fun heq => ?_⟩
  · simp only [List.mem_cons, List.not_mem_nil, or_false]
    intro h
    tauto
  · have htwo := ((hsame _ _ (by simp) (by simp)).mp heq 2).mpr (by simp)
    simp at htwo

end Method

end TryRegions
