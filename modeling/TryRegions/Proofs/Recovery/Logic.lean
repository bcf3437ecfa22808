import TryRegions.Recovery.Monad
import Mathlib.Order.Defs.Unbundled

/-! Reasoning about computations on a method. `Yields` says what holds where a computation ends and
that it never asks for a block that does not exist. `Steps` adds that it moves from state to state
in a way that a given relation allows, also when it stops at a violation. -/

namespace TryRegions.Recovery

open RecoverM

variable {α β : Type}

theorem exec_bind_eq_ok {x : RecoverM α} {f : α → RecoverM β} {s u : State} {b : β} :
    exec (x >>= f) s = (.ok b, u) ↔
      ∃ a t, exec x s = (.ok a, t) ∧ exec (f a) t = (.ok b, u) := by
  rw [exec_bind]
  generalize exec x s = r
  obtain ⟨e | a, t⟩ := r
  · refine ⟨nofun, ?_⟩
    rintro ⟨a, t', h, -⟩
    cases h
  · refine ⟨fun h => ⟨a, t, rfl, h⟩, ?_⟩
    rintro ⟨a', t', h, h'⟩
    cases h
    exact h'

theorem exec_ofExcept_eq_ok {e : Except Fault α} {s t : State} {a : α} :
    exec (ofExcept e) s = (.ok a, t) ↔ e = .ok a ∧ s = t := by
  cases e with
  | error f => exact ⟨nofun, nofun⟩
  | ok b =>
    constructor
    · intro h
      cases h
      exact ⟨rfl, rfl⟩
    · rintro ⟨h, rfl⟩
      cases h
      rfl

/-- Run from `s`, the computation ends with a result as `Q` says, or stops at a violation as `E`
says; it meets no fault. -/
def Yields (x : RecoverM α) (s : State) (Q : α → State → Prop) (E : Violation → State → Prop) :
    Prop :=
  match exec x s with
  | (.ok a, t) => Q a t
  | (.error (.violation v), t) => E v t
  | (.error (.fault _), _) => False

section Yields

variable {x : RecoverM α} {s : State} {Q Q' : α → State → Prop} {E E' : Violation → State → Prop}

theorem Yields.ok (h : Yields x s Q E) {a : α} {t : State} (hx : exec x s = (.ok a, t)) :
    Q a t := by
  rwa [Yields, hx] at h

/-- A computation that stops at no violation has a result. -/
theorem Yields.exists_ok (h : Yields x s Q fun _ _ => False) :
    ∃ a t, exec x s = (.ok a, t) ∧ Q a t := by
  unfold Yields at h
  generalize exec x s = r at h ⊢
  obtain ⟨(_ | _) | a, t⟩ := r
  · exact h.elim
  · exact h.elim
  · exact ⟨a, t, rfl, h⟩

theorem yields_pure {a : α} : Yields (pure a) s Q E ↔ Q a s := Iff.rfl

theorem yields_bind {f : α → RecoverM β} {Q : β → State → Prop} :
    Yields (x >>= f) s Q E ↔ Yields x s (fun a t => Yields (f a) t Q E) E := by
  unfold Yields
  rw [exec_bind]
  generalize exec x s = r
  obtain ⟨(_ | _) | a, t⟩ := r <;> rfl

theorem yields_ite_bind {c : Prop} [Decidable c] {y : RecoverM α} {f : α → RecoverM β}
    {Q : β → State → Prop} :
    Yields (if c then x >>= f else y >>= f) s Q E ↔ Yields ((if c then x else y) >>= f) s Q E := by
  split <;> rfl

theorem Yields.mono (h : Yields x s Q E) (hQ : ∀ a t, Q a t → Q' a t)
    (hE : ∀ v t, E v t → E' v t) : Yields x s Q' E' := by
  unfold Yields at h ⊢
  generalize exec x s = r at h ⊢
  obtain ⟨(_ | v) | a, t⟩ := r
  · exact h
  · exact hE v t h
  · exact hQ a t h

theorem yields_modify {f : State → State} {Q : PUnit → State → Prop} :
    Yields (modify f) s Q E ↔ Q ⟨⟩ (f s) := Iff.rfl

theorem yields_get {Q : State → State → Prop} : Yields get s Q E ↔ Q s s := Iff.rfl

theorem yields_method {Q : Method → State → Prop} : Yields method s Q E ↔ Q s.method s := Iff.rfl

theorem yields_graph {Q : Graph → State → Prop} : Yields graph s Q E ↔ Q s.method.graph s :=
  Iff.rfl

theorem yields_ofExcept {e : Except Fault α} {a : α} (h : e = .ok a) :
    Yields (ofExcept e) s Q E ↔ Q a s := by
  subst h
  exact Iff.rfl

theorem yields_ask {f : Graph → Except Fault α} {a : α} (h : f s.method.graph = .ok a) :
    Yields (ask f) s Q E ↔ Q a s :=
  yields_bind.trans (yields_ofExcept h)

theorem yields_block {b : BlockId} {k : Block} {Q : Block → State → Prop}
    (h : s.method.graph.block? b = some k) : Yields (block b) s Q E ↔ Q k s := by
  refine yields_bind.trans (yields_graph.trans ?_)
  rw [h]
  exact yields_pure

/-- A loop over a list: `I` holds with what is left of it. -/
theorem Yields.forM {f : α → RecoverM PUnit} (I : List α → State → Prop)
    (step : ∀ a rest t, I (a :: rest) t → Yields (f a) t (fun _ u => I rest u) E)
    {l : List α} (h : I l s) : Yields (l.forM f) s (fun _ t => I [] t) E := by
  induction l generalizing s with
  | nil => exact h
  | cons a l ih =>
    refine yields_bind.mpr ((step a l s h).mono (fun _ t ht => ih ht) fun _ _ hv => hv)

/-- Records change the log and nothing else. -/
theorem yields_forM_record (e : α → Event) (l : List α) {Q : PUnit → State → Prop}
    (hQ : ∀ log, Q ⟨⟩ { s with log }) : Yields (l.forM fun a => record (e a)) s Q E := by
  refine (Yields.forM (E := E) (fun _ t => ∃ log, t = { s with log }) (fun a _ t ht => ?_)
    ⟨s.log, rfl⟩).mono (fun _ t ht => ?_) fun _ _ hv => hv
  · obtain ⟨log, rfl⟩ := ht
    exact ⟨_, rfl⟩
  · obtain ⟨log, rfl⟩ := ht
    exact hQ log

/-- A loop that collects results: `I` holds with what is left and with what was collected. -/
theorem Yields.mapM {f : α → RecoverM β} (I : List α → List β → State → Prop)
    (step : ∀ a rest out t, I (a :: rest) out t →
      Yields (f a) t (fun b u => I rest (out ++ [b]) u) E)
    {l : List α} (h : I l [] s) : Yields (l.mapM f) s (fun out t => I [] out t) E := by
  suffices hout : ∀ (l : List α) (out : List β) (s : State), I l out s →
      Yields (l.mapM f) s (fun more t => I [] (out ++ more) t) E from hout l [] s h
  intro l
  induction l with
  | nil =>
    intro out s h
    rw [List.mapM_nil, yields_pure, List.append_nil]
    exact h
  | cons a l ih =>
    intro out s h
    rw [List.mapM_cons]
    refine yields_bind.mpr ((step a l out s h).mono (fun b t ht => ?_) fun _ _ hv => hv)
    refine yields_bind.mpr ((ih (out ++ [b]) t ht).mono (fun more u hu => ?_) fun _ _ hv => hv)
    rw [yields_pure]
    rwa [List.append_assoc] at hu

/-- A loop that picks elements: `I` holds with what is left and with what was kept. -/
theorem Yields.filterM {f : α → RecoverM Bool} (I : List α → List α → State → Prop)
    (step : ∀ a rest kept t, I (a :: rest) kept t →
      Yields (f a) t (fun b u => I rest (if b then kept ++ [a] else kept) u) E)
    {l : List α} (h : I l [] s) : Yields (l.filterM f) s (fun kept t => I [] kept t) E := by
  suffices haux : ∀ (l kept : List α) (s : State), I l kept.reverse s →
      Yields (l.filterAuxM f kept) s (fun kept t => I [] kept.reverse t) E by
    exact yields_bind.mpr (haux l [] s h)
  intro l
  induction l with
  | nil => exact fun _ _ h => h
  | cons a l ih =>
    intro kept s h
    refine yields_bind.mpr ((step a l _ s h).mono (fun b t ht => ih _ t ?_) fun _ _ hv => hv)
    cases b with
    | false => exact ht
    | true =>
      rw [cond_true, List.reverse_cons]
      exact ht

end Yields

/-- Run from `s`, the computation moves as `R` allows, also when it stops; its result is as `Q`
says, and it stops at violations that `V` admits only. -/
def Steps (V : Violation → Prop) (R : State → State → Prop) (x : RecoverM α) (s : State)
    (Q : α → State → Prop) : Prop :=
  Yields x s (fun a t => R s t ∧ Q a t) fun v t => V v ∧ R s t

section Steps

variable {V : Violation → Prop} {R : State → State → Prop} {x : RecoverM α}
  {f : α → RecoverM β} {s : State} {Q : α → State → Prop} {P : β → State → Prop}

theorem Steps.pure {a : α} (hs : R s s) (h : Q a s) : Steps V R (pure a) s Q := ⟨hs, h⟩

theorem Steps.violate {v : Violation} (hv : V v) (hs : R s s) : Steps V R (violate v) s Q :=
  ⟨hv, hs⟩

/-- A computation that stops at no violation. -/
theorem Steps.yields {E : Violation → State → Prop} (h : Steps (fun _ => False) R x s Q) :
    Yields x s (fun a t => R s t ∧ Q a t) E :=
  Yields.mono h (fun _ _ ht => ht) fun _ _ hv => hv.1.elim

theorem Steps.bind [IsTrans State R] (h : Steps V R x s Q)
    (hf : ∀ a t, R s t → Q a t → Steps V R (f a) t P) : Steps V R (x >>= f) s P := by
  refine yields_bind.mpr (Yields.mono h (fun a t ht => ?_) fun _ _ hv => hv)
  exact Yields.mono (hf a t ht.1 ht.2) (fun _ _ hu => ⟨IsTrans.trans _ _ _ ht.1 hu.1, hu.2⟩)
    fun _ _ hu => ⟨hu.1, IsTrans.trans _ _ _ ht.1 hu.2⟩

theorem Steps.modify {f : State → State} {Q : PUnit → State → Prop} (h : R s (f s))
    (hQ : Q ⟨⟩ (f s)) : Steps V R (modify f) s Q := ⟨h, hQ⟩

theorem steps_method_bind {f : Method → RecoverM β} :
    Steps V R (method >>= f) s P ↔ Steps V R (f s.method) s P := yields_bind

theorem steps_ofExcept_bind {e : Except Fault α} {a : α} (h : e = .ok a) :
    Steps V R (ofExcept e >>= f) s P ↔ Steps V R (f a) s P :=
  yields_bind.trans (yields_ofExcept h)

theorem steps_ask_bind {q : Graph → Except Fault α} {a : α} (h : q s.method.graph = .ok a) :
    Steps V R (ask q >>= f) s P ↔ Steps V R (f a) s P :=
  yields_bind.trans (yields_ask h)

theorem steps_block_bind {b : BlockId} {k : Block} {f : Block → RecoverM β}
    (h : s.method.graph.block? b = some k) :
    Steps V R (block b >>= f) s P ↔ Steps V R (f k) s P :=
  yields_bind.trans (yields_block h)

theorem Steps.forM [IsTrans State R] {f : α → RecoverM PUnit} {l : List α} (hs : R s s)
    (step : ∀ a ∈ l, ∀ t, R s t → Steps V R (f a) t fun _ _ => True) :
    Steps V R (l.forM f) s fun _ _ => True := by
  have h := Yields.forM (E := fun v t => V v ∧ R s t) (fun rest t => R s t ∧ ∀ a ∈ rest, a ∈ l)
    (f := f) (fun a rest t ht => ?_) (s := s) (l := l) ⟨hs, fun _ ha => ha⟩
  · exact h.mono (fun _ t ht => ⟨ht.1, trivial⟩) fun _ _ hv => hv
  · refine Yields.mono (step a (ht.2 a List.mem_cons_self) t ht.1) (fun _ u hu => ?_)
      fun _ u hu => ?_
    · exact ⟨IsTrans.trans _ _ _ ht.1 hu.1, fun b hb => ht.2 b (List.mem_cons_of_mem _ hb)⟩
    · exact ⟨hu.1, IsTrans.trans _ _ _ ht.1 hu.2⟩

end Steps

end TryRegions.Recovery
