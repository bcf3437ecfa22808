import TryRegions.Proofs.Recovery.Logic

/-! Reasoning about computations on a method of which nothing is known. `Moves` says how a
computation moves from state to state where it ends and where it stops at a violation. It says
nothing of a computation that asks for a block that does not exist. -/

namespace TryRegions.Recovery

open RecoverM

variable {α β : Type}

/-- Run from `s`, the computation moves as `R` allows, also when it stops at a violation, and its
result is as `Q` says; unless it meets a fault. -/
def Moves (R : State → State → Prop) (x : RecoverM α) (s : State) (Q : α → State → Prop) : Prop :=
  match exec x s with
  | (.ok a, t) => R s t ∧ Q a t
  | (.error (.violation _), t) => R s t
  | (.error (.fault _), _) => True

variable {R : State → State → Prop} {x : RecoverM α} {f : α → RecoverM β} {s t : State}
  {Q Q' : α → State → Prop} {P : β → State → Prop}

namespace Moves

theorem ok (h : Moves R x s Q) {a : α} (hx : exec x s = (.ok a, t)) : R s t ∧ Q a t := by
  rwa [Moves, hx] at h

theorem of_yields (h : Yields x s (fun a t => R s t ∧ Q a t) fun _ t => R s t) : Moves R x s Q := by
  unfold Yields at h
  unfold Moves
  generalize exec x s = r at h ⊢
  obtain ⟨(_ | v) | a, t⟩ := r
  · trivial
  · exact h
  · exact h

/-- A result that is known in two ways. -/
theorem yields {E : Violation → State → Prop} (h : Moves R x s Q) (hx : Yields x s Q' E) :
    Yields x s (fun a t => Q' a t ∧ R s t ∧ Q a t) E := by
  unfold Moves at h
  unfold Yields at hx ⊢
  generalize exec x s = r at h hx ⊢
  obtain ⟨(_ | v) | a, t⟩ := r
  · exact hx
  · exact hx
  · exact ⟨hx, h⟩

theorem mono (h : Moves R x s Q) (hQ : ∀ a t, R s t → Q a t → Q' a t) : Moves R x s Q' := by
  unfold Moves at h ⊢
  generalize exec x s = r at h ⊢
  obtain ⟨(_ | v) | a, t⟩ := r
  · exact h
  · exact h
  · exact ⟨h.1, hQ a t h.1 h.2⟩

/-- What the result is like may be left open. -/
theorem weaken (h : Moves R x s Q) : Moves R x s fun _ _ => True := h.mono fun _ _ _ _ => trivial

theorem relax {R' : State → State → Prop} (h : Moves R x s Q) (hR : ∀ t, R s t → R' s t) :
    Moves R' x s Q := by
  unfold Moves at h ⊢
  generalize exec x s = r at h ⊢
  obtain ⟨(_ | v) | a, t⟩ := r
  · exact h
  · exact hR t h
  · exact ⟨hR t h.1, h.2⟩

theorem fault {e : Fault} : Moves R (throw (.fault e) : RecoverM α) s Q := trivial

theorem modify {f : State → State} {Q : PUnit → State → Prop} (h : R s (f s)) (hQ : Q ⟨⟩ (f s)) :
    Moves R (modify f) s Q := ⟨h, hQ⟩

section Bind

theorem of_get {f : State → RecoverM β} (h : Moves R (f s) s P) : Moves R (get >>= f) s P := h

theorem of_method {f : Method → RecoverM β} (h : Moves R (f s.method) s P) :
    Moves R (method >>= f) s P := h

theorem of_graph {f : Graph → RecoverM β} (h : Moves R (f s.method.graph) s P) :
    Moves R (graph >>= f) s P := h

theorem of_ofExcept {e : Except Fault α} (h : ∀ a, e = .ok a → Moves R (f a) s P) :
    Moves R (ofExcept e >>= f) s P := by
  cases e with
  | error e => exact fault
  | ok a => exact h a rfl

theorem of_ask {q : Graph → Except Fault α}
    (h : ∀ a, q s.method.graph = .ok a → Moves R (f a) s P) : Moves R (ask q >>= f) s P := by
  have hask : ask q >>= f = graph >>= fun g => ofExcept (q g) >>= f := by
    simp only [ask, bind_assoc]
  rw [hask]
  exact of_graph (of_ofExcept h)

theorem of_block {b : BlockId} {f : Block → RecoverM β}
    (h : ∀ k, s.method.graph.block? b = some k → Moves R (f k) s P) :
    Moves R (block b >>= f) s P := by
  unfold block
  rw [bind_assoc]
  refine of_graph ?_
  cases hk : s.method.graph.block? b with
  | none => exact fault
  | some k => exact h k hk

end Bind

theorem pure [Std.Refl R] {a : α} (h : Q a s) : Moves R (pure a) s Q := ⟨Std.Refl.refl s, h⟩

theorem violate [Std.Refl R] {v : Violation} : Moves R (violate v) s Q := Std.Refl.refl (r := R) s

theorem bind [IsTrans State R] (h : Moves R x s Q)
    (hf : ∀ a t, R s t → Q a t → Moves R (f a) t P) : Moves R (x >>= f) s P := by
  unfold Moves at h ⊢
  rw [exec_bind]
  generalize exec x s = r at h ⊢
  obtain ⟨(_ | v) | a, t⟩ := r
  · exact h
  · exact h
  · have hrest := hf a t h.1 h.2
    unfold Moves at hrest
    dsimp only at hrest ⊢
    generalize exec (f a) t = r' at hrest ⊢
    obtain ⟨(_ | v) | b, u⟩ := r'
    · trivial
    · exact IsTrans.trans _ _ _ h.1 hrest
    · exact ⟨IsTrans.trans _ _ _ h.1 hrest.1, hrest.2⟩

/-- A computation of which only the moves matter, and then another one. -/
theorem andThen [IsTrans State R] (h : Moves R x s Q) (hf : ∀ a t, R s t → Moves R (f a) t P) :
    Moves R (x >>= f) s P := h.bind fun a t ht _ => hf a t ht

variable [IsPreorder State R]

/-- A loop over a list: `I` holds with what is left of it. -/
theorem loop {f : α → RecoverM PUnit} (I : List α → State → Prop)
    (step : ∀ a rest t, R s t → I (a :: rest) t → Moves R (f a) t fun _ u => I rest u)
    {l : List α} (h : I l s) : Moves R (l.forM f) s fun _ t => I [] t := by
  suffices hloop : ∀ (l : List α) (t : State), R s t → I l t →
      Moves R (l.forM f) t fun _ u => I [] u from hloop l s (Std.Refl.refl s) h
  intro l
  induction l with
  | nil => exact fun t _ ht => pure ht
  | cons a l ih =>
    intro t hst ht
    exact (step a l t hst ht).bind fun _ u htu hu => ih u (IsTrans.trans _ _ _ hst htu) hu

/-- A loop of which every turn moves as `R` allows. -/
theorem each {f : α → RecoverM PUnit} {l : List α}
    (step : ∀ a ∈ l, ∀ t, R s t → Moves R (f a) t fun _ _ => True) :
    Moves R (l.forM f) s fun _ _ => True := by
  refine (loop (fun rest _ => ∀ a ∈ rest, a ∈ l) (fun a rest t ht hl => ?_) fun _ h => h).weaken
  exact (step a (hl a List.mem_cons_self) t ht).mono
    fun _ _ _ _ b hb => hl b (List.mem_cons_of_mem a hb)

/-- A loop that collects results: `I` holds with what is left and with what was collected. -/
theorem collect {f : α → RecoverM β} (I : List α → List β → State → Prop)
    (step : ∀ a rest out t, R s t → I (a :: rest) out t →
      Moves R (f a) t fun b u => I rest (out ++ [b]) u)
    {l : List α} (h : I l [] s) : Moves R (l.mapM f) s fun out t => I [] out t := by
  suffices hout : ∀ (l : List α) (out : List β) (t : State), R s t → I l out t →
      Moves R (l.mapM f) t fun more u => I [] (out ++ more) u from
    hout l [] s (Std.Refl.refl s) h
  intro l
  induction l with
  | nil =>
    intro out t _ ht
    rw [List.mapM_nil]
    exact pure (by rwa [List.append_nil])
  | cons a l ih =>
    intro out t hst ht
    rw [List.mapM_cons]
    refine (step a l out t hst ht).bind fun b u htu hu => ?_
    have hsu := IsTrans.trans _ _ _ hst htu
    refine (ih (out ++ [b]) u hsu hu).bind fun more v _ hv => pure ?_
    rwa [List.append_assoc] at hv

/-- A loop that picks elements: `I` holds with what is left and with what was kept. -/
theorem pick {f : α → RecoverM Bool} (I : List α → List α → State → Prop)
    (step : ∀ a rest kept t, R s t → I (a :: rest) kept t →
      Moves R (f a) t fun b u => I rest (if b then kept ++ [a] else kept) u)
    {l : List α} (h : I l [] s) : Moves R (l.filterM f) s fun kept t => I [] kept t := by
  suffices haux : ∀ (l kept : List α) (t : State), R s t → I l kept.reverse t →
      Moves R (l.filterAuxM f kept) t fun kept u => I [] kept.reverse u by
    exact (haux l [] s (Std.Refl.refl s) h).bind fun kept t _ ht => pure ht
  intro l
  induction l with
  | nil => exact fun _ _ _ ht => pure ht
  | cons a l ih =>
    intro kept t hst ht
    refine (step a l _ t hst ht).bind fun b u htu hu => ih _ u (IsTrans.trans _ _ _ hst htu) ?_
    cases b with
    | false => exact hu
    | true =>
      rw [cond_true, List.reverse_cons]
      exact hu

end Moves

end TryRegions.Recovery
