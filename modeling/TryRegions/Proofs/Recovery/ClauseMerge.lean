import TryRegions.ClassHierarchy
import TryRegions.Proofs.Recovery.Removal
import TryRegions.Recovery.ClauseMerge
import Mathlib.Data.Fintype.EquivFin

/-! Merging the clauses of a region. The clause that stays has the classes of all of them; it
catches what they caught unless a clause without classes met one that names some. -/

namespace TryRegions

namespace ClassHierarchy

theorem isSubtype_eq_false {types : ClassHierarchy} {sub super : TypeName}
    (hroot : super ≠ throwable) (hparent : types.parent? sub = none) :
    types.isSubtype sub super = false := by
  have hclimbs : types.climbs super [] sub = false := by
    rw [climbs]
    split
    · rfl
    · simp_all
  simp [isSubtype, hclimbs, hroot]

/-- Some class has no declared parent and is none of those given. -/
theorem exists_unrelated (types : ClassHierarchy) (named : List TypeName) :
    ∃ cls, cls ∉ named ∧ types.parent? cls = none := by
  obtain ⟨cls, hcls⟩ := Infinite.exists_notMem_finset (named ++ types.links.map Prod.fst).toFinset
  rw [List.mem_toFinset, List.mem_append, not_or] at hcls
  refine ⟨cls, hcls.1, List.lookup_eq_none_iff.mpr fun p hp => ?_⟩
  have hne : cls ≠ p.1 := fun heq => hcls.2 (List.mem_map.mpr ⟨p, hp, heq.symm⟩)
  simpa using hne

end ClassHierarchy

namespace Handler

/-- The clause catches values of the class. -/
def Catches (types : ClassHierarchy) (k : Handler) (cls : TypeName) : Prop :=
  k.catchesAll = true ∨ ∃ c ∈ k.types, c = cls ∨ types.isSubtype cls c = true

instance (types : ClassHierarchy) (k : Handler) (cls : TypeName) :
    Decidable (k.Catches types cls) :=
  inferInstanceAs (Decidable (_ ∨ _))

variable {types : ClassHierarchy} {k : Handler}

theorem catchesAll_iff : k.catchesAll = true ↔ k.types = [] ∨ throwable ∈ k.types := by
  rw [catchesAll, Bool.or_eq_true, List.isEmpty_iff, List.contains_iff_mem]

/-- A clause that does not catch everything lets a class through that no declaration mentions. -/
theorem catches_every_iff : (∀ cls, k.Catches types cls) ↔ k.catchesAll = true := by
  constructor
  · intro hcatches
    obtain ⟨cls, hnew, hparent⟩ := types.exists_unrelated k.types
    rcases hcatches cls with hall | ⟨c, hc, heq | hsub⟩
    · exact hall
    · exact absurd (heq ▸ hc) hnew
    · by_cases hroot : c = throwable
      · exact catchesAll_iff.mpr (Or.inr (hroot ▸ hc))
      · rw [ClassHierarchy.isSubtype_eq_false hroot hparent] at hsub
        cases hsub
  · exact fun hall cls => Or.inl hall

section Union

variable {info : HandlerId → Handler} {clauses : List HandlerId}

/-- A clause with the classes of several others catches what they do, as long as each of them names
a class. -/
theorem catches_union (hunion : ∀ c, c ∈ k.types ↔ ∃ h ∈ clauses, c ∈ (info h).types)
    (hsome : clauses ≠ []) (hnamed : ∀ h ∈ clauses, (info h).types ≠ []) (cls : TypeName) :
    k.Catches types cls ↔ ∃ h ∈ clauses, (info h).Catches types cls := by
  constructor
  · rintro (hall | ⟨c, hc, hcls⟩)
    · rcases catchesAll_iff.mp hall with hnil | hroot
      · obtain ⟨h, hh⟩ := List.exists_mem_of_ne_nil _ hsome
        obtain ⟨c, hc⟩ := List.exists_mem_of_ne_nil _ (hnamed h hh)
        have hmem := (hunion c).mpr ⟨h, hh, hc⟩
        rw [hnil] at hmem
        cases hmem
      · obtain ⟨h, hh, hc⟩ := (hunion throwable).mp hroot
        exact ⟨h, hh, Or.inl (catchesAll_iff.mpr (Or.inr hc))⟩
    · obtain ⟨h, hh, hc⟩ := (hunion c).mp hc
      exact ⟨h, hh, Or.inr ⟨c, hc, hcls⟩⟩
  · rintro ⟨h, hh, hall | ⟨c, hc, hcls⟩⟩
    · have hroot := (catchesAll_iff.mp hall).resolve_left (hnamed h hh)
      exact Or.inl (catchesAll_iff.mpr (Or.inr ((hunion throwable).mpr ⟨h, hh, hroot⟩)))
    · exact Or.inr ⟨c, (hunion c).mpr ⟨h, hh, hc⟩, hcls⟩

/-- Exactly when the union of the classes catches what the clauses caught. -/
theorem catches_union_iff (hunion : ∀ c, c ∈ k.types ↔ ∃ h ∈ clauses, c ∈ (info h).types)
    (hsome : clauses ≠ []) :
    (∀ cls, k.Catches types cls ↔ ∃ h ∈ clauses, (info h).Catches types cls) ↔
      (∃ h ∈ clauses, throwable ∈ (info h).types) ∨ (∀ h ∈ clauses, (info h).types = []) ∨
        ∀ h ∈ clauses, (info h).types ≠ [] := by
  constructor
  · intro hsame
    by_cases hnamed : ∀ h ∈ clauses, (info h).types ≠ []
    · exact Or.inr (Or.inr hnamed)
    · obtain ⟨h, hh⟩ := not_forall.mp hnamed
      obtain ⟨hh, hnil⟩ := Classical.not_imp.mp hh
      -- The clause without classes caught everything, so the union has to.
      have hall := catches_every_iff.mp fun cls =>
        (hsame cls).mpr ⟨h, hh, Or.inl (catchesAll_iff.mpr (Or.inl (not_not.mp hnil)))⟩
      rcases catchesAll_iff.mp hall with hnone | hroot
      · refine Or.inr (Or.inl fun x hx => List.eq_nil_iff_forall_not_mem.mpr fun c hc => ?_)
        have hmem := (hunion c).mpr ⟨x, hx, hc⟩
        rw [hnone] at hmem
        cases hmem
      · exact Or.inl ((hunion throwable).mp hroot)
  · rintro (⟨h, hh, hroot⟩ | hnil | hnamed) cls
    · have hall := catchesAll_iff.mpr (Or.inr ((hunion throwable).mpr ⟨h, hh, hroot⟩))
      exact ⟨fun _ => ⟨h, hh, Or.inl (catchesAll_iff.mpr (Or.inr hroot))⟩, fun _ => Or.inl hall⟩
    · have hnone : k.types = [] := List.eq_nil_iff_forall_not_mem.mpr fun c hc => by
        obtain ⟨h, hh, hc⟩ := (hunion c).mp hc
        rw [hnil h hh] at hc
        cases hc
      obtain ⟨h, hh⟩ := List.exists_mem_of_ne_nil _ hsome
      exact ⟨fun _ => ⟨h, hh, Or.inl (catchesAll_iff.mpr (Or.inl (hnil h hh)))⟩,
        fun _ => Or.inl (catchesAll_iff.mpr (Or.inl hnone))⟩
    · exact catches_union hunion hsome hnamed cls

end Union

end Handler

namespace Recovery

open RecoverM

section Exact

variable {s t : State} {m : Method} {first h : HandlerId}

theorem of_allM_eq_true {ε α : Type} {p : α → Except ε Bool} {l : List α}
    (h : l.allM p = .ok true) : ∀ a ∈ l, p a = .ok true := by
  induction l with
  | nil => exact fun a ha => absurd ha List.not_mem_nil
  | cons a l ih =>
    rw [List.allM_cons] at h
    cases hp : p a with
    | error e =>
      rw [hp] at h
      cases h
    | ok b =>
      rw [hp] at h
      cases b with
      | false => cases h
      | true =>
        intro x hx
        rcases List.mem_cons.mp hx with rfl | hx
        · exact hp
        · exact ih h x hx

theorem of_onlyBinds (hbinds : onlyBinds m h = .ok true) :
    (m.handler h).body.length = 1 ∧ ∃ e k, (m.handler h).entry = some e ∧
      m.graph.block? e = some k ∧ k.endsWith .moveException = true := by
  unfold onlyBinds at hbinds
  dsimp only at hbinds
  split at hbinds
  · cases hbinds
  · rename_i hbody
    refine ⟨by simpa using (not_or.mp (mt (Bool.or_eq_true_iff).mpr hbody)).2, ?_⟩
    cases hentry : (m.handler h).entry.bind m.graph.block? with
    | none =>
      rw [entryBlock, hentry] at hbinds
      cases hbinds
    | some k =>
      rw [entryBlock, hentry] at hbinds
      obtain ⟨e, he, hk⟩ := Option.bind_eq_some_iff.mp hentry
      exact ⟨e, k, he, hk, (Bool.and_eq_true_iff.mp (Except.ok.inj hbinds)).2⟩

theorem of_mergeable {clauses : List HandlerId} (hmerge : mergeable m clauses = .ok true) :
    (∀ h ∈ clauses, onlyBinds m h = .ok true) ∧ sameContinuation m clauses = true := by
  unfold mergeable at hmerge
  split at hmerge
  · cases hmerge
  · cases hall : clauses.allM (onlyBinds m) with
    | error e =>
      rw [hall] at hmerge
      cases hmerge
    | ok b =>
      rw [hall] at hmerge
      cases b with
      | false => cases hmerge
      | true => exact ⟨of_allM_eq_true hall, Except.ok.inj hmerge⟩

/-- Clauses that can be merged are clauses of the method. -/
theorem lt_of_mergeable {clauses : List HandlerId} (hmerge : mergeable m clauses = .ok true) :
    ∀ h ∈ clauses, h < m.handlers.size := by
  intro h hh
  have hbody := (of_onlyBinds ((of_mergeable hmerge).1 h hh)).1
  refine Nat.lt_of_not_le fun hsize => ?_
  rw [Method.handler_of_size_le hsize] at hbody
  cases hbody

/-- Clauses that go on to the same code bind the same register. -/
theorem boundRegister_of_sameContinuation {clauses : List HandlerId}
    (hsame : sameContinuation m clauses = true) :
    ∃ r, ∀ h ∈ clauses, boundRegister m h = some r := by
  unfold sameContinuation at hsame
  dsimp only at hsame
  split at hsame
  · have hbound := (Bool.and_eq_true_iff.mp hsame).2
    split at hbound
    · rename_i r rest hclauses
      refine ⟨r, fun h hh => ?_⟩
      have hmem := List.mem_map_of_mem (f := boundRegister m) hh
      rw [hclauses] at hmem
      rcases List.mem_cons.mp hmem with hhead | hrest
      · exact hhead
      · exact of_decide_eq_true (List.all_eq_true.mp hbound _ hrest)
    · cases hbound
  · cases hsame

theorem of_absorbClause (hrun : exec (absorbClause first h) s = (.ok (), t)) :
    (s.method.addTypes first (s.method.handler h).types).markRemoved h = .ok t.method := by
  obtain ⟨_, _, hadd, hrun⟩ := exec_bind_eq_ok.mp hrun
  cases hadd
  obtain ⟨_, _, hmethod, hrun⟩ := exec_bind_eq_ok.mp hrun
  cases hmethod
  obtain ⟨m, _, hask, hrun⟩ := exec_bind_eq_ok.mp hrun
  obtain ⟨hmark, rfl⟩ := exec_ofExcept_eq_ok.mp hask
  cases hrun
  exact hmark

/-- The clause that stays takes the classes of the one that goes; no other clause gets any. -/
theorem types_of_absorbClause (hfirst : first < s.method.handlers.size)
    (hrun : exec (absorbClause first h) s = (.ok (), t)) :
    t.method.handlers.size = s.method.handlers.size ∧ ∀ x, (t.method.handler x).types =
      if x = first then appendNew (s.method.handler first).types (s.method.handler h).types
      else (s.method.handler x).types := by
  have hhandlers := Method.of_markRemoved (of_absorbClause hrun)
  constructor
  · rw [hhandlers, Method.size_modifyHandler]
    exact s.method.size_modifyHandler first _
  · intro x
    have hsame := (s.method.addTypes first (s.method.handler h).types).handler_modifyHandler_eq
      Handler.types h x (fun k => { k with removed := true }) fun _ => rfl
    rw [← s.method.types_addTypes hfirst, ← hsame, Method.handler, Method.handler, hhandlers]

theorem mem_types_of_absorbAll {rest : List HandlerId} (hfirst : first < s.method.handlers.size)
    (hrun : exec (rest.forM (absorbClause first)) s = (.ok (), t)) (c : TypeName) :
    c ∈ (t.method.handler first).types ↔
      ∃ h ∈ first :: rest, c ∈ (s.method.handler h).types := by
  induction rest generalizing s with
  | nil =>
    cases hrun
    simp
  | cons h rest ih =>
    obtain ⟨_, u, habsorb, hrun⟩ := exec_bind_eq_ok.mp hrun
    obtain ⟨hsize, htypes⟩ := types_of_absorbClause hfirst habsorb
    have hmem : ∀ x, c ∈ (u.method.handler x).types ↔
        c ∈ (s.method.handler x).types ∨ x = first ∧ c ∈ (s.method.handler h).types := by
      intro x
      rw [htypes]
      split
      · rename_i hx
        subst hx
        simp
      · rename_i hx
        simp [hx]
    rw [ih (hsize ▸ hfirst) hrun]
    simp only [hmem, List.mem_cons, exists_eq_or_imp, true_and]
    constructor
    · rintro ((hc | hc) | ⟨x, hx, hc | ⟨-, hc⟩⟩)
      · exact Or.inl hc
      · exact Or.inr (Or.inl hc)
      · exact Or.inr (Or.inr ⟨x, hx, hc⟩)
      · exact Or.inr (Or.inl hc)
    · rintro (hc | hc | ⟨x, hx, hc⟩)
      · exact Or.inl (Or.inl hc)
      · exact Or.inl (Or.inr hc)
      · exact Or.inr ⟨x, hx, Or.inl hc⟩

theorem of_mergeClauses {r : RegionId} (hrun : exec (mergeClauses r) s = (.ok true, t)) :
    ∃ first rest u, (s.method.region r).handlers = first :: rest ∧
      first < s.method.handlers.size ∧
      exec (rest.forM (absorbClause first)) s = (.ok (), u) ∧ t.method = u.method := by
  obtain ⟨_, _, hmethod, hrun⟩ := exec_bind_eq_ok.mp hrun
  cases hmethod
  obtain ⟨merge, _, hask, hrun⟩ := exec_bind_eq_ok.mp hrun
  obtain ⟨hmerge, rfl⟩ := exec_ofExcept_eq_ok.mp hask
  cases merge with
  | false => cases hrun
  | true =>
    have hlt := lt_of_mergeable hmerge
    cases hclauses : (s.method.region r).handlers with
    | nil =>
      rw [hclauses] at hrun
      cases hrun
    | cons first rest =>
      rw [hclauses] at hlt hrun
      obtain ⟨_, u, hall, hrun⟩ := exec_bind_eq_ok.mp hrun
      obtain ⟨_, _, hmethod, hrun⟩ := exec_bind_eq_ok.mp hrun
      cases hmethod
      obtain ⟨_, _, hrecord, hrun⟩ := exec_bind_eq_ok.mp hrun
      cases hrecord
      cases hrun
      exact ⟨first, rest, u, rfl, hlt first List.mem_cons_self, hall, rfl⟩

/-- The clause that stays catches exactly what the clauses of the region caught if one of them names
the root class, if none names a class, or if all do; and only then. -/
theorem mergeClauses_catches_iff (types : ClassHierarchy) {r : RegionId}
    (hrun : exec (mergeClauses r) s = (.ok true, t)) :
    ∃ first rest, (s.method.region r).handlers = first :: rest ∧
      ((∀ cls, (t.method.handler first).Catches types cls ↔
          ∃ h ∈ first :: rest, (s.method.handler h).Catches types cls) ↔
        (∃ h ∈ first :: rest, throwable ∈ (s.method.handler h).types) ∨
          (∀ h ∈ first :: rest, (s.method.handler h).types = []) ∨
            ∀ h ∈ first :: rest, (s.method.handler h).types ≠ []) := by
  obtain ⟨first, rest, u, hclauses, hfirst, hall, hmethod⟩ := of_mergeClauses hrun
  refine ⟨first, rest, hclauses, ?_⟩
  rw [hmethod]
  exact Handler.catches_union_iff (mem_types_of_absorbAll hfirst hall) (List.cons_ne_nil _ _)

end Exact

section Merging

variable {widened : HandlerId → Prop} {V : Violation → Prop} {s : State}

theorem addTypes_prunes (hs : s.Sound) {first : HandlerId} (hfirst : widened first)
    (types : List TypeName) :
    Prunes widened s { s with method := s.method.addTypes first types } := by
  have kept := fun {β : Type} (view : Handler → β)
      (hview : ∀ k : Handler, view (k.addTypes types) = view k) x =>
    s.method.handler_modifyHandler_eq view first x (fun k => k.addTypes types) hview
  refine .of_parts hs (.mapInstrs hs.method.wellFormed hs.method.clean_lt _) rfl
    (s.method.size_modifyHandler first _) (kept Handler.entry fun _ => rfl)
    (kept Handler.body fun _ => rfl) (fun x hx => ?_) (fun x hx => ?_) (List.Sublist.refl _) rfl rfl
  · exact (kept Handler.removed (fun _ => rfl) x).trans hx
  · have hne : ¬(first = x ∧ x < s.method.handlers.size) := fun h => hx (h.1 ▸ hfirst)
    show ((s.method.modifyHandler first fun k => k.addTypes types).handler x).types = _
    rw [Method.handler_modifyHandler, if_neg hne]

theorem steps_absorbClause (hs : s.Sound) {first : HandlerId} (hfirst : widened first)
    (h : HandlerId) : Steps V (Prunes widened) (absorbClause first h) s fun _ _ => True := by
  have adds := addTypes_prunes hs hfirst (s.method.handler h).types
  obtain ⟨m, hm, marks, -⟩ := markRemoved_prunes widened adds.sound h
  refine yields_bind.mpr (yields_modify.mpr (yields_bind.mpr (yields_method.mpr ?_)))
  exact yields_bind.mpr ((yields_ofExcept hm).mpr ⟨adds.trans marks, trivial⟩)

theorem mergeable_eq_ok {m : Method} (hm : m.Sound) {clauses : List HandlerId}
    (hentry : ∀ h ∈ clauses, (m.handler h).entry.isSome = true) :
    ∃ b, mergeable m clauses = .ok b := by
  have hbinds : ∀ h ∈ clauses, ∃ b, onlyBinds m h = .ok b := by
    intro h hh
    obtain ⟨e, he⟩ := Option.isSome_iff_exists.mp (hentry h hh)
    obtain ⟨k, hk⟩ := Graph.exists_block (Graph.lt_of_isEntry (hm.isEntry h e he))
    have hblock : entryBlock m h = .ok k := by
      rw [entryBlock, he, Option.bind_some, hk]
    unfold onlyBinds
    dsimp only
    split
    · exact ⟨_, rfl⟩
    · rw [hblock]
      exact ⟨_, rfl⟩
  obtain ⟨all, hall⟩ := allM_eq_ok hbinds
  unfold mergeable
  split
  · exact ⟨_, rfl⟩
  · rw [hall]
    cases all <;> exact ⟨_, rfl⟩

theorem steps_mergeClauses (hs : s.Sound) {r : RegionId}
    (hlisted : ∀ h ∈ (s.method.region r).handlers, widened h) :
    Steps V (Prunes widened) (mergeClauses r) s fun _ _ => True := by
  obtain ⟨merge, hmerge⟩ := mergeable_eq_ok hs.method (hs.method.hasEntry r)
  refine steps_method_bind.mpr ((steps_ofExcept_bind hmerge).mpr ?_)
  cases merge with
  | false => exact .pure (.refl hs) trivial
  | true =>
    cases hclauses : (s.method.region r).handlers with
    | nil => exact .pure (.refl hs) trivial
    | cons first rest =>
      have hfirst : widened first := hlisted first (by simp [hclauses])
      refine Steps.bind (.forM (.refl hs) fun h _ t ht => steps_absorbClause ht.sound hfirst h)
        fun _ t ht _ => steps_method_bind.mpr ?_
      exact Steps.bind (.modify (Q := fun _ _ => True) (.of_notes ht.sound) trivial)
        fun _ u hu _ => .pure (.refl hu.sound) trivial

/-- Only handlers that a region lists get new classes, and no region changes. -/
theorem steps_mergeAllClauses (hs : s.Sound) {regions : List RegionId}
    (hlisted : ∀ r ∈ regions, ∀ h ∈ (s.method.region r).handlers, widened h) :
    Steps V (Prunes widened) (mergeAllClauses regions) s fun _ _ => True := by
  refine Steps.bind (Q := fun _ _ => True) ?_ fun merged t ht _ => ?_
  · refine (Yields.mapM (fun rest _ t => Prunes widened s t ∧ ∀ r ∈ rest, r ∈ regions)
      (fun r rest out t ht => ?_) (l := regions) ⟨.refl hs, fun _ hr => hr⟩).mono
        (fun _ _ ht => ⟨ht.1, trivial⟩) fun _ _ hv => hv
    have hregion : t.method.region r = s.method.region r := by
      rw [Method.region, Method.region, ht.1.forest]
    have hr := hlisted r (ht.2 r List.mem_cons_self)
    refine Yields.mono (steps_mergeClauses (V := V) ht.1.sound (hregion ▸ hr)) (fun _ u hu => ?_)
      fun _ u hu => ?_
    · exact ⟨ht.1.trans hu.1, fun q hq => ht.2 q (List.mem_cons_of_mem _ hq)⟩
    · exact ⟨hu.1, ht.1.trans hu.2⟩
  · split
    · exact .modify (prunes_sweep ht.sound) trivial
    · exact .pure (.refl ht.sound) trivial

end Merging

/-- The block of a clause that only binds the caught value and goes on to block 2. -/
def bindingBlock (h : HandlerId) : Block where
  offset := 0
  instrs := [{ opcode := .moveException, offset := 0, result := some { index := 0 } }]
  succs := [2]
  handler := some h

/-- A region with two clauses for the given classes that go on to the same block. -/
def twoClauses (types types' : List TypeName) : State where
  method :=
    { name := "m"
      graph :=
        { blocks := #[bindingBlock 0, bindingBlock 1, { offset := 0, preds := [0, 1] }]
          live := [0, 1, 2] }
      handlers := #[{ offset := 0, types, entry := some 0, body := [0] },
        { offset := 0, types := types', entry := some 1, body := [1] }]
      registered := [0, 1]
      forest := ⟨#[{ number := 0, handlers := [0, 1], blocks := [] }]⟩ }

def twoMerged (types types' : List TypeName) : State :=
  (exec (mergeClauses 0) (twoClauses types types')).2

theorem mergeClauses_catches_iff_named :
    exec (mergeClauses 0) (twoClauses ["A"] ["B", "A"]) =
        (.ok true, twoMerged ["A"] ["B", "A"]) ∧
      ∀ cls, ((twoMerged ["A"] ["B", "A"]).method.handler 0).Catches {} cls ↔
        ∃ h ∈ [0, 1], ((twoClauses ["A"] ["B", "A"]).method.handler h).Catches {} cls := by
  have hrun : exec (mergeClauses 0) (twoClauses ["A"] ["B", "A"]) =
      (.ok true, twoMerged ["A"] ["B", "A"]) := Prod.ext (by decide +kernel) rfl
  refine ⟨hrun, ?_⟩
  obtain ⟨first, rest, hclauses, hiff⟩ := mergeClauses_catches_iff {} hrun
  cases hclauses
  exact hiff.mpr (Or.inr (Or.inr (by decide +kernel)))

/-- The clause without classes caught everything; merged into another one it catches less. -/
theorem mergeClauses_unnamed_narrows :
    exec (mergeClauses 0) (twoClauses ["A"] []) = (.ok true, twoMerged ["A"] []) ∧
      ((twoClauses ["A"] []).method.handler 1).Catches {} "B" ∧
        ¬((twoMerged ["A"] []).method.handler 0).Catches {} "B" := by
  refine ⟨Prod.ext (by decide +kernel) rfl, ?_, ?_⟩ <;> decide +kernel

end Recovery

end TryRegions
