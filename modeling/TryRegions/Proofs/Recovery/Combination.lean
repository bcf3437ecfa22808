import TryRegions.Proofs.Recovery.Nesting
import TryRegions.Proofs.Recovery.Regroup

/-! Regions stay nested while they are combined. A pair is looked at, one of the two regions goes
under the other, gives it what it holds, or both make room for a new one; then the next pair, or all
pairs again. The nesting is in order at every such point and in the list that is left at the end. -/

open Relation

namespace TryRegions.Recovery

open RecoverM Forest

variable {base : Nat} {f : Forest} {regions : List RegionId}

section Inherit

variable {old : List RegionId} {merged : RegionId}

/-- Takes `o` out of the nesting. What it encloses goes under `merged`, unless it is one of
`old`. -/
def disband (old : List RegionId) (merged : RegionId) (f : Forest) (o : RegionId) : Forest :=
  ((f.unlink o).get o).inner.foldl (place fun c => if c ∈ old then none else some merged)
    (f.unlink o)

theorem inherit_eq (f : Forest) (merged : RegionId) (old : List RegionId) :
    inherit f merged old =
      match outerFor f old with
      | some p => (old.foldl (disband old merged) f).link merged p
      | none => old.foldl (disband old merged) f := by
  have hplace : (fun (f : Forest) (child : RegionId) =>
      if child ∈ old then f.unlink child else (f.unlink child).link child merged) =
      place fun c => if c ∈ old then none else some merged := by
    funext f child
    unfold place
    split <;> simp_all
  have hdisband : disband old merged = fun f o =>
      (f.unlink o |>.get o).inner.foldl (fun f child =>
        if child ∈ old then f.unlink child else (f.unlink child).link child merged)
        (f.unlink o) := by
    funext f o
    rw [hplace, disband]
  rw [hdisband]
  unfold inherit
  cases outerFor f old <;> rfl

theorem size_disband (old : List RegionId) (merged : RegionId) (f : Forest) (o : RegionId) :
    (disband old merged f o).size = f.size :=
  ((SameContent.unlink f o).trans (.foldl _ (SameContent.place _) _ _)).size

/-- A link after a region was disbanded: it was there before, or replaces one to that region. -/
theorem under_disband (h : f.Mirrored base) {o : RegionId} (ho : base ≤ o) {t p : RegionId}
    (ht : base ≤ t) (htp : (disband old merged f o).Under t p) :
    t ≠ o ∧ (f.Under t p ∧ p ≠ o ∨ f.Under t o ∧ t ∉ old ∧ p = merged) := by
  have hmem : ∀ t, t ∈ ((f.unlink o).get o).inner ↔ base ≤ t ∧ (f.unlink o).Under t o := fun t =>
    (h.unlink o).mem_inner ho
  have hold : ∀ t p, (f.unlink o).Under t p ↔ t ≠ o ∧ f.Under t p := by
    intro t p
    rw [Under, outer_unlink]
    by_cases hto : t = o
    · simp [hto]
    · simp [hto, Under]
  rw [disband, Under, outer_places fun c hc => ((hmem c).mp hc).2.lt] at htp
  split at htp
  · rename_i hchild
    obtain ⟨hto, hto'⟩ := (hold t o).mp ((hmem t).mp hchild).2
    refine ⟨hto, Or.inr ⟨hto', ?_⟩⟩
    split at htp
    · cases htp
    · rename_i htold
      exact ⟨htold, (Option.some.inj htp).symm⟩
  · rename_i hchild
    obtain ⟨hto, htp'⟩ := (hold t p).mp htp
    refine ⟨hto, Or.inl ⟨htp', ?_⟩⟩
    rintro rfl
    exact hchild ((hmem t).mpr ⟨ht, htp⟩)

theorem mirrored_disband (h : f.Mirrored base) {o : RegionId} (ho : base ≤ o)
    (hmerged : merged < f.size) : (disband old merged f o).Mirrored base := by
  have hsize := (SameContent.unlink f o).size
  refine (h.unlink o).places (fun c hc => ?_) fun c _ p hp => ?_
  · obtain ⟨hc, hco⟩ := ((h.unlink o).mem_inner ho).mp hc
    exact ⟨hc, hco.lt⟩
  · split at hp
    · cases hp
    · rw [← Option.some.inj hp, hsize]
      exact hmerged

/-- A link after all of `old` were disbanded: its ends are none of them, and it was there before or
replaces one to them. -/
theorem under_disbanded (h : f.Mirrored base) (hold : ∀ o ∈ old, base ≤ o) (hmerged : merged ∉ old)
    (hlt : merged < f.size) {t p : RegionId} (ht : base ≤ t)
    (htp : (old.foldl (disband old merged) f).Under t p) :
    t ∉ old ∧ (f.Under t p ∧ p ∉ old ∨ (∃ o ∈ old, f.Under t o) ∧ p = merged) := by
  -- The induction is on what is left of `old`; `done` is what was disbanded.
  suffices hdone : ∀ (rest done : List RegionId) (g : Forest), (∀ o ∈ rest, o ∈ old) →
      g.Mirrored base → g.size = f.size →
      (∀ t p, base ≤ t → g.Under t p →
        t ∉ done ∧ (f.Under t p ∧ p ∉ done ∨ (∃ o ∈ old, f.Under t o) ∧ p = merged)) →
      (rest.foldl (disband old merged) g).Under t p →
      t ∉ done ++ rest ∧
        (f.Under t p ∧ p ∉ done ++ rest ∨ (∃ o ∈ old, f.Under t o) ∧ p = merged) by
    refine hdone old [] f (fun _ ho => ho) h rfl (fun t p _ htp => ?_) htp
    exact ⟨List.not_mem_nil, Or.inl ⟨htp, List.not_mem_nil⟩⟩
  intro rest
  induction rest with
  | nil =>
    intro done g _ _ _ hg htp
    rw [List.append_nil]
    exact hg t p ht htp
  | cons o rest ih =>
    intro done g hrest hmirrored hsize hg htp
    have ho := hrest o List.mem_cons_self
    have hnext := ih (done ++ [o]) (disband old merged g o)
      (fun x hx => hrest x (List.mem_cons_of_mem o hx))
      (mirrored_disband hmirrored (hold o ho) (hsize ▸ hlt))
      ((size_disband old merged g o).trans hsize) (fun t p ht htp => ?_) htp
    · rwa [List.append_assoc] at hnext
    · rw [List.mem_append, List.mem_singleton, List.mem_append, List.mem_singleton]
      obtain ⟨hto, ⟨htp, hpo⟩ | ⟨hto', -, rfl⟩⟩ := under_disband hmirrored (hold o ho) ht htp
      · obtain ⟨htd, ⟨htp, hpd⟩ | hlink⟩ := hg t p ht htp
        · exact ⟨not_or.mpr ⟨htd, hto⟩, Or.inl ⟨htp, not_or.mpr ⟨hpd, hpo⟩⟩⟩
        · exact ⟨not_or.mpr ⟨htd, hto⟩, Or.inr hlink⟩
      · obtain ⟨htd, ⟨hto', -⟩ | ⟨hlink, -⟩⟩ := hg t o ht hto'
        · exact ⟨not_or.mpr ⟨htd, hto⟩, Or.inr ⟨⟨o, ho, hto'⟩, rfl⟩⟩
        · exact ⟨not_or.mpr ⟨htd, hto⟩, Or.inr ⟨hlink, rfl⟩⟩

theorem mirrored_disbanded (h : f.Mirrored base) (old : List RegionId)
    (hold : ∀ o ∈ old, base ≤ o) (hlt : merged < f.size) :
    (old.foldl (disband old merged) f).Mirrored base ∧
      (old.foldl (disband old merged) f).size = f.size := by
  suffices hdone : ∀ (rest : List RegionId) (g : Forest), (∀ o ∈ rest, base ≤ o) →
      g.Mirrored base → g.size = f.size → (rest.foldl (disband old merged) g).Mirrored base ∧
        (rest.foldl (disband old merged) g).size = f.size from hdone old f hold h rfl
  intro rest
  induction rest with
  | nil => exact fun g _ hg hsize => ⟨hg, hsize⟩
  | cons o rest ih =>
    intro g hrest hg hsize
    refine ih _ (fun x hx => hrest x (List.mem_cons_of_mem o hx))
      (mirrored_disband hg (hrest o List.mem_cons_self) (hsize ▸ hlt)) ?_
    exact (size_disband old merged g o).trans hsize

/-- The region that takes in the merged one encloses one of the old ones and lies under none. -/
theorem outerFor_eq_some {p : RegionId} (h : outerFor f old = some p) :
    (∃ o ∈ old, f.Under o p) ∧ p ∉ old ∧ ∀ o ∈ old, f.hasAncestor p o = false := by
  obtain ⟨hcond, hmem⟩ := And.intro (List.find?_some h) (List.mem_of_find?_eq_some h)
  rw [List.mem_filterMap] at hmem
  rw [Bool.and_eq_true, decide_eq_true_eq, List.all_eq_true] at hcond
  exact ⟨hmem, hcond.1, fun o ho => by simpa using hcond.2 o ho⟩

/-- A link after a region took the place of others: between regions that stay, from one that lay
under one of `old` to the new one, or from the new one to one that enclosed one of `old`. -/
theorem under_inherit (h : f.Mirrored base) (hold : ∀ o ∈ old, base ≤ o) (hmerged : merged ∉ old)
    (hlt : merged < f.size) {t p : RegionId} (ht : base ≤ t)
    (htp : (inherit f merged old).Under t p) :
    f.Under t p ∧ t ∉ old ∧ p ∉ old ∨ (∃ o ∈ old, f.Under t o) ∧ p = merged ∨
      t = merged ∧ ∃ o ∈ old, f.Under o p := by
  have hmoved : (old.foldl (disband old merged) f).Under t p →
      f.Under t p ∧ t ∉ old ∧ p ∉ old ∨ (∃ o ∈ old, f.Under t o) ∧ p = merged ∨
        t = merged ∧ ∃ o ∈ old, f.Under o p := by
    intro htp
    obtain ⟨htold, ⟨htp, hpold⟩ | hlink⟩ := under_disbanded h hold hmerged hlt ht htp
    · exact Or.inl ⟨htp, htold, hpold⟩
    · exact Or.inr (Or.inl hlink)
  rw [inherit_eq] at htp
  split at htp
  · rename_i parent hparent
    have hsize := (mirrored_disbanded h old hold hlt).2
    rcases under_link (hsize ▸ hlt) htp with htp | ⟨rfl, rfl⟩
    · exact hmoved htp
    · exact Or.inr (Or.inr ⟨rfl, (outerFor_eq_some hparent).1⟩)
  · exact hmoved htp

/-- A region that stands alone takes the place of others. -/
theorem nested_inherit (h : Nested base f regions) (hold : ∀ o ∈ old, o ∈ regions)
    (hmem : merged ∈ regions) (hmerged : merged ∉ old) (hfree : (f.get merged).outer = none)
    (hempty : ∀ t, base ≤ t → ¬f.Under t merged) :
    Nested base (inherit f merged old) (regions.filter fun r => decide (r ∉ old)) := by
  have hbase : ∀ o ∈ old, base ≤ o := fun o ho => (h.bounds o (hold o ho)).1
  have hlt := (h.bounds merged hmem).2
  obtain ⟨hmirrored, hsize⟩ := mirrored_disbanded h.mirrored old hbase hlt
  have hunder := fun {t p} (ht : base ≤ t) =>
    under_disbanded (t := t) (p := p) h.mirrored hbase hmerged hlt ht
  rw [inherit_eq]
  generalize old.foldl (disband old merged) f = g at hmirrored hsize hunder ⊢
  have hstays : ∀ r, r ∈ regions.filter (fun r => decide (r ∉ old)) ↔ r ∈ regions ∧ r ∉ old :=
    fun r => by rw [List.mem_filter, decide_eq_true_eq]
  have hnone : ∀ p, ¬f.Under merged p := fun p hp => by
    rw [Under, hfree] at hp
    cases hp
  have hlisted : ∀ t p, base ≤ t → g.Under t p →
      (t ∈ regions ∧ t ∉ old) ∧ p ∈ regions ∧ p ∉ old := by
    intro t p ht htp
    obtain ⟨htold, ⟨htp, hpold⟩ | ⟨⟨o, -, hto⟩, rfl⟩⟩ := hunder ht htp
    · obtain ⟨htmem, hpmem⟩ := h.listed t p ht htp
      exact ⟨⟨htmem, htold⟩, hpmem, hpold⟩
    · exact ⟨⟨(h.listed t o ht hto).1, htold⟩, hmem, hmerged⟩
  -- New links lead to the merged region only, from which no link leads on.
  have hway : ∀ {a b}, base ≤ a → TransGen g.Under a b → (b = merged → a = merged) →
      TransGen f.Under a b := by
    intro a b ha hab
    refine (transGen_of_closed (D := fun a => base ≤ a) (U := fun a => a = merged)
      (fun a b ha hab => ?_) (fun a b ha hab => ?_) (fun a b ha hab => ?_) hab ha).2
    · exact (h.bounds b (hlisted a b ha hab).2.1).1
    · obtain ⟨-, ⟨hab, -⟩ | ⟨⟨o, -, hao⟩, rfl⟩⟩ := hunder ha hab
      · exact Or.inl hab
      · exact Or.inr ⟨fun heq => hnone o (heq ▸ hao), rfl⟩
    · exact absurd (ha ▸ hab) (hnone b)
  have hmid : Nested base g (regions.filter fun r => decide (r ∉ old)) := by
    constructor
    case nodup => exact h.nodup.filter _
    case bounds => exact fun r hr => hsize ▸ h.bounds r ((hstays r).mp hr).1
    case listed =>
      intro t p ht htp
      rw [hstays, hstays]
      exact hlisted t p ht htp
    case mirrored => exact hmirrored
    case acyclic => exact fun r hr hcycle => h.acyclic r hr (hway hr hcycle id)
  have hnone' : ∀ p, ¬g.Under merged p := by
    intro p hp
    obtain ⟨-, ⟨hp, -⟩ | ⟨⟨o, -, ho⟩, -⟩⟩ := hunder (h.bounds merged hmem).1 hp
    · exact hnone p hp
    · exact hnone o ho
  split
  · rename_i p hp
    obtain ⟨⟨o, ho, hop⟩, hpold, hbelow⟩ := outerFor_eq_some hp
    have hpmem := (h.listed o p (hbase o ho) hop).2
    have hpbase := (h.bounds p hpmem).1
    have hne : p ≠ merged := fun heq => hempty o (hbase o ho) (heq ▸ hop)
    refine hmid.nest ((hstays p).mpr ⟨hpmem, hpold⟩) ((hstays merged).mpr ⟨hmem, hmerged⟩) hne ?_ ?_
    · exact Option.eq_none_iff_forall_ne_some.mpr hnone'
    · -- A way from `p` to the merged region would have led to an old one.
      intro hcycle
      obtain ⟨x, hpx, hx⟩ := TransGen.tail'_iff.mp hcycle
      have hpx' : ReflTransGen f.Under p x := by
        rcases reflTransGen_iff_eq_or_transGen.mp hpx with rfl | hpx
        · exact .refl
        · refine (hway hpbase hpx fun heq => ?_).to_reflTransGen
          exact absurd (heq ▸ hx) (hnone' merged)
      have hxbase : base ≤ x := by
        rcases reflTransGen_iff_eq_or_transGen.mp hpx' with rfl | hpx'
        · exact hpbase
        · exact (h.bounds x (h.mem_of_transGen hpbase hpx').2).1
      obtain ⟨-, ⟨hx, -⟩ | ⟨⟨q, hq, hxq⟩, -⟩⟩ := hunder hxbase hx
      · exact hempty x hxbase hx
      · have habove := (h.hasAncestor_iff hpbase).mpr (TransGen.tail' hpx' hxq)
        rw [hbelow q hq] at habove
        cases habove
  · exact hmid

end Inherit

/-- The forest only grows. -/
def Grows (s t : State) : Prop := s.method.forest.size ≤ t.method.forest.size

instance : IsPreorder State Grows where
  refl _ := Nat.le_refl _
  trans _ _ _ := Nat.le_trans

variable {s t u : State} {outer inner : RegionId}

theorem moves_newRegion (hs : List HandlerId) (blocks : List BlockId) :
    Moves Grows (newRegion hs blocks) s fun r t => r = s.method.forest.size ∧
      t.method = { s.method with
        forest := s.method.forest.push { number := s.nextRegion, handlers := hs, blocks } } := by
  refine .of_get (Moves.bind (Q := fun _ t => t.method = { s.method with
    forest := s.method.forest.push { number := s.nextRegion, handlers := hs, blocks } }) ⟨?_, rfl⟩
    fun _ t _ ht => .pure ⟨rfl, ht⟩)
  show s.method.forest.size ≤ (s.method.forest.push _).size
  rw [size_push]
  exact Nat.le_succ _

theorem length_without {old : List RegionId} (hnodup : regions.Nodup) (hold : old.Nodup)
    (hsub : old ⊆ regions) :
    (regions.filter fun r => decide (r ∉ old)).length + old.length = regions.length := by
  have hparts : (old ++ regions.filter fun r => decide (r ∉ old)).Nodup := by
    refine List.nodup_append.mpr ⟨hold, hnodup.filter _, fun a ha b hb heq => ?_⟩
    simp [← heq, ha] at hb
  have hperm : (old ++ regions.filter fun r => decide (r ∉ old)).Perm regions := by
    refine (List.perm_ext_iff_of_nodup hparts hnodup).mpr fun r => ?_
    by_cases hr : r ∈ old
    · simp [hr, hsub hr]
    · simp [hr]
  have hlength := hperm.length_eq
  rw [List.length_append] at hlength
  omega

theorem length_merge (hnodup : regions.Nodup) (ho : outer ∈ regions) (hi : inner ∈ regions)
    (hne : outer ≠ inner) (merged : RegionId) :
    ((regions.filter fun r => decide (r ∉ [outer, inner])) ++ [merged]).length + 1 =
      regions.length := by
  have hpair : [outer, inner].Nodup := by simp [hne]
  have hlength := length_without hnodup hpair (by simp [ho, hi])
  simp only [List.length_append, List.length_cons, List.length_nil] at hlength ⊢
  omega

theorem length_absorb (hnodup : regions.Nodup) (hi : inner ∈ regions) :
    (regions.filter (· ≠ inner)).length + 1 = regions.length := by
  have hlength := length_without hnodup (List.nodup_singleton inner) (by simp [hi])
  simpa using hlength

/-- A new region in the place of two. -/
theorem moves_merge (h : Nested base s.method.forest regions) (ho : outer ∈ regions)
    (hi : inner ∈ regions) (hne : outer ≠ inner) (hs : List HandlerId) (blocks : List BlockId) :
    Moves Grows (merge regions outer inner hs blocks) s fun result t =>
      Nested base t.method.forest result ∧ result.length + 1 = regions.length := by
  refine (moves_newRegion hs blocks).bind fun merged t _ ht => ?_
  obtain ⟨rfl, hmethod⟩ := ht
  have hforest := congrArg Method.forest hmethod
  have hbounds := h.bounds outer ho
  have hpush : Nested base t.method.forest (regions ++ [s.method.forest.size]) := by
    rw [hforest]
    exact h.push (Nat.le_trans hbounds.1 (Nat.le_of_lt hbounds.2)) rfl rfl
  have hlt : ∀ o ∈ [outer, inner], o ∈ regions := by
    intro o ho'
    rcases List.mem_cons.mp ho' with rfl | ho'
    · exact ho
    · exact List.mem_singleton.mp ho' ▸ hi
  have hnew : s.method.forest.size ∉ [outer, inner] := fun hmem =>
    Nat.lt_irrefl _ (h.bounds _ (hlt _ hmem)).2
  have hnested := nested_inherit hpush (fun o ho => List.mem_append_left _ (hlt o ho))
    (List.mem_append_right _ List.mem_cons_self) hnew ?_ fun r hr hunder => ?_
  · rw [List.filter_append, List.filter_singleton, decide_eq_true hnew, cond_true] at hnested
    refine Moves.bind (Q := fun _ u => Nested base u.method.forest
      ((regions.filter fun r => decide (r ∉ [outer, inner])) ++ [s.method.forest.size])) ?_
      fun _ u _ hu => .pure ⟨hu, length_merge h.nodup ho hi hne _⟩
    refine .modify ?_ hnested
    exact Nat.le_of_eq (inherit_sameContent t.method.forest _ _).size.symm
  · rw [hforest, get_push, if_pos rfl]
  · -- No region was under the new one before it was there.
    rw [hforest, Under, get_push] at hunder
    split at hunder
    · cases hunder
    · exact Nat.lt_irrefl _ (h.bounds _ (h.listed r _ hr hunder).2).2

/-- A pair asks for a change of the nesting only if the outer region is not under the inner one. -/
theorem hasAncestor_of_relation {m : Method} {r : Relation} (h : relation m outer inner = .ok r)
    (hr : r = .absorb ∨ r = .nest) : m.forest.hasAncestor outer inner = false := by
  rcases relation_eq_ok_iff.mp h with ⟨-, rfl⟩ | ⟨-, code, block, -, -, rfl⟩
  · simp at hr
  · unfold judge at hr
    split at hr
    · split at hr
      · simp at hr
      · rename_i hnot
        exact Bool.eq_false_iff.mpr hnot
    · split at hr <;> simp at hr

/-- One pair: the nesting stays in order, and the list of regions loses one if it changes. -/
theorem moves_relate (h : Nested base s.method.forest regions) (ho : outer ∈ regions)
    (hi : inner ∈ regions) (hne : outer ≠ inner) (hfree : (s.method.region inner).outer = none) :
    Moves Grows (relate regions outer inner) s fun result t =>
      Nested base t.method.forest result.1 ∧ (result.2 = false → result.1 = regions) ∧
        (result.2 = true → result.1.length + 1 = regions.length) := by
  refine .of_method (.of_ofExcept fun r hr => ?_)
  have hbelow : r = .absorb ∨ r = .nest → ¬TransGen s.method.forest.Under outer inner := by
    intro hcase hway
    have habove := (h.hasAncestor_iff (h.bounds outer ho).1).mpr hway
    rw [hasAncestor_of_relation hr hcase] at habove
    cases habove
  cases r with
  | sameBlocks =>
    refine (moves_merge h ho hi hne _ _).bind fun result t _ ht =>
      .pure ⟨ht.1, nofun, fun _ => ht.2⟩
  | sameClauses =>
    refine (moves_merge h ho hi hne _ _).bind fun result t _ ht =>
      .pure ⟨ht.1, nofun, fun _ => ht.2⟩
  | unrelated => exact .pure ⟨h, fun _ => rfl, nofun⟩
  | absorb =>
    have hgrown : s.method.forest.SameNesting (s.method.forest.modify outer fun r => { r with
        blocks := appendNew (s.method.region outer).blocks (s.method.region inner).blocks }) :=
      .modify _ _ fun _ => ⟨rfl, rfl⟩
    have hmoved := (h.sameNesting hgrown).absorb ho hi hne ((hgrown.outer inner).trans hfree)
      (hgrown.under ▸ hbelow (Or.inl rfl))
    rw [hgrown.inner] at hmoved
    refine Moves.bind (Q := fun _ t => Nested base t.method.forest (regions.filter (· ≠ inner)))
      (.modify ?_ (hmoved.sameNesting (.modify _ _ fun _ => ⟨rfl, rfl⟩)))
      fun _ t _ ht => .pure ⟨ht, nofun, fun _ => ?_⟩
    · refine Nat.le_of_eq ?_
      show _ = (Forest.modify _ _ _).size
      rw [size_modify, (SameContent.rehang _ _ _).size, size_modify]
    · exact length_absorb h.nodup hi
  | nest =>
    have hcut : s.method.forest.SameNesting (s.method.forest.modify inner fun r => { r with
        handlers := (s.method.region inner).handlers.filter fun h =>
          decide (h ∉ (s.method.region outer).handlers) }) :=
      .modify _ _ fun _ => ⟨rfl, rfl⟩
    have hmoved := (h.sameNesting hcut).nest ho hi hne ((hcut.outer inner).trans hfree)
      (hcut.under ▸ hbelow (Or.inr rfl))
    refine Moves.bind (Q := fun _ t => Nested base t.method.forest regions)
      (.modify ?_ (hmoved.sameNesting (.modify _ _ fun _ => ⟨rfl, rfl⟩)))
      fun _ t _ ht => .pure ⟨ht, fun _ => rfl, nofun⟩
    refine Nat.le_of_eq ?_
    show _ = (Forest.modify _ _ _).size
    rw [size_modify, (SameContent.link _ _ _).size, size_modify]

/-- A point of the combination of regions: where it stands, the regions that there are, and the
pairs that are still to be looked at. -/
structure Combining where
  state : State
  regions : List RegionId
  pairs : List (RegionId × RegionId)

namespace Combining

/-- All pairs are to be looked at. -/
def start (s : State) (regions : List RegionId) : Combining where
  state := s
  regions := regions
  pairs := regions.flatMap fun o => regions.map fun i => (o, i)

/-- From one point to the next. A pair is left alone, or it is related; if that changes the list of
regions, all pairs of the new list come next. -/
inductive Step : Combining → Combining → Prop where
  | skip {s regions outer inner pairs}
      (hpair : outer = inner ∨ (s.method.region inner).outer.isSome = true) :
      Step ⟨s, regions, (outer, inner) :: pairs⟩ ⟨s, regions, pairs⟩
  | keep {s regions outer inner pairs result t}
      (hne : outer ≠ inner) (hfree : (s.method.region inner).outer = none)
      (hrun : exec (relate regions outer inner) s = (.ok (result, false), t)) :
      Step ⟨s, regions, (outer, inner) :: pairs⟩ ⟨t, result, pairs⟩
  | change {s regions outer inner pairs result t}
      (hne : outer ≠ inner) (hfree : (s.method.region inner).outer = none)
      (hrun : exec (relate regions outer inner) s = (.ok (result, true), t)) :
      Step ⟨s, regions, (outer, inner) :: pairs⟩ (start t result)

/-- The regions are nested, and the pairs are pairs of regions. -/
structure InOrder (base : Nat) (p : Combining) : Prop where
  nested : Nested base p.state.method.forest p.regions
  pairs : ∀ q ∈ p.pairs, q.1 ∈ p.regions ∧ q.2 ∈ p.regions

theorem mem_pairs_start : ∀ q ∈ (start s regions).pairs, q.1 ∈ regions ∧ q.2 ∈ regions := by
  intro q hq
  obtain ⟨o, ho, hq⟩ := List.mem_flatMap.mp hq
  obtain ⟨i, hi, rfl⟩ := List.mem_map.mp hq
  exact ⟨ho, hi⟩

theorem inOrder_start (h : Nested base s.method.forest regions) :
    (start s regions).InOrder base where
  nested := h
  pairs := mem_pairs_start

theorem InOrder.step {p q : Combining} (h : p.InOrder base) (hpq : Step p q) : q.InOrder base := by
  cases hpq with
  | skip hpair => exact ⟨h.nested, fun x hx => h.pairs x (List.mem_cons_of_mem _ hx)⟩
  | keep hne hfree hrun =>
    obtain ⟨ho, hi⟩ := h.pairs _ List.mem_cons_self
    obtain ⟨-, hnested, hsame, -⟩ := (moves_relate h.nested ho hi hne hfree).ok hrun
    refine ⟨hnested, fun x hx => ?_⟩
    dsimp only at hsame ⊢
    rw [hsame rfl]
    exact h.pairs x (List.mem_cons_of_mem _ hx)
  | change hne hfree hrun =>
    obtain ⟨ho, hi⟩ := h.pairs _ List.mem_cons_self
    exact inOrder_start ((moves_relate h.nested ho hi hne hfree).ok hrun).2.1

theorem InOrder.run {p q : Combining} (h : p.InOrder base) (hpq : ReflTransGen Step p q) :
    q.InOrder base := by
  induction hpq with
  | refl => exact h
  | tail _ hstep ih => exact ih.step hstep

/-- Going through the pairs is a run: to the end of the pairs, or to a new start with one region
less. -/
theorem run_of_relatePairs {pairs : List (RegionId × RegionId)} {result : List RegionId}
    {changed : Bool} (h : InOrder base ⟨s, regions, pairs⟩)
    (hrun : exec (relatePairs regions pairs) s = (.ok (result, changed), t)) :
    if changed then
      ReflTransGen Step ⟨s, regions, pairs⟩ (start t result) ∧ result.length + 1 = regions.length
    else ReflTransGen Step ⟨s, regions, pairs⟩ ⟨t, result, []⟩ := by
  induction pairs generalizing s with
  | nil =>
    cases hrun
    exact .refl
  | cons p pairs ih =>
    obtain ⟨outer, inner⟩ := p
    obtain ⟨m, s', hm, hrun⟩ := exec_bind_eq_ok.mp hrun
    cases hm
    -- The rest of the pairs, from the point after this one.
    have hrest : ∀ {u : State} (hstep : Step ⟨s, regions, (outer, inner) :: pairs⟩
        ⟨u, regions, pairs⟩)
        (hrun : exec (relatePairs regions pairs) u = (.ok (result, changed), t)),
        if changed then
          ReflTransGen Step ⟨s, regions, (outer, inner) :: pairs⟩ (start t result) ∧
            result.length + 1 = regions.length
        else ReflTransGen Step ⟨s, regions, (outer, inner) :: pairs⟩ ⟨t, result, []⟩ := by
      intro u hstep hrun
      have hgo := ih (h.step hstep) hrun
      cases changed with
      | true => exact ⟨.head hstep hgo.1, hgo.2⟩
      | false => exact .head hstep hgo
    split at hrun
    · rename_i hpair
      exact hrest (.skip (by simpa using hpair)) hrun
    · rename_i hpair
      obtain ⟨hne, hfree⟩ : outer ≠ inner ∧ (s.method.region inner).outer = none := by
        simpa using hpair
      obtain ⟨ho, hi⟩ := h.pairs _ List.mem_cons_self
      obtain ⟨⟨list, new⟩, u, hrelate, hrun⟩ := exec_bind_eq_ok.mp hrun
      obtain ⟨-, -, hsame, hshorter⟩ := (moves_relate h.nested ho hi hne hfree).ok hrelate
      cases new with
      | false =>
        obtain rfl : list = regions := hsame rfl
        exact hrest (.keep hne hfree hrelate) hrun
      | true =>
        cases hrun
        exact ⟨.single (.change hne hfree hrelate), hshorter rfl⟩

/-- The combination is a run that ends when no pair is left. -/
theorem run_of_combineAll {fuel : Nat} {result : List RegionId}
    (h : Nested base s.method.forest regions) (hfuel : regions.length ≤ fuel)
    (hrun : exec (combineAll fuel regions) s = (.ok result, t)) :
    ReflTransGen Step (start s regions) ⟨t, result, []⟩ := by
  induction fuel generalizing s regions with
  | zero =>
    obtain rfl := List.eq_nil_of_length_eq_zero (Nat.le_zero.mp hfuel)
    cases hrun
    exact .refl
  | succ fuel ih =>
    obtain ⟨⟨list, changed⟩, u, hpairs, hrun⟩ := exec_bind_eq_ok.mp hrun
    have hgo := run_of_relatePairs (inOrder_start h) hpairs
    cases changed with
    | false =>
      cases hrun
      exact hgo
    | true =>
      obtain ⟨hgo, hshorter⟩ := hgo
      refine hgo.trans (ih ((inOrder_start h).run hgo).nested ?_ hrun)
      omega

end Combining

/-- One region for each handler, none in another. -/
theorem moves_regionsOf (covered : HandlerId → List BlockId) (handlers : List HandlerId) :
    Moves Grows (handlers.mapM (regionOf covered)) s fun regions t =>
      Nested s.method.forest.size t.method.forest regions := by
  refine Moves.collect (fun _ out t => Nested s.method.forest.size t.method.forest out)
    (fun h _ out t hst hout => ?_) (.nil _)
  refine .of_method ((moves_newRegion _ _).mono fun r u _ hu => ?_)
  obtain ⟨rfl, hmethod⟩ := hu
  rw [hmethod]
  exact hout.push hst rfl rfl

/-- A region has no code of its clauses. -/
def Apart (m : Method) (r : RegionId) : Prop :=
  ∀ h ∈ (m.region r).handlers, ∀ b ∈ (m.region r).blocks, b ∉ (m.handler h).body

/-- The region of a handler is in no other one and has none of the handler's code. -/
theorem moves_regionsOf_apart (covered : HandlerId → List BlockId) (handlers : List HandlerId) :
    Moves Grows (handlers.mapM (regionOf covered)) s fun made t =>
      t.method.registered = s.method.registered ∧ made.length = handlers.length ∧
        ∀ r ∈ made, (t.method.region r).outer = none ∧ Apart t.method r := by
  refine (Moves.collect (fun rest made t => t.method.registered = s.method.registered ∧
    made.length + rest.length = handlers.length ∧
      ∀ r ∈ made, r < t.method.forest.size ∧ (t.method.region r).outer = none ∧
        Apart t.method r) (fun h rest made t _ ht => ?_)
    ⟨rfl, Nat.zero_add _, nofun⟩).mono fun made t _ ht =>
      ⟨ht.1, ht.2.1, fun r hr => (ht.2.2 r hr).2⟩
  refine .of_method ((moves_newRegion _ _).mono fun r u _ hu => ?_)
  obtain ⟨rfl, hmethod⟩ := hu
  obtain ⟨hregistered, hlength, hapart⟩ := ht
  rw [hmethod]
  refine ⟨hregistered, ?_, fun r hr => ?_⟩
  · simp only [List.length_append, List.length_cons, List.length_nil] at hlength ⊢
    omega
  · unfold Apart Method.region
    simp only [size_push, get_push]
    rcases List.mem_append.mp hr with hr | hr
    · obtain ⟨hlt, hapart⟩ := hapart r hr
      rw [if_neg (Nat.ne_of_lt hlt)]
      exact ⟨Nat.lt_succ_of_lt hlt, hapart⟩
    · obtain rfl := List.mem_singleton.mp hr
      rw [if_pos rfl]
      refine ⟨Nat.lt_succ_self _, rfl, fun h' hh' b hb => ?_⟩
      rw [List.mem_singleton.mp hh']
      exact of_decide_eq_true (List.mem_filter.mp hb).2

/-- Links that were there before, or lead around regions that were between. -/
def Shortens (base : Nat) (f f' : Forest) : Prop :=
  ∀ r o, base ≤ r → f'.Under r o → TransGen f.Under r o

theorem Shortens.sameNesting {f f' : Forest} (h : f.SameNesting f') : Shortens base f f' :=
  fun _ _ _ hro => .single (h.under ▸ hro)

theorem Shortens.trans {f f' f'' : Forest} (h : Shortens base f f') (hn : Nested base f' regions)
    (h' : Shortens base f' f'') : Shortens base f f'' := by
  intro r o hr hro
  have hway := h' r o hr hro
  clear hro
  induction hway with
  | single hro => exact h _ _ hr hro
  | tail hway hlink ih =>
    exact ih.trans (h _ _ (hn.bounds _ (hn.mem_of_transGen hr hway).2).1 hlink)

/-- A region that stays keeps its place; one that goes leaves what it encloses to the one around
it. -/
theorem moves_clearRegion {kept rest : List RegionId} {r : RegionId}
    (h : Nested base s.method.forest (kept ++ r :: rest)) :
    Moves Grows (clearRegion r) s fun stays t =>
      Nested base t.method.forest ((if stays then kept ++ [r] else kept) ++ rest) ∧
        Shortens base s.method.forest t.method.forest := by
  refine .of_method ?_
  dsimp only
  split
  · exact .fault
  · refine Moves.bind (Q := fun _ t => s.method.forest.SameNesting t.method.forest)
      ⟨?_, .modify _ r fun _ => ⟨rfl, rfl⟩⟩ fun _ t _ ht => ?_
    · exact Nat.le_of_eq (size_modify _ _ _).symm
    · have hnested := h.sameNesting ht
      split
      · refine .pure ⟨?_, .sameNesting ht⟩
        rw [if_pos rfl, List.append_assoc]
        exact hnested
      · have hdrop := hnested.drop (r := r) (by simp)
        rw [ht.outer, List.filter_append, List.filter_cons_of_neg (by simp)] at hdrop
        have hother : ∀ q ∈ kept ++ rest, q ≠ r := by
          have hnodup := List.nodup_middle.mp h.nodup
          exact fun q hq heq => (List.nodup_cons.mp hnodup).1 (heq ▸ hq)
        rw [← List.filter_append, List.filter_eq_self.mpr fun q hq => by simpa using hother q hq]
          at hdrop
        have hlinks : Shortens base s.method.forest ((t.method.forest.unlink r).rehang
            ((t.method.forest.unlink r).get r).inner (s.method.region r).outer) := by
          intro q o hq hqo
          rw [Method.region, ← ht.outer] at hqo
          rw [← ht.under]
          obtain ⟨-, ⟨hqo, -⟩ | ⟨hqr, hro⟩⟩ := hnested.under_drop (by simp) hq hqo
          · exact .single hqo
          · exact .tail (.single hqr) hro
        refine .of_method (Moves.bind (Q := fun _ u => u.method.forest = t.method.forest)
          (.modify (Nat.le_refl _) rfl) fun _ u _ hu => ?_)
        refine Moves.bind (Q := fun _ v => Nested base v.method.forest (kept ++ rest) ∧
          Shortens base s.method.forest v.method.forest)
          (.modify (Nat.le_of_eq ?_) ?_) fun _ v _ hv => .pure hv
        · show _ = (Forest.rehang _ _ _).size
          rw [(SameContent.rehang _ _ _).size, (SameContent.unlink _ _).size]
        · rw [← hu] at hdrop hlinks
          exact ⟨hdrop, hlinks⟩

theorem moves_clearRegions (h : Nested base s.method.forest regions) :
    Moves Grows (clearRegions regions) s fun kept t =>
      Nested base t.method.forest kept ∧ Shortens base s.method.forest t.method.forest := by
  refine Moves.bind (Moves.pick (fun rest kept t => Nested base t.method.forest (kept ++ rest) ∧
    Shortens base s.method.forest t.method.forest) (fun r rest kept t _ ht => ?_)
    ⟨h, .sameNesting (.refl _)⟩) fun kept t _ ht => ?_
  · exact (moves_clearRegion ht.1).mono fun stays u _ hu => ⟨hu.1, ht.2.trans ht.1 hu.2⟩
  rw [List.append_nil] at ht
  exact Moves.bind (Q := fun _ u => u.method.forest = t.method.forest)
    (.modify (Nat.le_refl _) rfl) fun _ u _ hu => .pure (hu ▸ ht)

/-- The regions that grouping gives are nested, among those that it made. -/
theorem nested_of_group {types : TypeHierarchy}
    (hrun : exec (group types) s = (.ok regions, t)) :
    Nested s.method.forest.size t.method.forest regions := by
  rw [group_eq] at hrun
  obtain ⟨covered, u, hdrop, hrun⟩ := exec_bind_eq_ok.mp hrun
  have hsize := (quiet_of_culls (culls_dropHandlers.ok hdrop).1).nesting.size
  rw [← hsize]
  obtain ⟨m, _, hm, hrun⟩ := exec_bind_eq_ok.mp hrun
  cases hm
  split at hrun
  · cases hrun
    exact .nil _
  · obtain ⟨made, v, hmade, hrun⟩ := exec_bind_eq_ok.mp hrun
    obtain ⟨combined, w, hcombined, hrun⟩ := exec_bind_eq_ok.mp hrun
    obtain ⟨_, x, hmerged, hrun⟩ := exec_bind_eq_ok.mp hrun
    obtain ⟨kept, y, hkept, hrun⟩ := exec_bind_eq_ok.mp hrun
    obtain ⟨_, z, hsorted, hrun⟩ := exec_bind_eq_ok.mp hrun
    obtain ⟨m, _, hm, hrun⟩ := exec_bind_eq_ok.mp hrun
    cases hm
    obtain ⟨_, z', hrecorded, hrun⟩ := exec_bind_eq_ok.mp hrun
    cases hrun
    have hstart := Combining.inOrder_start ((moves_regionsOf covered _).ok hmade).2
    have hend := hstart.run (Combining.run_of_combineAll hstart.nested (Nat.le_refl _) hcombined)
    have hclauses := hend.nested.sameNesting
      (quiet_of_culls ((culls_mergeAllClauses combined).ok hmerged).1).nesting
    have hcleared := ((moves_clearRegions hclauses).ok hkept).2.1
    have hsort : Moves (ReflTransGen Cull) (regions.forM (sortClauses types)) y fun _ _ => True :=
      .each fun r _ _ _ => culls_sortClauses types r
    have hlog : Moves (ReflTransGen Cull) (regions.forM fun r =>
        record (.resultRegion (z.method.regionText r))) z fun _ _ => True :=
      .each fun r _ _ _ => culls_record _
    exact (hcleared.sameNesting (quiet_of_culls (hsort.ok hsorted).1).nesting).sameNesting
      (quiet_of_culls (hlog.ok hrecorded).1).nesting

/-- The nesting of the regions that are made from `s` on, whatever the method: it is in order at
every point of the combination and in the list that grouping gives. The combination is a run from
point to point that goes on until no pair is left. -/
theorem combination_nested (types : TypeHierarchy) (s : State) :
    (∀ covered (handlers : List HandlerId) made t,
      exec (handlers.mapM (regionOf covered)) s = (.ok made, t) →
      (∀ p, ReflTransGen Combining.Step (.start t made) p →
        Nested s.method.forest.size p.state.method.forest p.regions) ∧
      ∀ result u, exec (combineAll made.length made) t = (.ok result, u) →
        ReflTransGen Combining.Step (.start t made) ⟨u, result, []⟩) ∧
    ∀ regions t, exec (group types) s = (.ok regions, t) →
      Nested s.method.forest.size t.method.forest regions := by
  refine ⟨fun covered handlers made t hmade => ?_, fun regions t hrun => nested_of_group hrun⟩
  have hnested := ((moves_regionsOf covered handlers).ok hmade).2
  refine ⟨fun p hp => ((Combining.inOrder_start hnested).run hp).nested, fun result u hrun => ?_⟩
  exact Combining.run_of_combineAll hnested (Nat.le_refl _) hrun

/-- The code of handler 0, block 3, is covered by handler 1. -/
def coveredHandler : State where
  method :=
    { name := "m"
      graph :=
        { blocks := #[
            { offset := 0, succs := [1] },
            { offset := 2, catches := some ⟨[0, 1]⟩, preds := [0], succs := [2] },
            { offset := 4, preds := [1, 3, 4] },
            { offset := 6, catches := some ⟨[1]⟩, handler := some 0, succs := [2] },
            { offset := 10, handler := some 1, succs := [2] }]
          live := [0, 1, 2, 3, 4] }
      enter := some 0
      handlers := #[{ offset := 6, types := ["A"], entry := some 3, body := [3] },
        { offset := 10, types := ["B"], entry := some 4, body := [4] }]
      registered := [0, 1] }

def coveredMade : State :=
  (exec ([0, 1].mapM (regionOf (coveredBlocks coveredHandler.method.graph))) coveredHandler).2

def coveredGrouped : State := (exec (group {}) coveredHandler).2

/-- The region of handler 0 goes under that of handler 1. -/
theorem combination_nested_coveredHandler :
    exec ([0, 1].mapM (regionOf (coveredBlocks coveredHandler.method.graph))) coveredHandler =
        (.ok [0, 1], coveredMade) ∧
      Nested coveredHandler.method.forest.size coveredMade.method.forest [0, 1] ∧
      exec (group {}) coveredHandler = (.ok [0, 1], coveredGrouped) ∧
      (coveredGrouped.method.region 0).outer = some 1 ∧
      Nested coveredHandler.method.forest.size coveredGrouped.method.forest [0, 1] := by
  have hmade : exec ([0, 1].mapM (regionOf (coveredBlocks coveredHandler.method.graph)))
      coveredHandler = (.ok [0, 1], coveredMade) :=
    Prod.ext (by decide +kernel) (by rw [coveredMade])
  have hgrouped : exec (group {}) coveredHandler = (.ok [0, 1], coveredGrouped) :=
    Prod.ext (by decide +kernel) (by rw [coveredGrouped])
  obtain ⟨hloop, hlist⟩ := combination_nested {} coveredHandler
  have hstart := (hloop _ _ _ _ hmade).1 (.start coveredMade [0, 1]) .refl
  exact ⟨hmade, hstart, hgrouped, by decide +kernel, hlist _ _ hgrouped⟩

end TryRegions.Recovery
