import TryRegions.Proofs.Recovery.Stages

/-! How regions come by their blocks. A region starts with the blocks that its handler guards and
gets others only when it takes in a region, which goes under it or is absorbed. A block of a
handler's own code is none that the handler guards, so it is in the handler's region exactly where
it was taken in. -/

open Relation

namespace TryRegions.Recovery

open RecoverM Forest

section Related

def State.withForest (s : State) (f : Forest) : State :=
  { s with method := { s.method with forest := f } }

/-- The region that two regions become. -/
def mergedRegion (s : State) (outer inner : RegionId) (blocks : List BlockId) : Region where
  number := s.nextRegion
  handlers := appendNew (s.method.region outer).handlers (s.method.region inner).handlers
  blocks := blocks

/-- A new region takes the place of `outer` and `inner`. -/
def mergeInto (s : State) (outer inner : RegionId) (blocks : List BlockId) : State :=
  let f := s.method.forest
  { s with
    nextRegion := s.nextRegion + 1
    method := { s.method with
      forest := inherit (f.push (mergedRegion s outer inner blocks)) f.size [outer, inner] } }

/-- What a pair leaves, by what it asks for: the list of regions, whether that changed, and the
state. -/
def related (regions : List RegionId) (outer inner : RegionId) (s : State) :
    Relation → (List RegionId × Bool) × State
  | .sameBlocks =>
    (((regions.filter fun r => decide (r ∉ [outer, inner])) ++ [s.method.forest.size], true),
      mergeInto s outer inner (s.method.region outer).blocks)
  | .absorb =>
    ((regions.filter (· ≠ inner), true), s.withForest (absorbInto s.method.forest outer inner))
  | .nest => ((regions, false), s.withForest (nestInto s.method.forest outer inner))
  | .sameClauses =>
    (((regions.filter fun r => decide (r ∉ [outer, inner])) ++ [s.method.forest.size], true),
      mergeInto s outer inner
        (appendNew (s.method.region outer).blocks (s.method.region inner).blocks))
  | .unrelated => ((regions, false), s)

variable {s : State} {regions : List RegionId} {outer inner : RegionId}

theorem exec_relate {r : Relation} (h : relation s.method outer inner = .ok r) :
    exec (relate regions outer inner) s =
      (.ok (related regions outer inner s r).1, (related regions outer inner s r).2) := by
  unfold relate
  rw [exec_bind]
  show exec (ofExcept (relation s.method outer inner) >>= _) s = _
  rw [h]
  cases r <;> rfl

variable {base : Nat} {f : Forest}

theorem outer_nestInto (hinner : inner < f.size) (r : RegionId) :
    ((nestInto f outer inner).get r).outer = if r = inner then some outer else (f.get r).outer := by
  let cut := f.modify inner fun r => { r with
    handlers := (f.get inner).handlers.filter fun h => decide (h ∉ (f.get outer).handlers) }
  have hcut : f.SameNesting cut := .modify _ _ fun _ => ⟨rfl, rfl⟩
  have hgrown : (cut.link inner outer).SameNesting (nestInto f outer inner) :=
    .modify _ _ fun _ => ⟨rfl, rfl⟩
  rw [hgrown.outer, outer_link (hcut.size ▸ hinner), hcut.outer]

theorem under_nestInto (hinner : inner < f.size) : (nestInto f outer inner).Under inner outer := by
  rw [Under, outer_nestInto hinner, if_pos rfl]

/-- A link after a region was absorbed: it was there before, or it leads around that region. -/
theorem under_absorbInto (h : Nested base f regions) (hi : inner ∈ regions) {t o : RegionId}
    (ht : base ≤ t) (hto : (absorbInto f outer inner).Under t o) :
    f.Under t o ∧ o ≠ inner ∨ f.Under t inner ∧ o = outer := by
  let grown := f.modify outer fun r => { r with
    blocks := appendNew (f.get outer).blocks (f.get inner).blocks }
  have hgrown : f.SameNesting grown := .modify _ _ fun _ => ⟨rfl, rfl⟩
  have hemptied : (grown.rehang (f.get inner).inner (some outer)).SameNesting
      (absorbInto f outer inner) := .modify _ _ fun _ => ⟨rfl, rfl⟩
  rw [hemptied.under, ← hgrown.inner] at hto
  rw [← hgrown.under]
  exact (h.sameNesting hgrown).under_rehang hi ht hto

/-- What the regions hold after a merge. -/
theorem get_mergeInto (s : State) (outer inner : RegionId) (blocks : List BlockId) (r : RegionId) :
    ((mergeInto s outer inner blocks).method.region r).handlers =
        (if r = s.method.forest.size then
          appendNew (s.method.region outer).handlers (s.method.region inner).handlers
        else (s.method.region r).handlers) ∧
      ((mergeInto s outer inner blocks).method.region r).blocks =
        if r = s.method.forest.size then blocks else (s.method.region r).blocks := by
  have same := inherit_sameContent (s.method.forest.push (mergedRegion s outer inner blocks))
    s.method.forest.size [outer, inner]
  have hhandlers := same.handlers r
  have hblocks := same.blocks r
  rw [get_push] at hhandlers hblocks
  refine ⟨hhandlers.trans ?_, hblocks.trans ?_⟩
  · split <;> rfl
  · split <;> rfl

/-- A link after a merge: between regions that stay, from one that lay under one of the two to the
new one, or from the new one to one that enclosed one of the two. -/
theorem under_mergeInto (h : Nested base s.method.forest regions) (ho : outer ∈ regions)
    (hi : inner ∈ regions) {blocks : List BlockId} {t o : RegionId} (ht : base ≤ t)
    (hto : (mergeInto s outer inner blocks).method.forest.Under t o) :
    s.method.forest.Under t o ∧ o ∉ [outer, inner] ∨
      (s.method.forest.Under t outer ∨ s.method.forest.Under t inner) ∧ o = s.method.forest.size ∨
      t = s.method.forest.size ∧
        (s.method.forest.Under outer o ∨ s.method.forest.Under inner o) := by
  have hbounds := h.bounds outer ho
  have hpush : Nested base (s.method.forest.push (mergedRegion s outer inner blocks))
      (regions ++ [s.method.forest.size]) :=
    h.push (Nat.le_trans hbounds.1 (Nat.le_of_lt hbounds.2)) rfl rfl
  have hold : ∀ o ∈ [outer, inner], o ∈ regions := by simp [ho, hi]
  have hnew : s.method.forest.size ∉ [outer, inner] := fun hmem =>
    Nat.lt_irrefl _ (h.bounds _ (hold _ hmem)).2
  have hlinks := under_inherit hpush.mirrored (fun o ho => (h.bounds o (hold o ho)).1) hnew
    (by simp) ht hto
  rw [under_push s.method.forest rfl] at hlinks
  rcases hlinks with ⟨hto, -, hkept⟩ | ⟨⟨q, hq, htq⟩, rfl⟩ | ⟨rfl, q, hq, hqo⟩
  · exact Or.inl ⟨hto, hkept⟩
  · refine Or.inr (Or.inl ⟨?_, rfl⟩)
    rcases List.mem_cons.mp hq with rfl | hq
    · exact Or.inl htq
    · exact Or.inr (List.mem_singleton.mp hq ▸ htq)
  · refine Or.inr (Or.inr ⟨rfl, ?_⟩)
    rcases List.mem_cons.mp hq with rfl | hq
    · exact Or.inl hqo
    · exact Or.inr (List.mem_singleton.mp hq ▸ hqo)

end Related

namespace Combining

abbrev forest (p : Combining) : Forest := p.state.method.forest

/-- The next pair asks that its outer region takes in the inner one. -/
def Takes (p : Combining) (outer inner : RegionId) : Prop :=
  p.pairs.head? = some (outer, inner) ∧ outer ≠ inner ∧ (p.forest.get inner).outer = none ∧
    (relation p.state.method outer inner = .ok .absorb ∨
      relation p.state.method outer inner = .ok .nest)

/-- The region `outer` takes in `inner`, which goes under it or leaves the list. -/
structure TakesIn (p q : Combining) (outer inner : RegionId) : Prop where
  takes : p.Takes outer inner
  mem : ∀ r ∈ q.regions, r ∈ p.regions
  inner_mem : inner ∈ p.regions
  outer_mem : outer ∈ q.regions
  handlers : ∀ r ∈ q.regions, (q.forest.get r).handlers = (p.forest.get r).handlers
  blocks : ∀ r ∈ q.regions, ∀ b, b ∈ (q.forest.get r).blocks ↔
    b ∈ (p.forest.get r).blocks ∨ r = outer ∧ b ∈ (p.forest.get inner).blocks
  under : ∀ r ∈ q.regions, ∀ o, q.forest.Under r o →
    p.forest.Under r o ∨ o = outer ∧ (r = inner ∨ p.forest.Under r inner)

/-- The regions `outer` and `inner`, which hold the same blocks, become the region `merged`. -/
structure Merges (p q : Combining) (outer inner merged : RegionId) : Prop where
  mem : ∀ r ∈ q.regions, r = merged ∨ r ≠ merged ∧ r ∈ p.regions
  outer_mem : outer ∈ p.regions
  inner_mem : inner ∈ p.regions
  same : ∀ b, b ∈ (p.forest.get outer).blocks ↔ b ∈ (p.forest.get inner).blocks
  handlers_merged : ∀ h, h ∈ (q.forest.get merged).handlers ↔
    h ∈ (p.forest.get outer).handlers ∨ h ∈ (p.forest.get inner).handlers
  blocks_merged : (q.forest.get merged).blocks = (p.forest.get outer).blocks
  handlers : ∀ r, r ≠ merged → (q.forest.get r).handlers = (p.forest.get r).handlers
  blocks : ∀ r, r ≠ merged → (q.forest.get r).blocks = (p.forest.get r).blocks
  under : ∀ r ∈ q.regions, ∀ o, q.forest.Under r o →
    r ≠ merged ∧ o ≠ merged ∧ p.forest.Under r o ∨
      r ≠ merged ∧ o = merged ∧ (p.forest.Under r outer ∨ p.forest.Under r inner) ∨
      r = merged ∧ o ≠ merged ∧ (p.forest.Under outer o ∨ p.forest.Under inner o)

/-- What a step does to the regions. -/
inductive Effect (p q : Combining) : Prop where
  | idle (hnone : ∀ o i, ¬p.Takes o i) (hstate : q.state = p.state)
      (hregions : q.regions = p.regions)
  | takeIn {outer inner} (hin : TakesIn p q outer inner)
  | merge {outer inner merged} (hnone : ∀ o i, ¬p.Takes o i)
      (hmerge : Merges p q outer inner merged)

variable {base : Nat} {hs : List HandlerId} {s : State} {regions : List RegionId}
  {outer inner : RegionId} {pairs : List (RegionId × RegionId)} {p q : Combining}

theorem takes_cons {o i : RegionId} : Takes ⟨s, regions, (outer, inner) :: pairs⟩ o i ↔
    (o = outer ∧ i = inner) ∧ outer ≠ inner ∧ (s.method.forest.get inner).outer = none ∧
      (relation s.method outer inner = .ok .absorb ∨
        relation s.method outer inner = .ok .nest) := by
  unfold Takes
  simp only [List.head?_cons, Option.some.injEq, Prod.mk.injEq]
  constructor
  · rintro ⟨⟨rfl, rfl⟩, h⟩
    exact ⟨⟨rfl, rfl⟩, h⟩
  · rintro ⟨⟨rfl, rfl⟩, h⟩
    exact ⟨⟨rfl, rfl⟩, h⟩

theorem Shared.takesIn_nest (hp : Shared hs ⟨s, regions, (outer, inner) :: pairs⟩)
    (hne : outer ≠ inner) (hfree : (s.method.region inner).outer = none)
    (hr : relation s.method outer inner = .ok .nest) :
    TakesIn ⟨s, regions, (outer, inner) :: pairs⟩
      ⟨s.withForest (nestInto s.method.forest outer inner), regions, pairs⟩ outer inner := by
  obtain ⟨ho, hi⟩ := hp.pairs _ List.mem_cons_self
  constructor
  case takes => exact takes_cons.mpr ⟨⟨rfl, rfl⟩, hne, hfree, Or.inr hr⟩
  case mem => exact fun r hr => hr
  case inner_mem => exact hi
  case outer_mem => exact ho
  case handlers =>
    intro r _
    apply handlers_nestInto
    exact fun h hh hh' => hne (hp.covering.disjoint outer ho inner hi h hh hh')
  case blocks =>
    intro r hr b
    show b ∈ ((nestInto s.method.forest outer inner).get r).blocks ↔ _
    rw [blocks_nestInto]
    by_cases hro : outer = r
    · subst hro
      simp [hp.covering.lt _ hr]
    · simp [hro, Ne.symm hro]
  case under =>
    intro r _ o hro
    change ((nestInto s.method.forest outer inner).get r).outer = some o at hro
    rw [outer_nestInto (hp.covering.lt _ hi)] at hro
    split at hro
    · exact Or.inr ⟨(Option.some.inj hro).symm, Or.inl ‹_›⟩
    · exact Or.inl hro

theorem Shared.takesIn_absorb (hp : Shared hs ⟨s, regions, (outer, inner) :: pairs⟩)
    (hn : Nested base s.method.forest regions)
    (hne : outer ≠ inner) (hfree : (s.method.region inner).outer = none)
    (hr : relation s.method outer inner = .ok .absorb) :
    TakesIn ⟨s, regions, (outer, inner) :: pairs⟩
      (start (s.withForest (absorbInto s.method.forest outer inner))
        (regions.filter (· ≠ inner))) outer inner := by
  obtain ⟨ho, hi⟩ := hp.pairs _ List.mem_cons_self
  have hkept : ∀ r ∈ regions.filter (· ≠ inner), r ∈ regions ∧ inner ≠ r := by
    intro r hr
    obtain ⟨hr, hri⟩ := List.mem_filter.mp hr
    exact ⟨hr, Ne.symm (of_decide_eq_true hri)⟩
  constructor
  case takes => exact takes_cons.mpr ⟨⟨rfl, rfl⟩, hne, hfree, Or.inl hr⟩
  case mem => exact fun r hr => (hkept r hr).1
  case inner_mem => exact hi
  case outer_mem => exact List.mem_filter.mpr ⟨ho, decide_eq_true hne⟩
  case handlers =>
    intro r hr
    show ((absorbInto s.method.forest outer inner).get r).handlers = _
    rw [handlers_absorbInto, if_neg fun h => (hkept r hr).2 h.1]
  case blocks =>
    intro r hr b
    show b ∈ ((absorbInto s.method.forest outer inner).get r).blocks ↔ _
    obtain ⟨hr, hri⟩ := hkept r hr
    rw [blocks_absorbInto, if_neg fun h => hri h.1]
    by_cases hro : outer = r
    · subst hro
      simp [hp.covering.lt _ hr]
    · simp [hro, Ne.symm hro]
  case under =>
    intro r hr o hro
    have hbase := (hn.bounds r (hkept r hr).1).1
    rcases under_absorbInto hn hi hbase hro with ⟨hro, -⟩ | ⟨hri, rfl⟩
    · exact Or.inl hro
    · exact Or.inr ⟨rfl, Or.inr hri⟩

theorem Shared.merges (hp : Shared hs ⟨s, regions, (outer, inner) :: pairs⟩)
    (hn : Nested base s.method.forest regions)
    (hsame : ∀ b, b ∈ (s.method.region outer).blocks ↔ b ∈ (s.method.region inner).blocks) :
    Merges ⟨s, regions, (outer, inner) :: pairs⟩
      (start (mergeInto s outer inner (s.method.region outer).blocks)
        ((regions.filter fun r => decide (r ∉ [outer, inner])) ++ [s.method.forest.size]))
      outer inner s.method.forest.size := by
  obtain ⟨ho, hi⟩ := hp.pairs _ List.mem_cons_self
  have hget := get_mergeInto s outer inner (s.method.region outer).blocks
  have hmem : ∀ r ∈ (regions.filter fun r => decide (r ∉ [outer, inner])) ++
      [s.method.forest.size],
      r = s.method.forest.size ∨ r ≠ s.method.forest.size ∧ r ∈ regions := by
    intro r hr
    rcases List.mem_append.mp hr with hr | hr
    · have hr := (List.mem_filter.mp hr).1
      exact Or.inr ⟨Nat.ne_of_lt (hp.covering.lt r hr), hr⟩
    · exact Or.inl (List.mem_singleton.mp hr)
  constructor
  case mem => exact hmem
  case outer_mem => exact ho
  case inner_mem => exact hi
  case same => exact hsame
  case handlers_merged =>
    intro h
    have := (hget s.method.forest.size).1
    rw [if_pos rfl] at this
    exact (iff_of_eq (congrArg (h ∈ ·) this)).trans mem_appendNew
  case blocks_merged => exact (hget s.method.forest.size).2.trans (if_pos rfl)
  case handlers => exact fun r hr => (hget r).1.trans (if_neg hr)
  case blocks => exact fun r hr => (hget r).2.trans (if_neg hr)
  case under =>
    intro r hr o hro
    have hrbase : base ≤ r := by
      rcases hmem r hr with rfl | ⟨-, hr⟩
      · exact Nat.le_trans (hn.bounds outer ho).1 (Nat.le_of_lt (hn.bounds outer ho).2)
      · exact (hn.bounds r hr).1
    have hold : ∀ {r o}, base ≤ r → s.method.forest.Under r o →
        r ≠ s.method.forest.size ∧ o ≠ s.method.forest.size := by
      intro r o hr hro
      obtain ⟨hr, ho⟩ := hn.listed r o hr hro
      exact ⟨Nat.ne_of_lt (hn.bounds r hr).2, Nat.ne_of_lt (hn.bounds o ho).2⟩
    rcases under_mergeInto hn ho hi hrbase hro with ⟨hro, -⟩ | ⟨hlink, rfl⟩ | ⟨rfl, hlink⟩
    · exact Or.inl ⟨(hold hrbase hro).1, (hold hrbase hro).2, hro⟩
    · exact Or.inr (Or.inl ⟨hlink.elim (hold hrbase · |>.1) (hold hrbase · |>.1), rfl, hlink⟩)
    · refine Or.inr (Or.inr ⟨rfl, hlink.elim (fun hlink => ?_) fun hlink => ?_, hlink⟩)
      · exact (hold (hn.bounds outer ho).1 hlink).2
      · exact (hold (hn.bounds inner hi).1 hlink).2

/-- What a pair that is related does to the regions. -/
theorem Shared.effect_relate (hp : Shared hs ⟨s, regions, (outer, inner) :: pairs⟩)
    (hn : Nested base s.method.forest regions) (hne : outer ≠ inner)
    (hfree : (s.method.region inner).outer = none) {result : List RegionId} {changed : Bool}
    {t : State} (hrun : exec (Recovery.relate regions outer inner) s = (.ok (result, changed), t)) :
    Effect ⟨s, regions, (outer, inner) :: pairs⟩
      (if changed then start t result else ⟨t, result, pairs⟩) := by
  obtain ⟨ho, hi⟩ := hp.pairs _ List.mem_cons_self
  obtain ⟨r, hr, hsame, -⟩ := relation_eq_ok hp.sound.method outer inner
  have hnone : r ≠ .absorb → r ≠ .nest →
      ∀ o i, ¬Takes ⟨s, regions, (outer, inner) :: pairs⟩ o i := by
    intro habsorb hnest o i htakes
    obtain ⟨-, -, -, hasks⟩ := takes_cons.mp htakes
    simp [hr, habsorb, hnest] at hasks
  rw [exec_relate hr] at hrun
  cases r with
  | sameBlocks =>
    cases hrun
    exact .merge (hnone nofun nofun) (hp.merges hn (hsame rfl))
  | absorb =>
    cases hrun
    exact .takeIn (hp.takesIn_absorb hn hne hfree hr)
  | nest =>
    cases hrun
    exact .takeIn (hp.takesIn_nest hne hfree hr)
  | sameClauses =>
    -- Every region has a clause, and no other region has it.
    obtain ⟨h, hh⟩ := List.exists_mem_of_ne_nil _ (hp.covering.handlers_ne_nil outer ho)
    have hapart : h ∉ (s.method.region inner).handlers := fun hh' =>
      hne (hp.covering.disjoint outer ho inner hi h hh hh')
    exact absurd hr (relation_ne_sameClauses hh hapart)
  | unrelated =>
    cases hrun
    exact .idle (hnone nofun nofun) rfl rfl

theorem Shared.effect (hp : p.Shared hs) (hn : p.InOrder base) (hstep : Step p q) :
    Effect p q := by
  cases hstep with
  | skip hpair =>
    refine .idle (fun o i htakes => ?_) rfl rfl
    obtain ⟨-, hne, hfree, -⟩ := takes_cons.mp htakes
    rcases hpair with heq | houter
    · exact hne heq
    · simp [Method.region, hfree] at houter
  | keep hne hfree hrun => exact hp.effect_relate hn.nested hne hfree hrun
  | change hne hfree hrun => exact hp.effect_relate hn.nested hne hfree hrun

end Combining

namespace Combining

/-- A block of a region that a region with clause `h` has taken in at one of the points. -/
def Took (past : List Combining) (h : HandlerId) (b : BlockId) : Prop :=
  ∃ q ∈ past, ∃ outer inner, q.Takes outer inner ∧ h ∈ (q.forest.get outer).handlers ∧
    b ∈ (q.forest.get inner).blocks

/-- The blocks of a region, by any of its clauses: those that were given to the clause and those
that were taken in. -/
def Sourced (given : HandlerId → BlockId → Prop) (past : List Combining) (p : Combining) : Prop :=
  ∀ r ∈ p.regions, ∀ h ∈ (p.forest.get r).handlers, ∀ b,
    b ∈ (p.forest.get r).blocks ↔ given h b ∨ Took past h b

variable {base : Nat} {hs : List HandlerId} {given : HandlerId → BlockId → Prop}
  {past : List Combining} {p q : Combining} {h : HandlerId} {b : BlockId}

theorem Takes.unique {o i o' i' : RegionId} (h : p.Takes o i) (h' : p.Takes o' i') :
    o' = o ∧ i' = i := by
  have heq := h'.1.symm.trans h.1
  simpa using heq

theorem took_concat : Took (past ++ [p]) h b ↔ Took past h b ∨ Took [p] h b := by
  simp [Took, or_and_right, exists_or]

theorem not_took_of_idle (hnone : ∀ o i, ¬p.Takes o i) : ¬Took [p] h b := by
  rintro ⟨q, hq, o, i, htakes, -⟩
  exact hnone o i (List.mem_singleton.mp hq ▸ htakes)

theorem TakesIn.took_iff {outer inner : RegionId} (hin : TakesIn p q outer inner) :
    Took [p] h b ↔ h ∈ (p.forest.get outer).handlers ∧ b ∈ (p.forest.get inner).blocks := by
  constructor
  · rintro ⟨q, hq, o, i, htakes, hh, hb⟩
    obtain rfl := List.mem_singleton.mp hq
    obtain ⟨rfl, rfl⟩ := hin.takes.unique htakes
    exact ⟨hh, hb⟩
  · exact fun ⟨hh, hb⟩ => ⟨p, List.mem_singleton_self p, outer, inner, hin.takes, hh, hb⟩

/-- A step adds what is taken in. -/
theorem Sourced.step (hsrc : p.Sourced given past) (hp : p.Shared hs) (hn : p.InOrder base)
    (hstep : Step p q) : q.Sourced given (past ++ [p]) := by
  intro r hr h hh b
  rw [took_concat, ← or_assoc]
  cases hp.effect hn hstep with
  | idle hnone hstate hregions =>
    rw [forest, hstate] at hh ⊢
    rw [hregions] at hr
    rw [hsrc r hr h hh b, or_iff_left (not_took_of_idle hnone)]
  | takeIn hin =>
    rename_i outer inner
    rw [hin.handlers r hr] at hh
    have hmem := hin.mem r hr
    have hown : h ∈ (p.forest.get outer).handlers ↔ r = outer :=
      ⟨fun hh' => hp.covering.disjoint r hmem outer (hin.mem _ hin.outer_mem) h hh hh',
        fun heq => heq ▸ hh⟩
    rw [hin.blocks r hr, hsrc r hmem h hh b, hin.took_iff, hown]
  | merge hnone hmerge =>
    rename_i outer inner merged
    rw [or_iff_left (not_took_of_idle hnone)]
    rcases hmerge.mem r hr with rfl | ⟨hne, hmem⟩
    · rw [hmerge.blocks_merged]
      rcases (hmerge.handlers_merged h).mp hh with hh | hh
      · exact hsrc outer hmerge.outer_mem h hh b
      · rw [hmerge.same]
        exact hsrc inner hmerge.inner_mem h hh b
    · rw [hmerge.handlers r hne] at hh
      rw [hmerge.blocks r hne]
      exact hsrc r hmem h hh b

/-- What holds at the start of a trail. -/
theorem sourced_start (hp : p.Shared hs) :
    p.Sourced (fun h b => ∃ r ∈ p.regions, h ∈ (p.forest.get r).handlers ∧
      b ∈ (p.forest.get r).blocks) [] := by
  intro r hr h hh b
  constructor
  · exact fun hb => Or.inl ⟨r, hr, hh, hb⟩
  · rintro (⟨r', hr', hh', hb⟩ | ⟨q, hq, -⟩)
    · rwa [hp.covering.disjoint r hr r' hr' h hh hh']
    · cases hq

/-- A whole trail. -/
theorem Sourced.run (hsrc : p.Sourced given []) (hp : p.Shared hs) (hn : p.InOrder base)
    (htrail : Trail p past q) : q.Sourced given past := by
  induction htrail with
  | refl => exact hsrc
  | tail htrail hstep ih =>
    obtain ⟨hs', hshared⟩ := hp.at_run htrail.run
    exact ih.step hshared (hn.run htrail.run) hstep

end Combining

section OwnCode

open Combining

namespace Stages

variable {c : Config} {m : Method} {r : RegionId} {h : HandlerId} {b : BlockId}

/-- The region that was made for `h` had the block. -/
def Given (st : Stages c m) (h : HandlerId) (b : BlockId) : Prop :=
  ∃ r ∈ st.made, h ∈ (st.opened.method.region r).handlers ∧
    b ∈ (st.opened.method.region r).blocks

theorem sourced (st : Stages c m) (hm : m.Fresh) :
    Sourced st.Given st.past ⟨st.joined, st.combined, []⟩ := by
  obtain ⟨hshared, base, horder⟩ := st.opened_shared hm
  exact (sourced_start hshared).run hshared horder st.trail

/-- A region that the combination leaves has a block of its clause's code only if it took it in. -/
theorem own_code_iff (st : Stages c m) (hm : m.Fresh) (hr : r ∈ st.combined)
    (hh : h ∈ (st.joined.method.region r).handlers)
    (hb : b ∈ (st.joined.method.handler h).body) :
    b ∈ (st.joined.method.region r).blocks ↔ Took st.past h b := by
  refine (st.sourced hm r hr h hh b).trans (or_iff_right ?_)
  rintro ⟨r', hr', hh', hb'⟩
  rw [st.joined_handler hm] at hb
  exact (st.opened_apart.2 r' hr').2 h hh' b hb' hb

end Stages

/-- The blocks of a handler's own code that its region lists. For a fresh method the regions are
found, the recovery goes on with them, and a region lists a block of the code of one of its clauses
exactly if a region with that clause took the block in, unless the block is flagged for removal. -/
theorem own_code_held_iff (c : Config) {m : Method} (hm : m.Fresh) :
    Nonempty (Stages c m) ∧ ∀ st : Stages c m,
      (m.registered ≠ [] →
        exec (recover c) { method := m } = exec (ending c st.regions) st.settled) ∧
      ∀ r ∈ st.regions, ∀ h ∈ (st.settled.method.region r).handlers,
        ∀ b ∈ (st.settled.method.handler h).body,
          b ∈ (st.settled.method.region r).blocks ↔
            Took st.past h b ∧ (st.settled.method.graph.flags b).remove = false := by
  refine ⟨Stages.nonempty c hm, fun st => ⟨st.exec_recover, fun r hr h hh b hb => ?_⟩⟩
  have hsettles := st.settles hm
  rw [hsettles.body] at hb
  rw [hsettles.blocks r hr,
    st.own_code_iff hm (hsettles.mem r hr) (hsettles.handlers r hr h hh) hb]

/-- Two handlers, each of which covers the code of the other one. -/
def crossGuarded : Method where
  name := "m"
  graph :=
    { blocks := #[
        { offset := 0, succs := [1] },
        { offset := 2, instrs := [{ opcode := .invoke, offset := 2, catches := some ⟨[0]⟩ }],
          preds := [0], succs := [2, 4] },
        { offset := 4, instrs := [{ opcode := .invoke, offset := 4, catches := some ⟨[1]⟩ }],
          preds := [1], succs := [3, 5] },
        { offset := 6, preds := [2] },
        { offset := 10, instrs := [
            { opcode := .moveException, offset := 10, entry := some 0 },
            { opcode := .invoke, offset := 11, catches := some ⟨[1]⟩ }],
          preds := [1], tmpEdge := some 1 },
        { offset := 12, instrs := [
            { opcode := .moveException, offset := 12, entry := some 1 },
            { opcode := .invoke, offset := 13, catches := some ⟨[0]⟩ }],
          preds := [2], tmpEdge := some 2 }]
      live := [0, 1, 2, 3, 4, 5] }
  enter := some 0
  handlers := #[{ number := 0, offset := 10, types := ["A"] },
    { number := 1, offset := 12, types := ["B"] }]
  registered := [0, 1]

def crossPrepared : State := (exec (preparing {} crossGuarded) { method := crossGuarded }).2

theorem crossGuarded_fresh : crossGuarded.Fresh := by decide +kernel

theorem exec_preparing_crossGuarded :
    exec (preparing {} crossGuarded) { method := crossGuarded } = (.ok [0, 1], crossPrepared) :=
  Prod.ext (by decide +kernel) (by rw [crossPrepared])

/-- A handler may be inside its own region: block 4 is the code of handler 0. -/
theorem preparing_lists_own_code :
    crossGuarded.Fresh ∧
      exec (preparing {} crossGuarded) { method := crossGuarded } = (.ok [0, 1], crossPrepared) ∧
      (crossPrepared.method.region 0).handlers = [0] ∧
      (crossPrepared.method.handler 0).body = [4] ∧
      (crossPrepared.method.region 0).blocks = [1, 5, 2, 4] :=
  ⟨crossGuarded_fresh, exec_preparing_crossGuarded, by decide +kernel, by decide +kernel,
    by decide +kernel⟩

/-- Block 4 came with the region of handler 1, which went under that of handler 0. -/
theorem own_code_held_iff_crossGuarded :
    crossGuarded.Fresh ∧ ∃ st : Stages {} crossGuarded, st.regions = [0, 1] ∧
      4 ∈ (st.settled.method.region 0).blocks ∧ Took st.past 0 4 := by
  have hheld : 4 ∈ (crossPrepared.method.region 0).blocks := by decide +kernel
  obtain ⟨⟨st⟩, hall⟩ := own_code_held_iff {} crossGuarded_fresh
  obtain ⟨hregions, hsettled⟩ := st.eq_of_prepares exec_preparing_crossGuarded
  have hiff := (hall st).2
  rw [hregions, hsettled] at hiff
  refine ⟨crossGuarded_fresh, st, hregions, hsettled ▸ hheld, ?_⟩
  exact ((hiff 0 (by decide) 0 (by decide +kernel) 4 (by decide +kernel)).mp hheld).1

end OwnCode

end TryRegions.Recovery
