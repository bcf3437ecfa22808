import TryRegions.Proofs.Forest
import TryRegions.Proofs.Recovery.Sound
import TryRegions.Recovery.Nesting

/-! What combining regions conserves. Each handler is listed by at most one region, and that region
holds every block that the handler is to protect. A handler leaves the regions only with a region
that is absorbed, and then it catches everything. -/

namespace TryRegions

def Method.CatchesAll (m : Method) (h : HandlerId) : Prop := (m.handler h).catchesAll = true

namespace Recovery

open RecoverM

/-- The regions share out the handlers `hs`, up to those that are `lost`, and the one that lists a
handler holds the blocks that `P` asks for. -/
structure Covering (lost : HandlerId → Prop) (P : HandlerId → BlockId → Prop)
    (hs : List HandlerId) (f : Forest) (regions : List RegionId) : Prop where
  nodup : regions.Nodup
  lt : ∀ r ∈ regions, r < f.size
  handlers_nodup : ∀ r ∈ regions, (f.get r).handlers.Nodup
  handlers_ne_nil : ∀ r ∈ regions, (f.get r).handlers ≠ []
  blocks_nodup : ∀ r ∈ regions, (f.get r).blocks.Nodup
  listed : ∀ r ∈ regions, ∀ h ∈ (f.get r).handlers, h ∈ hs
  disjoint : ∀ r ∈ regions, ∀ q ∈ regions, ∀ h, h ∈ (f.get r).handlers →
    h ∈ (f.get q).handlers → r = q
  kept : ∀ h ∈ hs,
    (∃ r ∈ regions, h ∈ (f.get r).handlers ∧ ∀ b, P h b → b ∈ (f.get r).blocks) ∨
      (∀ r ∈ regions, h ∉ (f.get r).handlers) ∧ lost h

namespace Covering

variable {lost : HandlerId → Prop} {P : HandlerId → BlockId → Prop} {hs : List HandlerId}
  {f f' : Forest} {regions : List RegionId}

/-- Blocks may be added to regions, and regions to the forest. -/
theorem grow (h : Covering lost P hs f regions) (hsize : f.size ≤ f'.size)
    (hhandlers : ∀ r ∈ regions, (f'.get r).handlers = (f.get r).handlers)
    (hnodup : ∀ r ∈ regions, (f'.get r).blocks.Nodup)
    (hblocks : ∀ r ∈ regions, (f.get r).blocks ⊆ (f'.get r).blocks) :
    Covering lost P hs f' regions where
  nodup := h.nodup
  lt r hr := Nat.lt_of_lt_of_le (h.lt r hr) hsize
  handlers_nodup r hr := by
    rw [hhandlers r hr]
    exact h.handlers_nodup r hr
  handlers_ne_nil r hr := by
    rw [hhandlers r hr]
    exact h.handlers_ne_nil r hr
  blocks_nodup := hnodup
  listed r hr := by
    rw [hhandlers r hr]
    exact h.listed r hr
  disjoint r hr q hq := by
    rw [hhandlers r hr, hhandlers q hq]
    exact h.disjoint r hr q hq
  kept x hx := by
    rcases h.kept x hx with ⟨r, hr, hmem, hP⟩ | ⟨hnone, hx⟩
    · refine Or.inl ⟨r, hr, ?_, fun b hb => hblocks r hr (hP b hb)⟩
      rw [hhandlers r hr]
      exact hmem
    · refine Or.inr ⟨fun r hr => ?_, hx⟩
      rw [hhandlers r hr]
      exact hnone r hr

theorem sameContent (h : Covering lost P hs f regions) (same : f.SameContent f') :
    Covering lost P hs f' regions := by
  refine h.grow (Nat.le_of_eq same.size.symm) (fun r _ => same.handlers r) (fun r hr => ?_)
    fun r _ => ?_
  · rw [same.blocks]
    exact h.blocks_nodup r hr
  · rw [same.blocks]
    exact List.Subset.refl _

/-- A region whose handlers are lost is left out. -/
theorem drop (h : Covering lost P hs f regions) {inner : RegionId} (hinner : inner ∈ regions)
    (hlost : ∀ x ∈ (f.get inner).handlers, lost x) :
    Covering lost P hs f (regions.filter (· ≠ inner)) := by
  have hsub : ∀ r ∈ regions.filter (· ≠ inner), r ∈ regions ∧ r ≠ inner := by
    intro r hr
    simpa using List.mem_filter.mp hr
  constructor
  case nodup => exact h.nodup.filter _
  case lt => exact fun r hr => h.lt r (hsub r hr).1
  case handlers_nodup => exact fun r hr => h.handlers_nodup r (hsub r hr).1
  case handlers_ne_nil => exact fun r hr => h.handlers_ne_nil r (hsub r hr).1
  case blocks_nodup => exact fun r hr => h.blocks_nodup r (hsub r hr).1
  case listed => exact fun r hr => h.listed r (hsub r hr).1
  case disjoint => exact fun r hr q hq => h.disjoint r (hsub r hr).1 q (hsub q hq).1
  case kept =>
    intro x hx
    rcases h.kept x hx with ⟨r, hr, hmem, hP⟩ | ⟨hnone, hx⟩
    · by_cases hri : r = inner
      · subst hri
        refine Or.inr ⟨fun q hq hq' => (hsub q hq).2 ?_, hlost x hmem⟩
        exact h.disjoint q (hsub q hq).1 r hr x hq' hmem
      · exact Or.inl ⟨r, List.mem_filter.mpr ⟨hr, by simpa using hri⟩, hmem, hP⟩
    · exact Or.inr ⟨fun r hr => hnone r (hsub r hr).1, hx⟩

/-- A new region is listed at the end, after those of the old ones that `stay` picks. A handler that
it does not list may only be listed by an old region that stays. -/
theorem push (h : Covering lost P hs f regions) {hs' : List HandlerId} (hsub : hs ⊆ hs')
    (stay : RegionId → Bool) {region : Region} (hnodup : region.handlers.Nodup)
    (hne : region.handlers ≠ []) (hblocks : region.blocks.Nodup)
    (hlisted : ∀ x ∈ region.handlers, x ∈ hs')
    (hapart : ∀ r ∈ regions, stay r = true → ∀ x ∈ (f.get r).handlers, x ∉ region.handlers)
    (hheld : ∀ x ∈ region.handlers, ∀ b, P x b → b ∈ region.blocks)
    (hrest : ∀ x ∈ hs', x ∉ region.handlers → x ∈ hs ∧
      ∀ r ∈ regions, x ∈ (f.get r).handlers → stay r = true) :
    Covering lost P hs' (f.push region) (regions.filter stay ++ [f.size]) := by
  have hnew : (f.push region).get f.size = region := by rw [Forest.get_push, if_pos rfl]
  have hold : ∀ r ∈ regions, (f.push region).get r = f.get r := fun r hr => by
    rw [Forest.get_push, if_neg (Nat.ne_of_lt (h.lt r hr))]
  -- A region of the new list is an old one that stays, or the new one.
  have hcases : ∀ r ∈ regions.filter stay ++ [f.size],
      (r ∈ regions ∧ stay r = true) ∧ (f.push region).get r = f.get r ∨
        r = f.size ∧ (f.push region).get r = region := by
    intro r hr
    rcases List.mem_append.mp hr with hr | hr
    · have hr := List.mem_filter.mp hr
      exact Or.inl ⟨hr, hold r hr.1⟩
    · rw [List.mem_singleton.mp hr]
      exact Or.inr ⟨rfl, hnew⟩
  constructor
  case nodup =>
    refine List.nodup_append.mpr ⟨h.nodup.filter _, by simp, ?_⟩
    rintro a ha b hb rfl
    have hlt := h.lt a (List.mem_filter.mp ha).1
    rw [List.mem_singleton.mp hb] at hlt
    exact Nat.lt_irrefl _ hlt
  case lt =>
    intro r hr
    rw [Forest.size_push]
    rcases hcases r hr with ⟨hr, -⟩ | ⟨rfl, -⟩
    · exact Nat.lt_succ_of_lt (h.lt r hr.1)
    · exact Nat.lt_succ_self _
  case handlers_nodup =>
    intro r hr
    rcases hcases r hr with ⟨hr, hget⟩ | ⟨-, hget⟩ <;> rw [hget]
    · exact h.handlers_nodup r hr.1
    · exact hnodup
  case handlers_ne_nil =>
    intro r hr
    rcases hcases r hr with ⟨hr, hget⟩ | ⟨-, hget⟩ <;> rw [hget]
    · exact h.handlers_ne_nil r hr.1
    · exact hne
  case blocks_nodup =>
    intro r hr
    rcases hcases r hr with ⟨hr, hget⟩ | ⟨-, hget⟩ <;> rw [hget]
    · exact h.blocks_nodup r hr.1
    · exact hblocks
  case listed =>
    intro r hr x hx
    rcases hcases r hr with ⟨hr, hget⟩ | ⟨-, hget⟩ <;> rw [hget] at hx
    · exact hsub (h.listed r hr.1 x hx)
    · exact hlisted x hx
  case disjoint =>
    intro r hr q hq x hx hx'
    rcases hcases r hr with ⟨hr, hget⟩ | ⟨hrn, hget⟩ <;>
      rcases hcases q hq with ⟨hq, hget'⟩ | ⟨hqn, hget'⟩ <;> rw [hget] at hx <;> rw [hget'] at hx'
    · exact h.disjoint r hr.1 q hq.1 x hx hx'
    · exact absurd hx' (hapart r hr.1 hr.2 x hx)
    · exact absurd hx (hapart q hq.1 hq.2 x hx')
    · exact hrn.trans hqn.symm
  case kept =>
    intro x hx
    by_cases hmem : x ∈ region.handlers
    · refine Or.inl ⟨f.size, List.mem_append_right _ List.mem_cons_self, ?_⟩
      rw [hnew]
      exact ⟨hmem, hheld x hmem⟩
    · obtain ⟨hx, hstay⟩ := hrest x hx hmem
      rcases h.kept x hx with ⟨r, hr, hxr, hP⟩ | ⟨hnone, hlost⟩
      · have hr' := List.mem_filter.mpr ⟨hr, hstay r hr hxr⟩
        refine Or.inl ⟨r, List.mem_append_left _ hr', ?_⟩
        rw [hold r hr]
        exact ⟨hxr, hP⟩
      · refine Or.inr ⟨fun r hr hxr => ?_, hlost⟩
        rcases hcases r hr with ⟨hr, hget⟩ | ⟨-, hget⟩ <;> rw [hget] at hxr
        · exact hnone r hr.1 hxr
        · exact hmem hxr

/-- The region that lists a handler holds what it is to protect. -/
theorem held (h : Covering lost P hs f regions) {r : RegionId} (hr : r ∈ regions) {x : HandlerId}
    (hx : x ∈ (f.get r).handlers) {b : BlockId} (hb : P x b) : b ∈ (f.get r).blocks := by
  rcases h.kept x (h.listed r hr x hx) with ⟨q, hq, hxq, hP⟩ | ⟨hnone, -⟩
  · rw [h.disjoint r hr q hq x hx hxq]
    exact hP b hb
  · exact absurd hx (hnone r hr)

/-- A new handler gets a region of its own. -/
theorem add (h : Covering lost P hs f regions) {x : HandlerId} (hx : x ∉ hs) {region : Region}
    (hhandlers : region.handlers = [x]) (hnodup : region.blocks.Nodup)
    (hP : ∀ b, P x b → b ∈ region.blocks) :
    Covering lost P (hs ++ [x]) (f.push region) (regions ++ [f.size]) := by
  have hown : ∀ y, y ∈ region.handlers ↔ y = x := fun y => by rw [hhandlers, List.mem_singleton]
  have hpush : Covering lost P (hs ++ [x]) (f.push region)
      (regions.filter (fun _ => true) ++ [f.size]) := by
    refine h.push (List.subset_append_left hs [x]) _ ?_ ?_ hnodup (fun y hy => ?_)
      (fun r hr _ y hy hy' => ?_) (fun y hy b hb => ?_) fun y hy hy' => ?_
    · rw [hhandlers]
      exact List.nodup_singleton x
    · rw [hhandlers]
      exact List.cons_ne_nil x []
    · rw [(hown y).mp hy]
      exact List.mem_append_right _ List.mem_cons_self
    · exact hx ((hown y).mp hy' ▸ h.listed r hr y hy)
    · exact hP b ((hown y).mp hy ▸ hb)
    · refine ⟨(List.mem_append.mp hy).resolve_right fun hy => ?_, fun _ _ _ => rfl⟩
      exact hy' ((hown y).mpr (List.mem_singleton.mp hy))
  rwa [List.filter_true] at hpush

/-- Two regions become one, which holds what both of them held. -/
theorem merge (h : Covering lost P hs f regions) {outer inner : RegionId} (ho : outer ∈ regions)
    (hi : inner ∈ regions) {merged : Region}
    (hhandlers : merged.handlers = appendNew (f.get outer).handlers (f.get inner).handlers)
    (hnodup : merged.blocks.Nodup) (hob : (f.get outer).blocks ⊆ merged.blocks)
    (hib : (f.get inner).blocks ⊆ merged.blocks) :
    Covering lost P hs (f.push merged)
      ((regions.filter fun r => decide (r ∉ [outer, inner])) ++ [f.size]) := by
  have hmerged : ∀ x, x ∈ merged.handlers ↔
      x ∈ (f.get outer).handlers ∨ x ∈ (f.get inner).handlers := fun x => by
    rw [hhandlers, mem_appendNew]
  refine h.push (List.Subset.refl hs) _ ?_ ?_ hnodup (fun x hx => ?_)
    (fun r hr hstay x hx hx' => ?_) (fun x hx b hb => ?_) fun x hx hx' => ⟨hx, fun r hr hxr => ?_⟩
  · rw [hhandlers]
    exact nodup_appendNew (h.handlers_nodup outer ho) _
  · obtain ⟨x, hx⟩ := List.exists_mem_of_ne_nil _ (h.handlers_ne_nil outer ho)
    exact List.ne_nil_of_mem ((hmerged x).mpr (Or.inl hx))
  · exact ((hmerged x).mp hx).elim (h.listed outer ho x) (h.listed inner hi x)
  · simp only [List.mem_cons, List.not_mem_nil, or_false, not_or, decide_eq_true_eq] at hstay
    rcases (hmerged x).mp hx' with hx' | hx'
    · exact hstay.1 (h.disjoint r hr outer ho x hx hx')
    · exact hstay.2 (h.disjoint r hr inner hi x hx hx')
  · rcases (hmerged x).mp hx with hx | hx
    · exact hob (h.held ho hx hb)
    · exact hib (h.held hi hx hb)
  · refine decide_eq_true fun hr' => hx' ((hmerged x).mpr ?_)
    rcases List.mem_cons.mp hr' with rfl | hr'
    · exact Or.inl hxr
    · exact Or.inr (List.mem_singleton.mp hr' ▸ hxr)

end Covering

/-- Nothing but the forest changes, apart from the log and the number for the next region. -/
structure Reshapes (s t : State) : Prop where
  sound : t.Sound
  method : t.method = { s.method with forest := t.method.forest }

namespace Reshapes

variable {s t u : State}

theorem refl (hs : s.Sound) : Reshapes s s := ⟨hs, rfl⟩

theorem trans (h : Reshapes s t) (h' : Reshapes t u) : Reshapes s u :=
  ⟨h'.sound, by rw [h'.method, h.method]⟩

theorem graph (h : Reshapes s t) : t.method.graph = s.method.graph := by rw [h.method]

theorem handler (h : Reshapes s t) : t.method.handler = s.method.handler := by rw [h.method]; rfl

theorem catchesAll (h : Reshapes s t) : t.method.CatchesAll = s.method.CatchesAll := by
  rw [h.method]
  rfl

end Reshapes

section

variable {s : State} {V : Violation → Prop}

theorem anyCovered_eq_ok {g : Graph} (handlers : List HandlerId) {blocks : List BlockId}
    (h : ∀ b ∈ blocks, b < g.size) : ∃ r, anyCovered g handlers blocks = .ok r := by
  refine anyM_eq_ok fun b hb => ?_
  obtain ⟨k, hk⟩ := Graph.exists_block (h b hb)
  rw [hk]
  exact ⟨_, rfl⟩

/-- The code of the clauses of a region. -/
def clauseCode (m : Method) (r : RegionId) : List BlockId :=
  (m.region r).handlers.flatMap fun h => (m.handler h).body

/-- What a pair of regions with different blocks asks for, by whether the outer clauses cover code
of the inner ones and blocks of the inner region. -/
def judge (m : Method) (outer inner : RegionId) (coversCode coversBlock : Bool) : Relation :=
  if coversCode && (coversBlock ||
      (m.region outer).blocks.any fun b => decide (b ∉ clauseCode m inner)) then
    if m.forest.hasAncestor outer inner then .unrelated
    else if (m.region inner).isCatchAll m.handler then .absorb
    else .nest
  else if (m.region outer).handlers.all fun h => decide (h ∈ (m.region inner).handlers) then
    .sameClauses
  else .unrelated

theorem relation_eq_judge {m : Method} {outer inner : RegionId} {code block : Bool}
    (hsame : sameElements (m.region outer).blocks (m.region inner).blocks = false)
    (hcode : anyCovered m.graph (m.region outer).handlers (clauseCode m inner) = .ok code)
    (hblock : anyCovered m.graph (m.region outer).handlers (m.region inner).blocks = .ok block) :
    relation m outer inner = .ok (judge m outer inner code block) := by
  unfold relation judge
  dsimp only
  rw [hsame, ← clauseCode, hcode, hblock]
  simp only [Bool.false_eq_true, if_false, bind, Except.bind, pure, Except.pure]
  split
  · split
    · rfl
    · split <;> rfl
  · split <;> rfl

/-- All that a pair may ask for. -/
theorem relation_eq_ok_iff {m : Method} {outer inner : RegionId} {r : Relation} :
    relation m outer inner = .ok r ↔
      sameElements (m.region outer).blocks (m.region inner).blocks = true ∧ r = .sameBlocks ∨
      sameElements (m.region outer).blocks (m.region inner).blocks = false ∧ ∃ code block,
        anyCovered m.graph (m.region outer).handlers (clauseCode m inner) = .ok code ∧
        anyCovered m.graph (m.region outer).handlers (m.region inner).blocks = .ok block ∧
        judge m outer inner code block = r := by
  cases hsame : sameElements (m.region outer).blocks (m.region inner).blocks with
  | true => simp [relation, hsame, pure, Except.pure, eq_comm]
  | false =>
    cases hcode : anyCovered m.graph (m.region outer).handlers (clauseCode m inner) with
    | error e =>
      rw [clauseCode] at hcode
      simp [relation, hsame, hcode, bind, Except.bind]
    | ok code =>
      cases hblock : anyCovered m.graph (m.region outer).handlers (m.region inner).blocks with
      | error e =>
        rw [clauseCode] at hcode
        simp [relation, hsame, hcode, hblock, bind, Except.bind]
      | ok block => simp [relation_eq_judge hsame hcode hblock]

theorem relation_eq_ok {m : Method} (hm : m.Sound) (outer inner : RegionId) :
    ∃ r, relation m outer inner = .ok r ∧
      (r = .sameBlocks → ∀ b, b ∈ (m.region outer).blocks ↔ b ∈ (m.region inner).blocks) ∧
      (r = .absorb → (m.region inner).isCatchAll m.handler = true) := by
  cases hsame : sameElements (m.region outer).blocks (m.region inner).blocks with
  | true =>
    exact ⟨.sameBlocks, relation_eq_ok_iff.mpr (Or.inl ⟨hsame, rfl⟩),
      fun _ => sameElements_iff.mp hsame, nofun⟩
  | false =>
    have hcode : ∀ b ∈ clauseCode m inner, b < m.graph.size := by
      intro b hb
      obtain ⟨h, -, hb⟩ := List.mem_flatMap.mp hb
      exact hm.body_lt h b hb
    obtain ⟨code, hcode⟩ := anyCovered_eq_ok (m.region outer).handlers hcode
    obtain ⟨block, hblock⟩ := anyCovered_eq_ok (m.region outer).handlers (hm.blocks_lt inner)
    refine ⟨_, relation_eq_ok_iff.mpr (Or.inr ⟨hsame, code, block, hcode, hblock, rfl⟩), ?_⟩
    unfold judge
    split
    · split
      · exact ⟨nofun, nofun⟩
      · split
        · rename_i hall
          exact ⟨nofun, fun _ => hall⟩
        · exact ⟨nofun, nofun⟩
    · split <;> exact ⟨nofun, nofun⟩

theorem inherit_sameContent (f : Forest) (merged : RegionId) (old : List RegionId) :
    f.SameContent (inherit f merged old) := by
  have moved : f.SameContent (old.foldl (fun f o =>
      (f.unlink o |>.get o).inner.foldl (fun f child =>
        if child ∈ old then f.unlink child else (f.unlink child).link child merged)
        (f.unlink o)) f) := by
    refine .foldl _ (fun f o => (Forest.SameContent.unlink f o).trans
      (.foldl _ (fun f child => ?_) _ _)) old f
    split
    · exact .unlink f child
    · exact (Forest.SameContent.unlink f child).trans (.link _ child merged)
  unfold inherit
  dsimp only
  split
  · exact moved.trans (.link _ merged _)
  · exact moved

/-- The regions of the new forest hold blocks and list handlers of the regions before. -/
theorem Reshapes.of_forest (hs : s.Sound) {t : State}
    (hmethod : t.method = { s.method with forest := t.method.forest }) (htree : t.tree = s.tree)
    (hblocks : ∀ r, ∀ b ∈ (t.method.forest.get r).blocks, ∃ q, b ∈ (s.method.region q).blocks)
    (hhandlers : ∀ r, ∀ h ∈ (t.method.forest.get r).handlers,
      ∃ q, h ∈ (s.method.region q).handlers) : Reshapes s t where
  sound := by
    have hsound := hs.method.reforest hblocks hhandlers
    refine ⟨by rw [hmethod]; exact hsound, ?_⟩
    rw [htree, hmethod]
    exact hs.tree_within
  method := hmethod

/-- One region in the place of two: what it lists and holds is what they did. -/
theorem yields_merge (hs : s.Sound) {lost : HandlerId → Prop} {P : HandlerId → BlockId → Prop}
    {clauses : List HandlerId} {regions : List RegionId}
    (cov : Covering lost P clauses s.method.forest regions) {outer inner : RegionId}
    (ho : outer ∈ regions) (hi : inner ∈ regions) {blocks : List BlockId} (hnodup : blocks.Nodup)
    (hblocks : ∀ b, b ∈ blocks ↔
      b ∈ (s.method.region outer).blocks ∨ b ∈ (s.method.region inner).blocks)
    {E : Violation → State → Prop} :
    Yields (merge regions outer inner
        (appendNew (s.method.region outer).handlers (s.method.region inner).handlers) blocks) s
      (fun result t => Reshapes s t ∧ Covering lost P clauses t.method.forest result) E := by
  refine yields_bind.mpr (yields_bind.mpr (yields_get.mpr (yields_bind.mpr ?_)))
  refine yields_modify.mpr (yields_pure.mpr (yields_bind.mpr (yields_modify.mpr ?_)))
  have same := inherit_sameContent
    (s.method.forest.push
      { number := s.nextRegion
        handlers := appendNew (s.method.region outer).handlers (s.method.region inner).handlers
        blocks }) s.method.forest.size [outer, inner]
  refine yields_pure.mpr ⟨.of_forest hs rfl rfl (fun r b hb => ?_) fun r h hh => ?_, ?_⟩
  · rw [same.blocks, Forest.get_push] at hb
    split at hb
    · exact ((hblocks b).mp hb).elim (fun h => ⟨outer, h⟩) fun h => ⟨inner, h⟩
    · exact ⟨r, hb⟩
  · rw [same.handlers, Forest.get_push] at hh
    split at hh
    · exact (mem_appendNew.mp hh).elim (fun h => ⟨outer, h⟩) fun h => ⟨inner, h⟩
    · exact ⟨r, hh⟩
  · refine (cov.merge ho hi rfl hnodup (fun b hb => ?_) fun b hb => ?_).sameContent same
    · exact (hblocks b).mpr (Or.inl hb)
    · exact (hblocks b).mpr (Or.inr hb)

theorem mem_handlers_of_isCatchAll {info : HandlerId → Handler} {r : Region}
    (h : r.isCatchAll info = true) : ∀ x ∈ r.handlers, (info x).catchesAll = true := by
  unfold Region.isCatchAll at h
  split at h
  · rename_i x hx
    intro y hy
    rw [hx, List.mem_singleton] at hy
    rwa [hy]
  · cases h

theorem isCatchAll_of_absorb {m : Method} (hm : m.Sound) {outer inner : RegionId}
    (h : relation m outer inner = .ok .absorb) :
    (m.region inner).isCatchAll m.handler = true := by
  obtain ⟨r, hr, -, habsorb⟩ := relation_eq_ok hm outer inner
  rw [hr] at h
  cases h
  exact habsorb rfl

variable {lost : HandlerId → Prop} {P : HandlerId → BlockId → Prop} {clauses : List HandlerId}
  {regions : List RegionId} {outer inner : RegionId} {E : Violation → State → Prop}

section Takes

/-- The forest after `outer` has absorbed `inner`. -/
def absorbInto (f : Forest) (outer inner : RegionId) : Forest :=
  ((f.modify outer fun r => { r with
    blocks := appendNew (f.get outer).blocks (f.get inner).blocks }).rehang (f.get inner).inner
      (some outer)).modify inner fun r => { r with handlers := [], blocks := [] }

/-- The forest after `inner` went under `outer`. -/
def nestInto (f : Forest) (outer inner : RegionId) : Forest :=
  ((f.modify inner fun r => { r with
    handlers := (f.get inner).handlers.filter fun h => decide (h ∉ (f.get outer).handlers) }).link
      inner outer).modify outer fun r => { r with
        blocks := appendNew (f.get outer).blocks (f.get inner).blocks }

variable (f : Forest) (outer inner r : RegionId)

@[simp] theorem size_absorbInto : (absorbInto f outer inner).size = f.size := by
  rw [absorbInto, Forest.size_modify, (Forest.SameContent.rehang _ _ _).size, Forest.size_modify]

theorem handlers_absorbInto : ((absorbInto f outer inner).get r).handlers =
    if inner = r ∧ r < f.size then [] else (f.get r).handlers := by
  have moved := Forest.SameContent.rehang (f.modify outer fun r => { r with
    blocks := appendNew (f.get outer).blocks (f.get inner).blocks }) (f.get inner).inner
    (some outer)
  rw [absorbInto, Forest.get_modify, moved.size, Forest.size_modify]
  split
  · rfl
  · rw [moved.handlers, Forest.get_modify]
    split <;> rfl

theorem blocks_absorbInto : ((absorbInto f outer inner).get r).blocks =
    if inner = r ∧ r < f.size then []
    else if outer = r ∧ r < f.size then appendNew (f.get outer).blocks (f.get inner).blocks
    else (f.get r).blocks := by
  have moved := Forest.SameContent.rehang (f.modify outer fun r => { r with
    blocks := appendNew (f.get outer).blocks (f.get inner).blocks }) (f.get inner).inner
    (some outer)
  rw [absorbInto, Forest.get_modify, moved.size, Forest.size_modify]
  split
  · rfl
  · rw [moved.blocks, Forest.get_modify]
    split <;> rfl

@[simp] theorem size_nestInto : (nestInto f outer inner).size = f.size := by
  rw [nestInto, Forest.size_modify, (Forest.SameContent.link _ _ _).size, Forest.size_modify]

/-- Clauses that are the inner region's own stay with it. -/
theorem handlers_nestInto
    (hown : ∀ h ∈ (f.get outer).handlers, h ∉ (f.get inner).handlers) :
    ((nestInto f outer inner).get r).handlers = (f.get r).handlers := by
  have own : (f.get inner).handlers.filter (fun h => decide (h ∉ (f.get outer).handlers)) =
      (f.get inner).handlers :=
    List.filter_eq_self.mpr fun h hh => decide_eq_true fun hh' => hown h hh' hh
  have linked := Forest.SameContent.link (f.modify inner fun r =>
    { r with handlers := (f.get inner).handlers }) inner outer
  have hsame : ((f.modify inner fun r => { r with handlers := (f.get inner).handlers }).get
      r).handlers = (f.get r).handlers := by
    rw [Forest.get_modify]
    split
    · rename_i h
      rw [h.1]
    · rfl
  rw [nestInto, own, Forest.get_modify]
  split
  · exact (linked.handlers r).trans hsame
  · exact (linked.handlers r).trans hsame

theorem blocks_nestInto : ((nestInto f outer inner).get r).blocks =
    if outer = r ∧ r < f.size then appendNew (f.get outer).blocks (f.get inner).blocks
    else (f.get r).blocks := by
  have linked := Forest.SameContent.link (f.modify inner fun r => { r with
    handlers := (f.get inner).handlers.filter fun h => decide (h ∉ (f.get outer).handlers) })
    inner outer
  rw [nestInto, Forest.get_modify, linked.size, Forest.size_modify]
  split
  · rfl
  · rw [linked.blocks, Forest.get_modify]
    split <;> rfl

end Takes

/-- The inner region gives its blocks to the outer one and is left out, with its handlers. -/
theorem absorb_reshapes (hs : s.Sound)
    (cov : Covering lost P clauses s.method.forest regions) (ho : outer ∈ regions)
    (hi : inner ∈ regions) (hlost : ∀ x ∈ (s.method.region inner).handlers, lost x) {f : Forest}
    (hf : f = absorbInto s.method.forest outer inner) :
    Reshapes s { s with method := { s.method with forest := f } } ∧
      Covering lost P clauses f (regions.filter (· ≠ inner)) ∧
      ∀ r ∈ regions.filter (· ≠ inner), ∀ x ∈ (s.method.region inner).handlers,
        x ∉ (f.get r).handlers := by
  subst hf
  have hother : ∀ r ∈ regions.filter (· ≠ inner), ¬(inner = r ∧ r < s.method.forest.size) := by
    intro r hr h
    simp [h.1] at hr
  refine ⟨?_, ?_, fun r hr x hx hx' => ?_⟩
  · refine .of_forest hs rfl rfl (fun r b hb => ?_) fun r h hh => ?_
    · rw [blocks_absorbInto] at hb
      split at hb
      · cases hb
      · split at hb
        · exact (mem_appendNew.mp hb).elim (fun h => ⟨outer, h⟩) fun h => ⟨inner, h⟩
        · exact ⟨r, hb⟩
    · rw [handlers_absorbInto] at hh
      split at hh
      · cases hh
      · exact ⟨r, hh⟩
  · refine (cov.drop hi hlost).grow (Nat.le_of_eq (size_absorbInto ..).symm) ?_ ?_ ?_
    all_goals
      intro r hr
      have hri := hother r hr
      have hr' : r ∈ regions := (List.mem_filter.mp hr).1
    · rw [handlers_absorbInto, if_neg hri]
    · rw [blocks_absorbInto, if_neg hri]
      split
      · exact nodup_appendNew (cov.blocks_nodup outer ho) _
      · exact cov.blocks_nodup r hr'
    · rw [blocks_absorbInto, if_neg hri]
      intro b hb
      split
      · rename_i hro
        obtain ⟨rfl, -⟩ := hro
        exact mem_appendNew.mpr (Or.inl hb)
      · exact hb
  · rw [handlers_absorbInto, if_neg (hother r hr)] at hx'
    obtain ⟨hr, hne⟩ := List.mem_filter.mp hr
    exact of_decide_eq_true hne (cov.disjoint r hr inner hi x hx' hx)

/-- The inner region goes under the outer one, which gets its blocks; its clauses are its own. -/
theorem nest_reshapes (hs : s.Sound)
    (cov : Covering lost P clauses s.method.forest regions) (ho : outer ∈ regions)
    (hi : inner ∈ regions) (hne : outer ≠ inner) {f : Forest}
    (hf : f = nestInto s.method.forest outer inner) :
    Reshapes s { s with method := { s.method with forest := f } } ∧
      Covering lost P clauses f regions := by
  subst hf
  have hhandlers := fun r => handlers_nestInto s.method.forest outer inner r fun h hh hh' =>
    hne (cov.disjoint outer ho inner hi h hh hh')
  constructor
  · refine .of_forest hs rfl rfl (fun r b hb => ?_) fun r h hh => ⟨r, hhandlers r ▸ hh⟩
    rw [blocks_nestInto] at hb
    split at hb
    · exact (mem_appendNew.mp hb).elim (fun h => ⟨outer, h⟩) fun h => ⟨inner, h⟩
    · exact ⟨r, hb⟩
  · refine cov.grow (Nat.le_of_eq (size_nestInto ..).symm) (fun r _ => hhandlers r)
      (fun r hr => ?_) fun r _ => ?_
    · rw [blocks_nestInto]
      split
      · exact nodup_appendNew (cov.blocks_nodup outer ho) _
      · exact cov.blocks_nodup r hr
    · rw [blocks_nestInto]
      intro b hb
      split
      · rename_i hro
        obtain ⟨rfl, -⟩ := hro
        exact mem_appendNew.mpr (Or.inl hb)
      · exact hb

/-- One pair: the covering stays, and the list as well unless the pair changed it. The handlers of a
region that is absorbed are listed by none that is left. -/
theorem yields_relate (hs : s.Sound)
    (cov : Covering lost P clauses s.method.forest regions) (ho : outer ∈ regions)
    (hi : inner ∈ regions) (hne : outer ≠ inner)
    (hlost : relation s.method outer inner = .ok .absorb →
      ∀ x ∈ (s.method.region inner).handlers, lost x) :
    Yields (relate regions outer inner) s (fun result t => Reshapes s t ∧
      Covering lost P clauses t.method.forest result.1 ∧
      (result.2 = false → result.1 = regions) ∧
      (relation s.method outer inner = .ok .absorb → ∀ r ∈ result.1,
        ∀ x ∈ (s.method.region inner).handlers, x ∉ (t.method.region r).handlers)) E := by
  obtain ⟨r, hr, hsame, -⟩ := relation_eq_ok hs.method outer inner
  have hob := cov.blocks_nodup outer ho
  refine yields_bind.mpr (yields_method.mpr (yields_bind.mpr ((yields_ofExcept hr).mpr ?_)))
  cases r with
  | sameBlocks =>
    refine yields_bind.mpr ((yields_merge hs cov ho hi hob fun b => ?_).mono
      (fun _ t ht => yields_pure.mpr ⟨ht.1, ht.2, nofun, by rw [hr]; nofun⟩) fun _ _ hv => hv)
    rw [← hsame rfl b, or_self_iff]
    exact Iff.rfl
  | sameClauses =>
    refine yields_bind.mpr ((yields_merge hs cov ho hi (nodup_appendNew hob _) fun b => ?_).mono
      (fun _ t ht => yields_pure.mpr ⟨ht.1, ht.2, nofun, by rw [hr]; nofun⟩) fun _ _ hv => hv)
    exact mem_appendNew
  | unrelated =>
    rw [hr]
    exact yields_pure.mpr ⟨.refl hs, cov, fun _ => rfl, nofun⟩
  | absorb =>
    obtain ⟨hres, hcov, hleft⟩ := absorb_reshapes hs cov ho hi (hlost hr) rfl
    exact yields_bind.mpr (yields_modify.mpr (yields_pure.mpr ⟨hres, hcov, nofun, fun _ => hleft⟩))
  | nest =>
    obtain ⟨hres, hcov⟩ := nest_reshapes hs cov ho hi hne rfl
    rw [hr]
    exact yields_bind.mpr (yields_modify.mpr (yields_pure.mpr ⟨hres, hcov, fun _ => rfl, nofun⟩))

/-- Only handlers that catch everything are lost. -/
theorem yields_relatePairs (hs : s.Sound)
    (cov : Covering s.method.CatchesAll P clauses s.method.forest regions)
    {pairs : List (RegionId × RegionId)} (hpairs : ∀ p ∈ pairs, p.1 ∈ regions ∧ p.2 ∈ regions) :
    Yields (relatePairs regions pairs) s (fun result t => Reshapes s t ∧
      Covering s.method.CatchesAll P clauses t.method.forest result.1) E := by
  induction pairs generalizing s with
  | nil => exact yields_pure.mpr ⟨.refl hs, cov⟩
  | cons p pairs ih =>
    obtain ⟨outer, inner⟩ := p
    obtain ⟨ho, hi⟩ := hpairs _ List.mem_cons_self
    have rest := fun p hp => hpairs p (List.mem_cons_of_mem _ hp)
    refine yields_bind.mpr (yields_method.mpr ?_)
    split
    · exact ih hs cov rest
    · rename_i hpair
      have hne : outer ≠ inner := fun h => hpair (by simp [h])
      refine yields_bind.mpr ((yields_relate hs cov ho hi hne fun h =>
        mem_handlers_of_isCatchAll (isCatchAll_of_absorb hs.method h)).mono ?_ fun _ _ hv => hv)
      rintro ⟨result, changed⟩ t ⟨ht, hcov, hlist, -⟩
      cases changed with
      | true => exact yields_pure.mpr ⟨ht, hcov⟩
      | false =>
        obtain rfl : result = regions := hlist rfl
        rw [← ht.catchesAll] at hcov ⊢
        exact (ih ht.sound hcov rest).mono (fun _ u hu => ⟨ht.trans hu.1, hu.2⟩) fun _ _ hv => hv

theorem yields_combineAll (fuel : Nat) (hs : s.Sound)
    (cov : Covering s.method.CatchesAll P clauses s.method.forest regions) :
    Yields (combineAll fuel regions) s (fun result t => Reshapes s t ∧
      Covering s.method.CatchesAll P clauses t.method.forest result) E := by
  induction fuel generalizing s regions with
  | zero => exact yields_pure.mpr ⟨.refl hs, cov⟩
  | succ fuel ih =>
    have hpairs : ∀ p ∈ regions.flatMap fun o => regions.map fun i => (o, i),
        p.1 ∈ regions ∧ p.2 ∈ regions := by
      intro p hp
      obtain ⟨o, ho, hp⟩ := List.mem_flatMap.mp hp
      obtain ⟨i, hi, rfl⟩ := List.mem_map.mp hp
      exact ⟨ho, hi⟩
    refine yields_bind.mpr ((yields_relatePairs hs cov hpairs).mono ?_ fun _ _ hv => hv)
    rintro ⟨result, changed⟩ t ⟨ht, hcov⟩
    cases changed with
    | false => exact yields_pure.mpr ⟨ht, hcov⟩
    | true =>
      rw [← ht.catchesAll] at hcov ⊢
      exact (ih ht.sound hcov).mono (fun _ u hu => ⟨ht.trans hu.1, hu.2⟩) fun _ _ hv => hv

end

end Recovery

end TryRegions
