import TryRegions.Proofs.Recovery.Attempts
import TryRegions.Proofs.Recovery.Stages

/-! What is left to do when the queue gives up. A region that was put off since the last one was
wired would be put off again, so the queue is stuck once it was gone through since then. Before that
each region is wired within a round of the queue, and the rounds get shorter: for `l` regions there
are fewer than `l * (l + 1) / 2` attempts. The default limit of `3 * l` reaches that number for five
regions at most; with six, the queue may give up on a region that is ready. -/

namespace TryRegions.Recovery

open RecoverM

variable {α β : Type} {s t : State}

section Unlimited

/-- The computation never stops because attempts ran out. -/
def Unlimited (x : RecoverM α) : Prop :=
  ∀ s n, (exec x s).1 ≠ .error (.violation (.queueLimit n))

namespace Unlimited

theorem pure (a : α) : Unlimited (Pure.pure a : RecoverM α) := fun _ _ => nofun

theorem fault (f : Fault) : Unlimited (throw (.fault f) : RecoverM α) := fun _ _ => nofun

theorem modify (f : State → State) : Unlimited (modify f) := fun _ _ => nofun

theorem bind {x : RecoverM α} {f : α → RecoverM β} (hx : Unlimited x)
    (hf : ∀ a, Unlimited (f a)) : Unlimited (x >>= f) := by
  intro s n h
  have hx := hx s n
  rw [exec_bind] at h
  generalize exec x s = r at h hx
  obtain ⟨e | a, t⟩ := r
  · cases h
    exact hx rfl
  · exact hf a t n h

theorem forM {f : α → RecoverM PUnit} (hf : ∀ a, Unlimited (f a)) (l : List α) :
    Unlimited (l.forM f) := by
  induction l with
  | nil => exact .pure _
  | cons a l ih => exact (hf a).bind fun _ => ih

theorem filterM {f : α → RecoverM Bool} (hf : ∀ a, Unlimited (f a)) (l : List α) :
    Unlimited (l.filterM f) := by
  have haux : ∀ l kept : List α, Unlimited (l.filterAuxM f kept) := by
    intro l
    induction l with
    | nil => exact fun _ => .pure _
    | cons a l ih => exact fun kept => (hf a).bind fun b => ih _
  exact (haux l []).bind fun _ => .pure _

end Unlimited

theorem unlimited_method : Unlimited RecoverM.method := fun _ _ => nofun

theorem unlimited_graph : Unlimited graph := fun _ _ => nofun

theorem unlimited_ofExcept (e : Except Fault α) : Unlimited (ofExcept e) := by
  cases e with
  | error f => exact .fault f
  | ok a => exact .pure a

theorem unlimited_ask (q : Graph → Except Fault α) : Unlimited (ask q) :=
  unlimited_graph.bind fun _ => unlimited_ofExcept _

theorem unlimited_edit (f : Graph → Except Fault Graph) : Unlimited (edit f) :=
  (unlimited_ask f).bind fun _ => .modify _

theorem unlimited_block (b : BlockId) : Unlimited (block b) := by
  refine unlimited_graph.bind fun g => ?_
  split
  · exact .pure _
  · exact .fault _

theorem unlimited_splitTop (b : BlockId) : Unlimited (splitTop b) :=
  unlimited_graph.bind fun _ => (unlimited_edit _).bind fun _ => .pure _

theorem unlimited_newBlock (offset : Int) : Unlimited (newBlock offset) :=
  unlimited_graph.bind fun _ => Unlimited.bind (.modify _) fun _ => .pure _

theorem unlimited_domTree : Unlimited domTree := by
  have hrebuild : Unlimited rebuildTree :=
    Unlimited.bind (.modify _) fun _ => unlimited_method.bind fun _ =>
      (unlimited_ofExcept _).bind fun _ => Unlimited.bind (.modify _) fun _ => .pure _
  have hget : Unlimited (get : RecoverM State) := fun _ _ => nofun
  refine hget.bind fun s => ?_
  split
  · split
    · exact hrebuild
    · exact .pure _
  · exact hrebuild

theorem unlimited_adjustTop (top : BlockId) : Unlimited (adjustTop top) := by
  refine (unlimited_block top).bind fun k => ?_
  split <;> exact .pure _

theorem unlimited_topBelow (blocks : List BlockId) (d : BlockId) :
    Unlimited (topBelow blocks d) := by
  refine (unlimited_block d).bind fun k => ?_
  dsimp only
  split
  · exact .pure _
  · exact unlimited_adjustTop d

theorem unlimited_searchTop (blocks : List BlockId) : Unlimited (searchTop blocks) := by
  have hbelow : ∀ d, Unlimited (do return some (← topBelow blocks d)) :=
    fun d => (unlimited_topBelow blocks d).bind fun _ => .pure _
  have hnone : Unlimited (violate (.noTopBlock blocks) : RecoverM (Option BlockId)) :=
    fun _ _ => nofun
  refine (unlimited_ask _).bind fun found => ?_
  split
  · exact (unlimited_adjustTop _).bind fun _ => .pure _
  · refine unlimited_domTree.bind fun tree => unlimited_method.bind fun m => ?_
    split
    · exact hbelow _
    · exact hnone
    · dsimp only
      split
      · exact .pure _
      · split
        · exact hbelow _
        · exact hnone

theorem unlimited_searchBottom (blocks : List BlockId) : Unlimited (searchBottom blocks) := by
  refine (unlimited_ask _).bind fun found => ?_
  split
  · exact .pure _
  · refine unlimited_domTree.bind fun tree => (unlimited_ask _).bind fun cross => ?_
    split
    · exact .pure _
    · rename_i cross
      refine (unlimited_block cross).bind fun k => (Unlimited.filterM (fun p => ?_) _).bind
        fun outside => ?_
      · split
        · exact .pure _
        · exact (unlimited_ask _).bind fun _ => .pure _
      · split
        · exact .pure _
        · exact (unlimited_splitTop _).bind fun _ => Unlimited.bind (.modify _) fun _ =>
            (Unlimited.forM (fun _ => unlimited_edit _) _).bind fun _ => .pure _

theorem unlimited_topSplitter (top : BlockId) : Unlimited (topSplitter top) := by
  have hbelow : ∀ k, Unlimited (splitterBelow k) := by
    intro k
    unfold splitterBelow
    split
    · exact .pure _
    · refine (unlimited_ask _).bind fun found => ?_
      split
      · exact .pure _
      · refine (unlimited_block _).bind fun _ => ?_
        split <;> exact .pure _
  refine unlimited_method.bind fun m => ?_
  dsimp only
  split
  · refine (unlimited_block top).bind fun k => ?_
    split
    · exact fun _ _ => nofun
    · exact unlimited_splitTop _
  · refine (unlimited_block top).bind fun k => (unlimited_ask _).bind fun found => ?_
    split
    · exact .pure _
    · refine (hbelow k).bind fun below => ?_
      split
      · exact .pure _
      · exact unlimited_splitTop _

theorem unlimited_bottomSplitter (bottom : BlockId) : Unlimited (bottomSplitter bottom) := by
  refine (unlimited_block bottom).bind fun k => (unlimited_ask _).bind fun found => ?_
  have htie : ∀ s, Unlimited (do
      modifyGraph fun g => g.modify s (·.addFlags { bottomSplitter := true, synthetic := true })
      edit fun g => g.connect bottom s
      return s) :=
    fun s => Unlimited.bind (.modify _) fun _ => (unlimited_edit _).bind fun _ => .pure _
  cases found with
  | none => exact (unlimited_newBlock _).bind htie
  | some s => exact htie s

theorem unlimited_linkHandlers (r : RegionId) (top : BlockId) (bottom : Option BlockId) :
    Unlimited (linkHandlers r top bottom) := by
  refine unlimited_method.bind fun m => .forM (fun h => ?_) _
  refine unlimited_method.bind fun m => (unlimited_edit _).bind fun _ => ?_
  split
  · exact unlimited_edit _
  · exact .pure _

theorem unlimited_attach (r : RegionId) (b : BlockId) : Unlimited (attach r b) := by
  refine (unlimited_block b).bind fun k => unlimited_method.bind fun m => ?_
  dsimp only
  split
  · exact .modify _
  · exact .pure _

theorem unlimited_wrapFrom (r : RegionId) (top : BlockId) : Unlimited (wrapFrom r top) := by
  refine unlimited_method.bind fun m => (unlimited_searchBottom _).bind fun bottom =>
    Unlimited.bind (.modify _) fun _ => (unlimited_topSplitter top).bind fun topSplit =>
      Unlimited.bind (.modify _) fun _ => ?_
  have hlink : ∀ (low : Option BlockId) (last : RecoverM Unit), Unlimited last → Unlimited (do
      record (.splitters (m.region r).number topSplit low)
      linkHandlers r topSplit low
      (m.region r).blocks.forM (attach r)
      modifyMethod fun m => m.modifyRegion r fun k => { k with topSplitter := some topSplit }
      edit fun g => g.refreshClean topSplit
      last) := fun low last hlast =>
    Unlimited.bind (.modify _) fun _ => (unlimited_linkHandlers r _ _).bind fun _ =>
      (Unlimited.forM (unlimited_attach r) _).bind fun _ => Unlimited.bind (.modify _) fun _ =>
        (unlimited_edit _).bind fun _ => hlast
  cases bottom with
  | none => exact hlink none _ (.pure _)
  | some b =>
    dsimp only
    split
    · exact hlink none _ (.pure _)
    · rw [map_eq_pure_bind, bind_assoc]
      exact (unlimited_bottomSplitter b).bind fun c => hlink (some c) _ (unlimited_edit _)

/-- Only the queue counts attempts. -/
theorem unlimited_wrap (r : RegionId) : Unlimited (wrap r) := by
  refine Unlimited.bind (.modify _) fun _ => unlimited_method.bind fun m =>
    (unlimited_searchTop _).bind fun found => ?_
  split
  · exact .pure _
  · refine (unlimited_block _).bind fun k => ?_
    split
    · exact .pure _
    · exact (unlimited_wrapFrom r _).bind fun _ => .pure _

end Unlimited

section Queue

variable {t' : State} {limit : Int} {n k : Nat} {queue fresh tried left late : List RegionId}
  {attempts earlier waits : List Attempt} {out : Except Stop Unit × State}

theorem two_mul_add_mul_pred (p : Nat) : 2 * p + p * (p - 1) = (p + 1) * p := by
  cases p with
  | zero => rfl
  | succ p =>
    rw [Nat.add_sub_cancel, Nat.succ_mul (p + 1), Nat.mul_succ (p + 1)]
    omega

theorem not_queueLimit_of_wrap {r : RegionId} {e : Stop} (h : exec (wrap r) s = (.error e, t)) :
    (Except.error e : Except Stop Unit) ≠ .error (.violation (.queueLimit k)) := by
  rintro ⟨⟩
  refine unlimited_wrap r s k ?_
  rw [h]

/-- Only the queue itself stops at the limit, and not before as many attempts were made. -/
theorem Attempts.limit_le (h : Attempts limit n s queue attempts out)
    (hout : out.1 = .error (.violation (.queueLimit k))) :
    k = n + attempts.length ∧ limit ≤ k := by
  induction h with
  | done => cases hout
  | stopped hwrap => exact absurd hout (not_queueLimit_of_wrap hwrap)
  | exhausted _ hlimit =>
    cases hout
    exact ⟨rfl, hlimit⟩
  | wired _ _ ih | postponed _ _ _ ih =>
    obtain ⟨rfl, hlimit⟩ := ih hout
    refine ⟨?_, hlimit⟩
    rw [List.length_cons]
    omega

/-- The attempts `earlier ++ waits` are made for the queue `fresh ++ tried` until the limit is
reached in `t`. The last of `earlier` wires its region and all of `waits` put theirs off. Of the
regions that are left to do, those in `late` have to wait. The others, in `left`, did not have their
turn since the last region was wired; there are none if enough attempts were made. -/
structure GivesUp (fresh tried : List RegionId) (earlier waits : List Attempt)
    (left late : List RegionId) (t : State) : Prop where
  perm : (completed earlier ++ (left ++ late)).Perm (fresh ++ tried)
  nonempty : waits ≠ []
  putOff : ∀ a ∈ waits, a.result = .ok false
  wired : ∀ a ∈ earlier.getLast?, a.result = .ok true
  turn : ∀ a ∈ waits, a.region ∈ late
  waiting : ∀ r ∈ late, t.Waits r
  tried_late : earlier = [] → ∀ r ∈ tried, r ∈ late
  length_late : left ≠ [] → waits.length + (if earlier = [] then tried.length else 0) ≤ late.length
  left_eq_nil : fresh = [] → left = []
  bound : left ≠ [] → 2 * (earlier ++ waits).length < 2 * fresh.length +
    (fresh.length + tried.length) * (fresh.length + tried.length - 1)

namespace GivesUp

/-- The attempt at which the limit is reached. -/
theorem exhausted {r : RegionId} {rest : List RegionId} (hqueue : r :: rest = fresh ++ tried)
    (hr : t.Waits r) (htried : ∀ q ∈ tried, t.Waits q) :
    ∃ left late, GivesUp fresh tried [] [⟨r, s, .ok false, t⟩] left late t := by
  cases fresh with
  | nil =>
    obtain rfl : r :: rest = tried := hqueue
    refine ⟨[], rest ++ [r], ?_⟩
    constructor
    case perm => exact List.perm_append_singleton r rest
    case nonempty => exact List.cons_ne_nil _ _
    case putOff => simp
    case wired => simp
    case turn => simp
    case waiting =>
      exact fun q hq => htried q ((List.perm_append_singleton r rest).mem_iff.mp hq)
    case tried_late => exact fun _ q hq => (List.perm_append_singleton r rest).mem_iff.mpr hq
    case length_late => exact fun h => absurd rfl h
    case left_eq_nil => exact fun _ => rfl
    case bound => exact fun h => absurd rfl h
  | cons f fresh =>
    obtain ⟨rfl, rfl⟩ := List.cons_eq_cons.mp hqueue
    refine ⟨fresh, tried ++ [r], ?_⟩
    constructor
    case perm =>
      show (fresh ++ (tried ++ [r])).Perm (r :: (fresh ++ tried))
      rw [← List.append_assoc]
      exact List.perm_append_singleton r (fresh ++ tried)
    case nonempty => exact List.cons_ne_nil _ _
    case putOff => simp
    case wired => simp
    case turn => simp
    case waiting =>
      exact List.forall_mem_append.mpr ⟨htried, List.forall_mem_singleton.mpr hr⟩
    case tried_late => exact fun _ q hq => List.mem_append_left _ hq
    case length_late => simp [Nat.add_comm]
    case left_eq_nil => exact nofun
    case bound =>
      intro h
      have hpos := List.length_pos_iff.mpr h
      simp only [List.nil_append, List.length_cons, List.length_nil]
      omega

/-- An attempt that wires its region, after which no region is known to have to wait. -/
theorem wire {r : RegionId} {u : State}
    (h : GivesUp (fresh ++ tried) [] earlier waits left late t) :
    GivesUp (r :: fresh) tried (⟨r, s, .ok true, u⟩ :: earlier) waits left late t := by
  constructor
  case perm =>
    have hperm := h.perm.cons r
    rw [List.append_nil] at hperm
    exact hperm
  case nonempty => exact h.nonempty
  case putOff => exact h.putOff
  case wired =>
    intro a ha
    cases earlier with
    | nil =>
      cases ha
      rfl
    | cons e es =>
      rw [List.getLast?_cons_cons] at ha
      exact h.wired a ha
  case turn => exact h.turn
  case waiting => exact h.waiting
  case tried_late => exact nofun
  case length_late =>
    intro hleft
    have hlength := h.length_late hleft
    simp only [List.length_nil, ite_self, reduceCtorEq, if_false] at hlength ⊢
    exact hlength
  case left_eq_nil => exact nofun
  case bound =>
    intro hleft
    have hbound := h.bound hleft
    have hsum : fresh.length + 1 + tried.length = fresh.length + tried.length + 1 := by omega
    simp only [List.length_append, List.length_nil, List.length_cons, Nat.add_zero] at hbound ⊢
    rw [hsum, Nat.add_sub_cancel, ← two_mul_add_mul_pred]
    omega

/-- An attempt that puts its region off: the region joins those that have to wait. -/
theorem postpone {fresh' tried' : List RegionId} {a : Attempt}
    (h : GivesUp fresh' tried' earlier waits left late t) (ha : a.result = .ok false)
    (hregion : a.region ∈ tried') (hperm : (fresh' ++ tried').Perm (fresh ++ tried))
    (hsub : ∀ r ∈ tried, r ∈ tried') (hnil : fresh = [] → fresh' = [])
    (hlength : left ≠ [] → fresh.length = fresh'.length + 1 ∧ tried'.length = tried.length + 1) :
    ∃ earlier' waits', a :: (earlier ++ waits) = earlier' ++ waits' ∧
      GivesUp fresh tried earlier' waits' left late t := by
  have hbound : left ≠ [] → 2 * (a :: (earlier ++ waits)).length < 2 * fresh.length +
      (fresh.length + tried.length) * (fresh.length + tried.length - 1) := by
    intro hleft
    have hbound := h.bound hleft
    obtain ⟨hfresh, htried⟩ := hlength hleft
    have hsum : fresh.length + tried.length = fresh'.length + tried'.length := by omega
    rw [hsum, List.length_cons]
    omega
  cases earlier with
  | nil =>
    refine ⟨[], a :: waits, rfl, ?_⟩
    constructor
    case perm => exact h.perm.trans hperm
    case nonempty => exact List.cons_ne_nil _ _
    case putOff =>
      intro b hb
      rcases List.mem_cons.mp hb with rfl | hb
      · exact ha
      · exact h.putOff b hb
    case wired => simp
    case turn =>
      intro b hb
      rcases List.mem_cons.mp hb with rfl | hb
      · exact h.tried_late rfl _ hregion
      · exact h.turn b hb
    case waiting => exact h.waiting
    case tried_late => exact fun _ r hr => h.tried_late rfl r (hsub r hr)
    case length_late =>
      intro hleft
      have hlate := h.length_late hleft
      obtain ⟨-, htried⟩ := hlength hleft
      rw [if_pos rfl] at hlate ⊢
      rw [List.length_cons]
      omega
    case left_eq_nil => exact fun hfresh => h.left_eq_nil (hnil hfresh)
    case bound => exact hbound
  | cons e es =>
    refine ⟨a :: e :: es, waits, rfl, ?_⟩
    constructor
    case perm =>
      have hcompleted : completed (a :: e :: es) = completed (e :: es) := by
        unfold completed
        rw [List.filter_cons_of_neg]
        rw [Attempt.completes, ha]
        exact Bool.false_ne_true
      rw [hcompleted]
      exact h.perm.trans hperm
    case nonempty => exact h.nonempty
    case putOff => exact h.putOff
    case wired =>
      intro b hb
      rw [List.getLast?_cons_cons] at hb
      exact h.wired b hb
    case turn => exact h.turn
    case waiting => exact h.waiting
    case tried_late => exact nofun
    case length_late => exact h.length_late
    case left_eq_nil => exact fun hfresh => h.left_eq_nil (hnil hfresh)
    case bound => exact hbound

/-- The region is one that had its turn since the last region was wired. -/
theorem postpone_tried {r : RegionId} {rest : List RegionId}
    (h : GivesUp [] (rest ++ [r]) earlier waits left late t) :
    ∃ earlier' waits', ⟨r, s, .ok false, t'⟩ :: (earlier ++ waits) = earlier' ++ waits' ∧
      GivesUp [] (r :: rest) earlier' waits' left late t :=
  have hperm := List.perm_append_singleton r rest
  h.postpone rfl (hperm.mem_iff.mpr List.mem_cons_self) hperm (fun _ hq => hperm.mem_iff.mpr hq)
    (fun _ => rfl) fun hleft => absurd (h.left_eq_nil rfl) hleft

/-- The region is one that did not have its turn yet. -/
theorem postpone_fresh {r : RegionId} (h : GivesUp fresh (tried ++ [r]) earlier waits left late t) :
    ∃ earlier' waits', ⟨r, s, .ok false, t'⟩ :: (earlier ++ waits) = earlier' ++ waits' ∧
      GivesUp (r :: fresh) tried earlier' waits' left late t := by
  refine h.postpone rfl (List.mem_append_right _ (List.mem_singleton_self r)) ?_
    (fun _ hq => List.mem_append_left _ hq) nofun fun _ => ⟨rfl, List.length_append⟩
  rw [← List.append_assoc]
  exact List.perm_append_singleton r (fresh ++ tried)

end GivesUp

/-- What one attempt after the other says of the state in which the limit is reached: a region that
was put off has to wait until another one is wired. -/
theorem Attempts.givesUp (h : Attempts limit n s queue attempts out)
    (hout : out.1 = .error (.violation (.queueLimit k))) (hqueue : queue = fresh ++ tried)
    (htried : ∀ r ∈ tried, s.Waits r) :
    ∃ earlier waits left late, attempts = earlier ++ waits ∧
      GivesUp fresh tried earlier waits left late out.2 := by
  induction h generalizing fresh tried with
  | done => cases hout
  | stopped hwrap => exact absurd hout (not_queueLimit_of_wrap hwrap)
  | @exhausted _ s r rest t hwrap hlimit =>
    have hr : t.Waits r := (waits_of_wrap hwrap r).mpr (congrArg Prod.fst hwrap)
    obtain ⟨left, late, hlast⟩ := GivesUp.exhausted (s := s) hqueue hr fun q hq =>
      (waits_of_wrap hwrap q).mpr (htried q hq)
    exact ⟨[], _, left, late, rfl, hlast⟩
  | @wired _ s r rest t _ _ hwrap _ ih =>
    cases fresh with
    | nil =>
      -- A region that has to wait is not wired.
      obtain rfl : r :: rest = tried := hqueue
      have hr := htried r List.mem_cons_self
      rw [State.Waits, hwrap] at hr
      cases hr
    | cons f fresh =>
      obtain ⟨rfl, rfl⟩ := List.cons_eq_cons.mp hqueue
      obtain ⟨earlier, waits, left, late, rfl, hrest⟩ :=
        ih hout (List.append_nil _).symm fun _ hq => absurd hq List.not_mem_nil
      exact ⟨_ :: earlier, waits, left, late, rfl, hrest.wire⟩
  | @postponed _ s r rest t _ _ hwrap _ _ ih =>
    have hr : t.Waits r := (waits_of_wrap hwrap r).mpr (congrArg Prod.fst hwrap)
    have htried' : ∀ q ∈ tried, t.Waits q := fun q hq =>
      (waits_of_wrap hwrap q).mpr (htried q hq)
    cases fresh with
    | nil =>
      obtain rfl : r :: rest = tried := hqueue
      obtain ⟨earlier, waits, left, late, rfl, hrest⟩ :=
        ih hout (List.nil_append _).symm fun q hq =>
          htried' q ((List.perm_append_singleton r rest).mem_iff.mp hq)
      obtain ⟨earlier', waits', hsplit, hgives⟩ := hrest.postpone_tried
      exact ⟨earlier', waits', left, late, hsplit, hgives⟩
    | cons f fresh =>
      obtain ⟨rfl, rfl⟩ := List.cons_eq_cons.mp hqueue
      have hmore : ∀ q ∈ tried ++ [r], t.Waits q :=
        List.forall_mem_append.mpr ⟨htried', List.forall_mem_singleton.mpr hr⟩
      obtain ⟨earlier, waits, left, late, rfl, hrest⟩ := ih hout (List.append_assoc _ _ _) hmore
      obtain ⟨earlier', waits', hsplit, hgives⟩ := hrest.postpone_fresh
      exact ⟨earlier', waits', left, late, hsplit, hgives⟩

end Queue

theorem attemptLimit_of_few {regions : List RegionId} (h : regions.length ≤ 5) :
    attemptLimit ({} : Config).limitFactor regions = 3 * regions.length := by
  have hsmall : ∀ l : Nat, l ≤ 5 → ((l : Int) * 3).bmod UInt64.size = 3 * l := by decide
  exact hsmall regions.length h

/-- Where wiring with the default factor reaches the limit of attempts, every region that was put
off since the last one was wired, the one just attempted among them, would be put off again. So
would every region that is left to do if as many attempts were made since then as there are such
regions, and also if there were five regions at most or if `l` regions had `l * (l + 1) / 2`
attempts. -/
theorem waits_of_queueLimit {regions : List RegionId} {n : Nat}
    (hrun : exec (wire ({} : Config).limitFactor regions) s =
      (.error (.violation (.queueLimit n)), t)) :
    ∃ earlier waits outstanding,
      Attempts (attemptLimit ({} : Config).limitFactor regions) 0 s regions (earlier ++ waits)
        (.error (.violation (.queueLimit n)), t) ∧
      (completed earlier ++ outstanding).Perm regions ∧
      waits ≠ [] ∧ (∀ a ∈ waits, a.result = .ok false) ∧
      (∀ a ∈ earlier.getLast?, a.result = .ok true) ∧
      (∀ a ∈ waits, a.region ∈ outstanding ∧ t.Waits a.region) ∧
      (outstanding.length ≤ waits.length ∨ regions.length ≤ 5 ∨
          regions.length * (regions.length + 1) ≤ 2 * n →
        ∀ r ∈ outstanding, t.Waits r) := by
  have hfuel : (attemptLimit ({} : Config).limitFactor regions - (0 : Nat)).toNat +
      regions.length ≤
        (attemptLimit ({} : Config).limitFactor regions).toNat + regions.length + 1 := by omega
  obtain ⟨attempts, hattempts, -⟩ := exists_attempts (s := s) hfuel
  have hout : exec (wrapQueue _ _ 0 regions) s = _ := hrun
  rw [hout] at hattempts
  obtain ⟨hn, hlimit⟩ := hattempts.limit_le rfl
  obtain ⟨earlier, waits, left, late, rfl, h⟩ :=
    hattempts.givesUp rfl (List.append_nil regions).symm fun _ hr => absurd hr List.not_mem_nil
  refine ⟨earlier, waits, left ++ late, hattempts, ?_, h.nonempty, h.putOff, h.wired,
    fun a ha => ⟨List.mem_append_right _ (h.turn a ha), h.waiting _ (h.turn a ha)⟩, fun hcase => ?_⟩
  · have hperm := h.perm
    rwa [List.append_nil] at hperm
  · have hleft : left = [] := by
      by_contra hleft
      have hpos := List.length_pos_iff.mpr hleft
      have hlate := h.length_late hleft
      have hbound := h.bound hleft
      rw [List.length_nil, Nat.add_zero] at hbound
      rcases hcase with hturn | hfew | hmany
      · rw [List.length_append] at hturn
        omega
      · rw [attemptLimit_of_few hfew] at hlimit
        have hpairs := Nat.mul_le_mul_left regions.length (Nat.sub_le_sub_right hfew 1)
        omega
      · rw [Nat.mul_comm, ← two_mul_add_mul_pred] at hmany
        omega
    rw [hleft]
    exact h.waiting

/-- Six handlers in a row: block 1 is covered by handler 5, and the code of each handler, from block
`3 + h` on, by the handler before it. -/
def relay : Method where
  name := "m"
  graph :=
    { blocks := #[
        { offset := 0, succs := [1] },
        { offset := 2, instrs := [{ opcode := .invoke, offset := 2, catches := some ⟨[5]⟩ }],
          preds := [0], succs := [2, 8] },
        { offset := 4, preds := [1] },
        { offset := 10, instrs := [{ opcode := .moveException, offset := 10, entry := some 0 }],
          preds := [4], tmpEdge := some 4 },
        { offset := 12, instrs := [{ opcode := .moveException, offset := 12, entry := some 1 },
            { opcode := .invoke, offset := 13, catches := some ⟨[0]⟩ }],
          preds := [5], succs := [3], tmpEdge := some 5 },
        { offset := 14, instrs := [{ opcode := .moveException, offset := 14, entry := some 2 },
            { opcode := .invoke, offset := 15, catches := some ⟨[1]⟩ }],
          preds := [6], succs := [4], tmpEdge := some 6 },
        { offset := 16, instrs := [{ opcode := .moveException, offset := 16, entry := some 3 },
            { opcode := .invoke, offset := 17, catches := some ⟨[2]⟩ }],
          preds := [7], succs := [5], tmpEdge := some 7 },
        { offset := 18, instrs := [{ opcode := .moveException, offset := 18, entry := some 4 },
            { opcode := .invoke, offset := 19, catches := some ⟨[3]⟩ }],
          preds := [8], succs := [6], tmpEdge := some 8 },
        { offset := 20, instrs := [{ opcode := .moveException, offset := 20, entry := some 5 },
            { opcode := .invoke, offset := 21, catches := some ⟨[4]⟩ }],
          preds := [1], succs := [7], tmpEdge := some 1 }]
      live := [0, 1, 2, 3, 4, 5, 6, 7, 8] }
  enter := some 0
  handlers := #[{ number := 0, offset := 10, types := ["E0"] },
    { number := 1, offset := 12, types := ["E1"] }, { number := 2, offset := 14, types := ["E2"] },
    { number := 3, offset := 16, types := ["E3"] }, { number := 4, offset := 18, types := ["E4"] },
    { number := 5, offset := 20, types := ["E5"] }]
  registered := [0, 1, 2, 3, 4, 5]

def relayPrepared : State := (exec (preparing {} relay) { method := relay }).2

def relayStopped : State := (exec (wire 3 [0, 1, 2, 3, 4, 5]) relayPrepared).2

theorem exec_wire_relay :
    exec (wire ({} : Config).limitFactor [0, 1, 2, 3, 4, 5]) relayPrepared =
      (.error (.violation (.queueLimit 19)), relayStopped) :=
  Prod.ext (by decide +kernel) (by rw [relayStopped])

/-- The queue may give up on a region that was put off at its last turn and is ready now: region 1,
since region 2 was wired in between. -/
theorem queueLimit_before_ready :
    relay.Fresh ∧
      exec (preparing {} relay) { method := relay } = (.ok [0, 1, 2, 3, 4, 5], relayPrepared) ∧
      exec (wire ({} : Config).limitFactor [0, 1, 2, 3, 4, 5]) relayPrepared =
        (.error (.violation (.queueLimit 19)), relayStopped) ∧
      (relayStopped.method.region 1).topSplitter = none ∧
      (exec (wrap 1) relayStopped).1 = .ok true :=
  ⟨by decide +kernel, Prod.ext (by decide +kernel) (by rw [relayPrepared]), exec_wire_relay,
    by decide +kernel, by decide +kernel⟩

/-- A region over block 1, to which nothing leads. -/
def stranded : State := (exec (newRegion [] [1])
  { method := {
      name := "m"
      graph := { blocks := #[{ offset := 0 }, { offset := 2 }], live := [0, 1] }
      enter := some 0 } }).2

def strandedStopped : State := (exec (wire 3 [0]) stranded).2

/-- A region that is stranded is attempted three times in vain, and would be so again. Of the six
regions in a row, those that were put off last have to wait. -/
theorem waits_of_queueLimit_relay :
    (exec (wire ({} : Config).limitFactor [0]) stranded =
        (.error (.violation (.queueLimit 3)), strandedStopped) ∧ strandedStopped.Waits 0) ∧
      exec (wire ({} : Config).limitFactor [0, 1, 2, 3, 4, 5]) relayPrepared =
        (.error (.violation (.queueLimit 19)), relayStopped) ∧
      ∃ earlier waits outstanding,
        Attempts (attemptLimit ({} : Config).limitFactor [0, 1, 2, 3, 4, 5]) 0 relayPrepared
          [0, 1, 2, 3, 4, 5] (earlier ++ waits)
          (.error (.violation (.queueLimit 19)), relayStopped) ∧
        (completed earlier ++ outstanding).Perm [0, 1, 2, 3, 4, 5] ∧ waits ≠ [] ∧
        ∀ a ∈ waits, a.region ∈ outstanding ∧ relayStopped.Waits a.region := by
  have hstranded : exec (wire ({} : Config).limitFactor [0]) stranded =
      (.error (.violation (.queueLimit 3)), strandedStopped) :=
    Prod.ext (by decide +kernel) (by rw [strandedStopped])
  refine ⟨⟨hstranded, ?_⟩, exec_wire_relay, ?_⟩
  · obtain ⟨earlier, waits, outstanding, -, hperm, hsome, -, -, hwaits, hall⟩ :=
      waits_of_queueLimit hstranded
    refine hall (Or.inr (Or.inl (by decide))) 0 ?_
    obtain ⟨a, ha⟩ := List.exists_mem_of_ne_nil waits hsome
    have hregion := hperm.subset (List.mem_append_right _ (hwaits a ha).1)
    rw [← List.mem_singleton.mp hregion]
    exact (hwaits a ha).1
  · obtain ⟨earlier, waits, outstanding, hattempts, hperm, hsome, -, -, hwaits, -⟩ :=
      waits_of_queueLimit exec_wire_relay
    exact ⟨earlier, waits, outstanding, hattempts, hperm, hsome, hwaits⟩

end TryRegions.Recovery
