import TryRegions.Proofs.Recovery.Instructions
import TryRegions.Proofs.Recovery.Passage

/-! The variables of handlers. A handler that has its entry has a variable of the handler's class,
and a register among them is the result of an instruction that binds the caught value. Classes are
added only to handlers whose variable is a register, and the register and the result of its
instruction take the new class together. -/

open Relation

namespace TryRegions

/-- The instruction binds the caught value to `r`, the variable of `h`, which stays a variable. -/
structure Instr.BindsTo (i : Instr) (h : HandlerId) (r : Register) : Prop where
  opcode : i.opcode = .moveException
  result : i.result = some r
  dontInline : i.flags.dontInline = true
  binds : i.binds = some h

/-- The classes of the handler and its variable. -/
def Handler.binding (k : Handler) : List TypeName × Option Operand := (k.types, k.arg)

theorem Handler.argType_congr {k k' : Handler} (htypes : k'.types = k.types) :
    k'.argType = k.argType := by
  rw [argType, argType, htypes]

/-- When one element of a list is changed, each of them is still there, changed or not. -/
theorem mem_modify_or {α : Type} {l : List α} {a : α} (ha : a ∈ l) (n : Nat) (f : α → α) :
    a ∈ l.modify n f ∨ f a ∈ l.modify n f := by
  obtain ⟨j, hj⟩ := List.getElem?_of_mem ha
  have hread := List.getElem?_modify f n l j
  rw [hj] at hread
  by_cases hn : n = j
  · exact .inr (List.mem_of_getElem? (hread.trans (by simp [hn])))
  · exact .inl (List.mem_of_getElem? (hread.trans (by simp [hn])))

theorem mem_modify_last {α : Type} {l : List α} {a : α} (hlast : l.getLast? = some a)
    (f : α → α) : f a ∈ l.modify (l.length - 1) f := by
  rw [List.getLast?_eq_getElem?] at hlast
  refine List.mem_of_getElem? (i := l.length - 1) ?_
  rw [List.getElem?_modify, hlast]
  simp

namespace Method

variable {m m' : Method} {pending rest : List BlockId} {b : BlockId} {h x : HandlerId}
  {r : Register}

/-- An instruction of the block binds the variable `r` of `h`. -/
def BindsIn (m : Method) (b : BlockId) (h : HandlerId) (r : Register) : Prop :=
  ∃ i ∈ m.graph.instrs b, i.BindsTo h r

theorem BindsIn.congr (hinstrs : m'.graph.instrs b = m.graph.instrs b) (hb : m.BindsIn b h r) :
    m'.BindsIn b h r := by
  rwa [BindsIn, hinstrs]

/-- Instructions that bind the variables of other handlers stay as they are. -/
theorem BindsIn.modifyBinders (hne : x ≠ h) (f : Instr → Instr) (hb : m.BindsIn b x r) :
    (m.modifyBinders h f).BindsIn b x r := by
  obtain ⟨i, hi, hbinds⟩ := hb
  have hother : i.binds ≠ some h := by
    rw [hbinds.binds]
    exact fun heq => hne (Option.some.inj heq)
  refine ⟨i, ?_, hbinds⟩
  rw [instrs_modifyBinders]
  exact List.mem_map.mpr ⟨i, hi, if_neg hother⟩

theorem BindsIn.modifyInstrs {c : BlockId} {f : List Instr → List Instr} (hf : f [] = [])
    (hkeeps : c = b → ∀ l : List Instr, ∀ i ∈ l, i.BindsTo h r → ∃ j ∈ f l, j.BindsTo h r)
    (hc : m.BindsIn c h r) :
    (m.modifyBlock b fun k => { k with instrs := f k.instrs }).BindsIn c h r := by
  obtain ⟨i, hi, hbinds⟩ := hc
  have hread := m.graph.instrs_modifyInstrs b c hf
  rw [BindsIn, modifyBlock, hread]
  split
  · rename_i hcb
    exact hkeeps hcb _ i hi hbinds
  · exact ⟨i, hi, hbinds⟩

/-- The handler has a variable of its class. A register is declared by the handler, and an
instruction binds it in a block that is not among those `pending`. -/
def HasVariable (m : Method) (pending : List BlockId) (h : HandlerId) : Prop :=
  ∃ a, (m.handler h).arg = some a ∧ a.type = (m.handler h).argType ∧
    ∀ r, a = .register r → r.flags.customDeclare = true ∧ ∃ b ∉ pending, m.BindsIn b h r

/-- The handler keeps its variable as long as the instructions that bind it stay. -/
theorem HasVariable.kept (hv : m.HasVariable pending h)
    (hbinding : (m'.handler h).binding = (m.handler h).binding)
    (hkept : ∀ b ∉ pending, ∀ r, m.BindsIn b h r → b ∉ rest ∧ m'.BindsIn b h r) :
    m'.HasVariable rest h := by
  obtain ⟨htypes, harg⟩ := Prod.mk.inj hbinding
  obtain ⟨a, ha, htype, hregister⟩ := hv
  refine ⟨a, harg.trans ha, htype.trans (Handler.argType_congr htypes).symm, fun r hr => ?_⟩
  obtain ⟨hdeclared, b, hb, hbinds⟩ := hregister r hr
  obtain ⟨hrest, hbinds⟩ := hkept b hb r hbinds
  exact ⟨hdeclared, b, hrest, hbinds⟩

theorem entry_of_modifyHandler {f : Handler → Handler} {e : BlockId}
    (he : ((m.modifyHandler h f).handler h).entry = some e) : (f (m.handler h)).entry = some e := by
  rw [handler_modifyHandler] at he
  split at he
  · exact he
  · rename_i hnone
    exact absurd ⟨rfl, lt_of_isSome_entry (by rw [he]; rfl)⟩ hnone

/-- Each handler that has its entry has its variable, which is a register if the handler starts by
binding the caught value to one. The blocks `pending` are still to be set up. -/
structure Bound (m : Method) (pending : List BlockId) : Prop where
  typed : ∀ h, (m.handler h).entry.isSome = true → m.HasVariable pending h
  register : ∀ h, m.Captures h → ∃ r, (m.handler h).arg = some (.register r)

end Method

namespace Recovery

open RecoverM TryRegions.Graph

variable {s t u : State} {h : HandlerId} {b : BlockId} {pending : List BlockId}

/-- What binds a variable in `s` binds it in `t`. -/
def KeepsBinders (s t : State) : Prop :=
  ∀ b h r, s.method.BindsIn b h r → t.method.BindsIn b h r

theorem KeepsBinders.of_instrs (hinstrs : ∀ b, t.method.graph.instrs b = s.method.graph.instrs b) :
    KeepsBinders s t :=
  fun b _ _ hb => hb.congr (hinstrs b)

instance : IsPreorder State KeepsBinders where
  refl _ _ _ _ hb := hb
  trans _ _ _ hst htu b h r hb := htu b h r (hst b h r hb)

/-- Only handlers that `moved` names may get another entry, and no variable changes. -/
structure LeavesVariables (moved : HandlerId → Prop) (s t : State) : Prop where
  binding : ∀ x, (t.method.handler x).binding = (s.method.handler x).binding
  entry : ∀ x, ¬moved x → (t.method.handler x).entry = (s.method.handler x).entry
  code : ∀ b, t.method.graph.code b = s.method.graph.code b
  binders : KeepsBinders s t

namespace LeavesVariables

variable {moved : HandlerId → Prop}

theorem of_instrs (hbinding : ∀ x, (t.method.handler x).binding = (s.method.handler x).binding)
    (hentry : ∀ x, ¬moved x → (t.method.handler x).entry = (s.method.handler x).entry)
    (hinstrs : ∀ b, t.method.graph.instrs b = s.method.graph.instrs b) :
    LeavesVariables moved s t :=
  ⟨hbinding, hentry, fun b => code_of_instrs (hinstrs b), .of_instrs hinstrs⟩

theorem of_handlers (hhandlers : t.method.handlers = s.method.handlers)
    (hinstrs : ∀ b, t.method.graph.instrs b = s.method.graph.instrs b) :
    LeavesVariables moved s t := by
  have hhandler : t.method.handler = s.method.handler := by
    unfold Method.handler
    rw [hhandlers]
  exact of_instrs (fun x => by rw [hhandler]) (fun x _ => by rw [hhandler]) hinstrs

theorem trans (hst : LeavesVariables moved s t) (htu : LeavesVariables moved t u) :
    LeavesVariables moved s u where
  binding x := (htu.binding x).trans (hst.binding x)
  entry x hx := (htu.entry x hx).trans (hst.entry x hx)
  code b := (htu.code b).trans (hst.code b)
  binders := IsTrans.trans _ _ _ hst.binders htu.binders

instance : IsPreorder State (LeavesVariables moved) where
  refl _ := of_handlers rfl fun _ => rfl
  trans _ _ _ := trans

theorem hasVariable (hst : LeavesVariables moved s t) {x : HandlerId}
    (hx : s.method.HasVariable pending x) : t.method.HasVariable pending x :=
  hx.kept (hst.binding x) fun b hb r hbinds => ⟨hb, hst.binders b x r hbinds⟩

theorem captures (hst : LeavesVariables moved s t) {x : HandlerId} (hx : ¬moved x) :
    t.method.Captures x ↔ s.method.Captures x :=
  Method.captures_congr (hst.entry x hx) hst.code

theorem bound (hs : s.method.Bound pending) (hst : LeavesVariables (fun _ => False) s t) :
    t.method.Bound pending where
  typed x hx := by
    rw [hst.entry x not_false] at hx
    exact hst.hasVariable (hs.typed x hx)
  register x hx := by
    obtain ⟨r, hr⟩ := hs.register x ((hst.captures not_false).mp hx)
    exact ⟨r, (congrArg Prod.snd (hst.binding x)).trans hr⟩

end LeavesVariables

section SetUp

theorem LeavesVariables.modifyHandler {f : Handler → Handler}
    (hhandlers : t.method.handlers = (s.method.modifyHandler h f).handlers)
    (hf : ∀ k, (f k).binding = k.binding)
    (hinstrs : ∀ b, t.method.graph.instrs b = s.method.graph.instrs b) :
    LeavesVariables (· = h) s t := by
  have hhandler : t.method.handler = (s.method.modifyHandler h f).handler := by
    unfold Method.handler
    rw [hhandlers]
  refine .of_instrs (fun x => ?_) (fun x hx => ?_) hinstrs
  · rw [hhandler]
    exact s.method.handler_modifyHandler_eq Handler.binding h x f hf
  · rw [hhandler, Method.handler_modifyHandler, if_neg fun heq => hx heq.1.symm]

theorem leaves_clearMark (b : BlockId) (h : HandlerId) :
    Moves (LeavesVariables (· = h)) (modifyGraph fun g => g.modify b fun k =>
      { k with instrs := k.instrs.modify 0 fun i => { i with entry := none } }) s
      fun _ _ => True := by
  refine .modify ⟨fun _ => rfl, fun _ _ => rfl, fun c => ?_, fun c x r hc => ?_⟩ trivial
  · exact code_modify _ b
      (fun k _ => k.code_modifyInstr 0 (f := fun i => { i with entry := none }) fun _ _ => rfl) c
  · refine hc.modifyInstrs (f := fun l => l.modify 0 fun i => { i with entry := none }) rfl
      fun _ l i hi hbinds => ?_
    rcases mem_modify_or hi 0 fun i => { i with entry := none } with hsame | hcleared
    · exact ⟨i, hsame, hbinds⟩
    · exact ⟨_, hcleared, ⟨hbinds.opcode, hbinds.result, hbinds.dontInline, hbinds.binds⟩⟩

theorem leaves_dropTmpEdge (b : BlockId) (h : HandlerId) :
    Moves (LeavesVariables (· = h)) (dropTmpEdge b) s fun _ _ => True := by
  refine .of_block fun k _ => ?_
  split
  · exact .pure trivial
  · refine Moves.andThen (Q := fun _ _ => True) (.of_ask fun g hg => .modify ?_ trivial)
      fun _ t _ => .modify ?_ trivial
    · obtain ⟨-, rfl⟩ := disconnect_eq_ok.mp hg
      exact .of_handlers rfl fun c => instrs_of_core (core_removeEdge c)
    · exact .of_handlers rfl fun c => instrs_modify _ b (fun _ => by rfl) c

/-- The handler starts at the block or at an empty one. -/
def State.StartsAt (s : State) (h : HandlerId) (b : BlockId) : Prop :=
  ∀ e, (s.method.handler h).entry = some e → e = b ∨ s.method.graph.code e = []

theorem leaves_ownEntry (b : BlockId) (h : HandlerId) :
    Moves (LeavesVariables (· = h)) (ownEntry b h) s fun _ t => t.StartsAt h b := by
  refine Moves.bind (Q := fun _ t => t.StartsAt h b) (.modify ?_ fun e he => ?_) fun _ t _ ht => ?_
  · exact .modifyHandler (f := fun k => { k with entry := some b }.addBlock b) rfl (fun _ => rfl)
      fun c => instrs_modify _ b (fun _ => by rfl) c
  · exact .inl (Option.some.inj (Method.entry_of_modifyHandler he)).symm
  · have htree := (moves_domTree (s := t)).mono fun _ u hu _ => hu
    refine Moves.bind (htree.relax fun _ hu => .of_handlers hu.handlers hu.instrs)
      fun tree u _ hu => .of_ask fun dominated _ => .modify ?_ fun e he => ?_
    · refine .modifyHandler rfl (fun k => ?_) fun _ => rfl
      rw [foldl_addBlock_eq]
      rfl
    · have hentry := Method.entry_of_modifyHandler he
      rw [foldl_addBlock_entry, Method.handler, hu.handlers] at hentry
      exact (ht e hentry).imp_right fun hcode => (code_of_instrs (hu.instrs e)).trans hcode

theorem leaves_newBlock (offset : Int) (h : HandlerId) :
    Moves (LeavesVariables (· = h)) (newBlock offset) s fun b t => t.method.graph.code b = [] := by
  refine .of_graph (Moves.bind (Q := fun _ t => t.method.graph.code s.method.graph.size = [])
    (.modify (.of_handlers rfl (instrs_newBlock _ offset)) ?_) fun _ _ _ ht => .pure ht)
  exact (code_of_instrs (instrs_newBlock _ offset _)).trans (code_of_size_le (Nat.le_refl _))

theorem leaves_standInEntry (b : BlockId) (h : HandlerId) :
    Moves (LeavesVariables (· = h)) (standInEntry b h) s fun _ t => t.StartsAt h b := by
  refine .of_block fun k _ => (leaves_newBlock k.offset h).bind fun entry t _ hempty => ?_
  refine Moves.bind (Q := fun _ u => u.method.graph.code entry = []) (.modify ?_ ?_) fun _ u _ hu =>
    Moves.bind (Q := fun _ v => v.method.graph.code entry = [])
      (.of_ask fun g hg => .modify ?_ ?_) fun _ v _ hv => .modify ?_ fun e he => ?_
  · exact .of_handlers rfl fun c => instrs_modify _ entry (fun _ => by rfl) c
  · exact (code_of_instrs (instrs_modify _ entry (fun _ => by rfl) entry)).trans hempty
  · obtain ⟨-, rfl⟩ := connect_eq_ok.mp hg
    exact .of_handlers rfl fun c => instrs_of_core (core_addEdge c)
  · obtain ⟨-, rfl⟩ := connect_eq_ok.mp hg
    exact (code_of_instrs (instrs_of_core (core_addEdge entry))).trans hu
  · exact .modifyHandler rfl (fun _ => rfl) fun _ => rfl
  · obtain rfl : entry = e := Option.some.inj (Method.entry_of_modifyHandler he)
    exact .inr hv

/-- From `m` to `m'` the handler gets the variable `a` of its class, which is a register if block
`b` ends by binding the caught value to one. In other blocks the variables of other handlers stay as
they are. -/
structure Assigned (m m' : Method) (b : BlockId) (h : HandlerId) (a : Operand) : Prop where
  handlers : m'.handlers = (m.modifyHandler h fun k => { k with arg := some a }).handlers
  code : ∀ c, m'.graph.code c = m.graph.code c
  others : ∀ c x r, c ≠ b → x ≠ h → m.BindsIn c x r → m'.BindsIn c x r
  type : a.type = (m.handler h).argType
  bound : ∀ r, a = .register r → r.flags.customDeclare = true ∧ m'.BindsIn b h r
  captured : ∀ i, (m.graph.instrs b).getLast? = some i → i.opcode = .moveException →
    i.result.isSome = true → ∃ r, a = .register r

/-- Handlers keep their classes. -/
def SameClasses (s t : State) : Prop :=
  ∀ x, (t.method.handler x).types = (s.method.handler x).types

instance : IsPreorder State SameClasses where
  refl _ _ := rfl
  trans _ _ _ hst htu x := (htu x).trans (hst x)

theorem LeavesVariables.sameClasses (hst : LeavesVariables (· = h) s t) : SameClasses s t :=
  fun x => congrArg Prod.fst (hst.binding x)

theorem Moves.leaves {α : Type} {x : RecoverM α} {Q : α → State → Prop}
    (hx : Moves (LeavesVariables (· = h)) x s Q) :
    Moves SameClasses x s fun a t => LeavesVariables (· = h) s t ∧ Q a t :=
  (hx.mono fun _ _ ht hq => ⟨ht, hq⟩).relax fun _ ht => ht.sameClasses

theorem assigned_named (hnone : ∀ i, (s.method.graph.instrs b).getLast? = some i →
      i.opcode = .moveException → i.result = none) (name : String) :
    Assigned s.method (s.method.setArg h (some (.named name (s.method.handler h).argType))) b h
      (.named name (s.method.handler h).argType) where
  handlers := rfl
  code := (Still.setArg s h _).code
  others c x r _ hx hc := hc.modifyBinders hx _
  type := rfl
  bound := nofun
  captured i hi hopcode hresult := by
    rw [hnone i hi hopcode] at hresult
    cases hresult

theorem assigned_register {k : Block} {i : Instr} {r r' : Register}
    (hk : s.method.graph.block? b = some k) (hlast : k.instrs.getLast? = some i)
    (hopcode : i.opcode = .moveException) (hr : i.result = some r) (hindex : r'.index = r.index)
    (htype : r'.type = (s.method.handler h).argType) (hdeclared : r'.flags.customDeclare = true) :
    Assigned s.method ((s.method.setArg h (some (.register r'))).modifyBlock b fun k =>
      { k with instrs := k.instrs.modify (k.instrs.length - 1) (bindResult h r') }) b h
      (.register r') where
  handlers := rfl
  code := (Still.bindResult hk hlast hr hindex h _).code
  others c x q hc hx hq :=
    .modifyInstrs (f := fun l => l.modify (l.length - 1) (bindResult h r')) rfl
      (fun hcb => absurd hcb hc) (hq.modifyBinders hx fun i => { i with binds := none })
  type := htype
  bound q hq := by
    obtain rfl := Operand.register.inj hq
    let cleared := s.method.modifyBinders h fun i => { i with binds := none }
    have hend : (cleared.graph.instrs b).getLast? =
        some (if i.binds = some h then { i with binds := none } else i) := by
      rw [s.method.instrs_modifyBinders, instrs_eq hk, List.getLast?_map, hlast]
      rfl
    have hread := cleared.graph.instrs_modifyInstrs b b
      (f := fun l => l.modify (l.length - 1) (bindResult h r')) rfl
    rw [if_pos rfl] at hread
    refine ⟨hdeclared, _, hread ▸ mem_modify_last hend _, ?_, rfl, rfl, rfl⟩
    show (if i.binds = some h then { i with binds := none } else i).opcode = _
    split <;> exact hopcode
  captured _ _ _ _ := ⟨r', rfl⟩

theorem assigns_bindVariable (b : BlockId) (h : HandlerId) :
    Moves SameClasses (bindVariable b h) s fun _ t =>
      ∃ a, Assigned s.method t.method b h a := by
  refine .of_block fun k hk => .of_method ?_
  have hclasses : ∀ (a : Operand) x,
      ((s.method.modifyHandler h fun k => { k with arg := some a }).handler x).types =
        (s.method.handler x).types :=
    fun a x => s.method.handler_modifyHandler_eq Handler.types h x _ fun _ => rfl
  dsimp only
  split
  · rename_i i hlast
    split
    · rename_i r hopcode hr
      exact .modify (hclasses _) ⟨_, assigned_register hk hlast hopcode hr rfl rfl rfl⟩
    · rename_i hother
      refine .modify (hclasses _) ⟨_, assigned_named (fun j hj hopcode => ?_) unusedName⟩
      rw [instrs_eq hk, hlast] at hj
      obtain rfl := Option.some.inj hj
      exact Option.eq_none_iff_forall_ne_some.mpr fun r hr => hother r hopcode hr
  · rename_i hlast
    refine .modify (hclasses _) ⟨_, assigned_named (fun j hj => ?_) unusedName⟩
    rw [instrs_eq hk, hlast] at hj
    cases hj

/-- All handlers are bound but `h`, which starts at `b` or at an empty block. -/
structure State.Awaits (s : State) (h : HandlerId) (b : BlockId) (pending : List BlockId) :
    Prop where
  typed : ∀ x ≠ h, (s.method.handler x).entry.isSome = true → s.method.HasVariable (b :: pending) x
  register : ∀ x ≠ h, s.method.Captures x → ∃ r, (s.method.handler x).arg = some (.register r)
  starts : s.StartsAt h b

theorem State.Awaits.bound (hs : s.Awaits h b pending) (hb : b ∉ pending) {a : Operand}
    (ha : Assigned s.method t.method b h a) : t.method.Bound pending := by
  have hhandler : ∀ x, t.method.handler x =
      (s.method.modifyHandler h fun k => { k with arg := some a }).handler x := fun x => by
    rw [Method.handler, ha.handlers, ← Method.handler]
  have hother : ∀ x ≠ h, t.method.handler x = s.method.handler x := fun x hx => by
    rw [hhandler, Method.handler_modifyHandler, if_neg fun heq => hx heq.1.symm]
  have hentry : ∀ x, (t.method.handler x).entry = (s.method.handler x).entry := fun x => by
    rw [hhandler]
    exact s.method.handler_modifyHandler_eq Handler.entry h x _ fun _ => rfl
  -- A handler that has an entry is one of the method, so it gets the variable.
  have hown : (t.method.handler h).entry.isSome = true →
      t.method.handler h = { s.method.handler h with arg := some a } := by
    intro hsome
    rw [hentry] at hsome
    rw [hhandler, Method.handler_modifyHandler, if_pos ⟨rfl, Method.lt_of_isSome_entry hsome⟩]
  constructor
  case typed =>
    intro x hx
    by_cases hxh : x = h
    · subst hxh
      refine ⟨a, by rw [hown hx], ?_, fun r hr => ?_⟩
      · rw [hown hx]
        exact ha.type
      · exact ⟨(ha.bound r hr).1, b, hb, (ha.bound r hr).2⟩
    · rw [hentry] at hx
      refine (hs.typed x hxh hx).kept (by rw [hother x hxh]) fun c hc r hbinds => ?_
      rw [List.mem_cons, not_or] at hc
      exact ⟨hc.2, ha.others c x r hc.1 hxh hbinds⟩
  case register =>
    intro x hx
    have hcaptures := (Method.captures_congr (hentry x) ha.code).mp hx
    by_cases hxh : x = h
    · subst hxh
      obtain ⟨e, i, he, hlast, hopcode, hresult⟩ := Method.captures_iff.mp hcaptures
      have hown := hown (by rw [hentry, he]; rfl)
      rcases hs.starts e he with rfl | hempty
      · obtain ⟨r, rfl⟩ := ha.captured i hlast hopcode hresult
        exact ⟨r, by rw [hown]⟩
      · rw [code_eq_map, List.map_eq_nil_iff] at hempty
        rw [hempty] at hlast
        cases hlast
    · rw [hother x hxh]
      exact hs.register x hxh hcaptures

theorem State.Awaits.of_bound (hs : s.method.Bound (b :: pending))
    (hst : LeavesVariables (· = h) s t) (hstarts : t.StartsAt h b) : t.Awaits h b pending where
  typed x hx hentry := by
    rw [hst.entry x hx] at hentry
    exact hst.hasVariable (hs.typed x hentry)
  register x hx hcaptures := by
    obtain ⟨r, hr⟩ := hs.register x ((hst.captures hx).mp hcaptures)
    exact ⟨r, (congrArg Prod.snd (hst.binding x)).trans hr⟩
  starts := hstarts

theorem bound_setUpEntry (hs : s.method.Bound (b :: pending)) (hb : b ∉ pending) :
    Moves SameClasses (setUpEntry b) s fun _ t => t.method.Bound pending := by
  refine .of_block fun k _ => ?_
  split
  · refine .pure ⟨fun x hx => ?_, hs.register⟩
    refine (hs.typed x hx).kept rfl fun c hc r hbinds => ⟨?_, hbinds⟩
    exact fun hmem => hc (List.mem_cons_of_mem b hmem)
  · rename_i h _
    refine (leaves_clearMark b h).leaves.bind fun _ t _ ht =>
      (leaves_dropTmpEdge b h).leaves.bind fun _ u _ hu => .of_block fun k _ => ?_
    have hbind : ∀ v, LeavesVariables (· = h) u v → v.StartsAt h b →
        Moves SameClasses (bindVariable b h) v fun _ w => w.method.Bound pending := by
      intro v hv hstarts
      -- Other handlers have their variables bound outside of `b`, which is set up only now.
      have awaits := State.Awaits.of_bound hs ((ht.1.trans hu.1).trans hv) hstarts
      exact (assigns_bindVariable b h).mono fun _ w _ ⟨a, ha⟩ => awaits.bound hb ha
    split
    · exact (leaves_ownEntry b h).leaves.bind fun _ v _ hv => hbind v hv.1 hv.2
    · exact (leaves_standInEntry b h).leaves.bind fun _ v _ hv => hbind v hv.1 hv.2

theorem bound_setUpEntries (wf : s.method.graph.WellFormed)
    (hs : s.method.Bound s.method.graph.live) :
    Moves SameClasses setUpEntries s fun _ t => t.method.Bound [] := by
  have hnodup : s.method.graph.live.Nodup := wf.live_ascending.imp Nat.ne_of_lt
  refine .of_graph ((Moves.loop (fun rest t => rest.Nodup ∧ t.method.Bound rest)
    (fun b rest t _ ht => ?_) ⟨hnodup, hs⟩).mono fun _ _ _ ht => ht.2)
  obtain ⟨hb, hrest⟩ := List.nodup_cons.mp ht.1
  exact (bound_setUpEntry ht.2 hb).mono fun _ _ _ hu => ⟨hrest, hu⟩

end SetUp

section Phases

section Widening

variable {m : Method} (types : List TypeName)

theorem arg_addTypes {k : Handler} {r : Register} (hr : k.arg = some (.register r)) :
    (k.addTypes types).arg =
      some (.register { r with type := (k.addTypes types).argType }) := by
  simp [Handler.addTypes, hr, Operand.retype, Handler.argType]

theorem handler_addTypes (hcaptures : m.Captures h) :
    (m.addTypes h types).handler h = (m.handler h).addTypes types := by
  refine (m.handler_modifyHandler h h fun k => k.addTypes types).trans ?_
  rw [if_pos ⟨rfl, Method.lt_of_isSome_entry hcaptures.isSome_entry⟩]

theorem handler_addTypes_ne {x : HandlerId} (hx : x ≠ h) :
    (m.addTypes h types).handler x = m.handler x :=
  (m.handler_modifyHandler h x _).trans (if_neg fun heq => hx heq.1.symm)

/-- The result of the instruction that binds the variable takes the new class. -/
theorem bindsIn_addTypes {r : Register} (hb : m.BindsIn b h r) :
    (m.addTypes h types).BindsIn b h
      { r with type := ((m.addTypes h types).handler h).argType } := by
  obtain ⟨i, hi, hbinds⟩ := hb
  let i' : Instr := { i with
    result := i.result.map fun r => { r with type := ((m.addTypes h types).handler h).argType } }
  refine ⟨i', ?_, hbinds.opcode, ?_, hbinds.dontInline, hbinds.binds⟩
  · have hinstrs : (m.addTypes h types).graph.instrs b = _ := Method.instrs_modifyBinders _ h _ b
    rw [hinstrs]
    exact List.mem_map.mpr ⟨i, hi, if_pos hbinds.binds⟩
  · show i.result.map _ = _
    rw [hbinds.result]
    rfl

theorem arg_addTypes_of_captures (hcaptures : m.Captures h) {r : Register}
    (hr : (m.handler h).arg = some (.register r)) :
    ((m.addTypes h types).handler h).arg =
      some (.register { r with type := ((m.addTypes h types).handler h).argType }) := by
  rw [handler_addTypes types hcaptures]
  exact arg_addTypes types hr

theorem hasVariable_addTypes (hcaptures : m.Captures h) (hm : m.Bound pending) :
    (m.addTypes h types).HasVariable pending h := by
  obtain ⟨r, hr⟩ := hm.register h hcaptures
  obtain ⟨a, ha, -, hregister⟩ := hm.typed h hcaptures.isSome_entry
  obtain ⟨hdeclared, b, hb, hbinds⟩ := hregister r (Option.some.inj (ha.symm.trans hr))
  refine ⟨_, arg_addTypes_of_captures types hcaptures hr, rfl, fun q hq => ?_⟩
  obtain rfl := Operand.register.inj hq
  exact ⟨hdeclared, b, hb, bindsIn_addTypes types hbinds⟩

/-- Widening a clause whose variable is a register keeps all variables typed. -/
theorem bound_addTypes (hcaptures : m.Captures h) (hm : m.Bound pending) :
    (m.addTypes h types).Bound pending := by
  constructor
  case typed =>
    intro x hx
    by_cases hxh : x = h
    · subst hxh
      exact hasVariable_addTypes types hcaptures hm
    · rw [handler_addTypes_ne types hxh] at hx
      refine (hm.typed x hx).kept (by rw [handler_addTypes_ne types hxh])
        fun b hb r hbinds => ⟨hb, ?_⟩
      exact Method.BindsIn.modifyBinders hxh _ hbinds
  case register =>
    intro x hx
    obtain ⟨r, hr⟩ := hm.register x ((captures_addTypes types).mp hx)
    by_cases hxh : x = h
    · subst hxh
      exact ⟨_, arg_addTypes_of_captures types hcaptures hr⟩
    · exact ⟨r, by rw [handler_addTypes_ne types hxh, hr]⟩

end Widening

theorem Cull.bound (hst : Cull s t) (hs : s.method.Bound pending) : t.method.Bound pending := by
  cases hst with
  | note hmethod htree =>
    refine LeavesVariables.bound hs (.of_handlers ?_ fun b => ?_)
    · rw [hmethod]
    · rw [hmethod]
  | widen h types hcaptures => exact bound_addTypes types hcaptures hs
  | mark hmark =>
    have hinstrs := Method.instrs_markRemoved hmark
    obtain ⟨-, rfl⟩ := Method.markRemoved_eq_ok.mp hmark
    refine LeavesVariables.bound hs (.of_instrs (fun x => ?_) (fun x _ => ?_) hinstrs)
    · exact s.method.handler_modifyHandler_eq Handler.binding _ x _ fun _ => rfl
    · exact s.method.handler_modifyHandler_eq Handler.entry _ x _ fun _ => rfl
  | disconnect hcut =>
    obtain ⟨-, rfl⟩ := disconnect_eq_ok.mp hcut
    exact LeavesVariables.bound hs (.of_handlers rfl fun b => instrs_of_core (core_removeEdge b))
  | sweep => exact LeavesVariables.bound hs (.of_handlers rfl (instrs_detachMarked _))
  | fill r hchange => exact LeavesVariables.bound hs (.of_handlers rfl fun _ => rfl)

theorem bound_of_regroups {P : BlockId → Prop} (hst : ReflTransGen (Regroup P) s t)
    (hs : s.method.Bound pending) : t.method.Bound pending := by
  induction hst with
  | refl => exact hs
  | tail _ hstep ih =>
    cases hstep with
    | cull hstep => exact hstep.bound ih
    | reforest nextRegion hholds => exact LeavesVariables.bound ih (.of_handlers rfl fun _ => rfl)

theorem keepsBinders_wire (wf : s.method.graph.WellFormed) (factor : Int)
    (regions : List RegionId) :
    Moves KeepsBinders (wire factor regions) s fun _ _ => True := by
  have ready : Ready 0 regions False s := .of_zero wf False.elim
  refine ((joins_wire ready factor).relax fun t hst => ?_).weaken
  induction hst with
  | refl => exact fun _ _ _ hb => hb
  | tail _ hstep ih => exact IsTrans.trans _ _ _ ih (.of_instrs hstep.instrs)

theorem mem_withoutExits {l : List Instr} {i : Instr} (hi : i ∈ l)
    (hopcode : i.opcode ≠ .monitorExit) : i ∈ withoutExits l := by
  have hkept : i ∈ l.filter fun i => i.opcode ≠ .monitorExit :=
    List.mem_filter.mpr ⟨hi, decide_eq_true hopcode⟩
  rw [← (thinned_withoutExits l).others] at hkept
  exact List.mem_of_mem_filter hkept

theorem keepsBinders_dropExits (b : BlockId) :
    Moves KeepsBinders (dropExits b) s fun _ _ => True := by
  refine .of_block fun k _ => Moves.andThen
    (.each fun _ _ _ _ => .modify (.of_instrs fun _ => rfl) trivial) fun _ t _ =>
      .modify (fun c x r hc => hc.modifyInstrs rfl fun _ l i hi hbinds => ?_) trivial
  refine ⟨i, mem_withoutExits hi ?_, hbinds⟩
  rw [hbinds.opcode]
  decide

theorem keepsBinders_finish (regions : List RegionId) :
    Moves KeepsBinders (finish regions) s fun _ _ => True := by
  refine Moves.andThen (Q := fun _ _ => True) (.modify (.of_instrs (instrs_refreshAll _)) trivial)
    fun _ t _ => .of_method (Moves.andThen (.each fun h _ u _ => ?_) fun _ u _ => ?_)
  · exact .of_method (.each fun b _ _ _ => keepsBinders_dropExits b)
  · refine .modify (.of_instrs fun b => ?_) trivial
    exact (instrs_refreshAll _ b).trans (instrs_detachMarked _ b)

end Phases

namespace Passage

variable {c : Config} {m : Method} (p : Passage c m) (hm : m.Fresh)
include hm

theorem bound_start : p.start.method.Bound p.start.method.graph.live := by
  have hentry : ∀ h, (p.start.method.handler h).entry = none := by
    intro h
    rw [p.start_method]
    exact hm.entry h
  refine ⟨fun h hh => ?_, fun h hcaptures => ?_⟩
  · rw [hentry] at hh
    cases hh
  · have hsome := hcaptures.isSome_entry
    rw [hentry] at hsome
    cases hsome

theorem bound_grouped : p.grouped.method.Bound [] := by
  have wf := (p.sound_start hm).method.wellFormed
  exact bound_of_regroups (p.regroups hm)
    ((bound_setUpEntries wf (p.bound_start hm)).ok p.enters).2

theorem code_grouped (b : BlockId) : p.grouped.method.graph.code b = m.graph.code b := by
  have wf := (p.sound_start hm).method.wellFormed
  have entered := Carried.of_enters wf ((enters_setUpEntries wf).ok p.enters).1
  have grouped := Carried.of_regroups (entered.wellFormed wf) (p.regroups hm)
  rw [grouped.code, entered.code, p.start_method]
  exact (code_promoteAll _ b).trans (code_of_instrs (instrs_refreshAll _ b))

theorem keepsBinders_final : KeepsBinders p.grouped p.final := by
  have wf := (p.grouping hm).sound.method.wellFormed
  exact IsTrans.trans _ _ _ ((keepsBinders_wire wf c.limitFactor p.regions).ok p.wires).1
    ((keepsBinders_finish p.regions).ok p.finishes).1

end Passage

/-- After a recovery that succeeds each handler of the method has a variable of the handler's class.
If it is a register, then the handler declares it, and it is the result of an instruction that binds
the caught value and keeps its result in a variable. It is one if the handler starts in a block of
the method that ends by binding the caught value to a register. -/
theorem process_binds_typed (c : Config) {m : Method} (hm : m.Fresh) {handled : Bool}
    (hok : (process c m).result = .ok handled) :
    ∀ h ∈ (process c m).method.registered,
      ∃ a, ((process c m).method.handler h).arg = some a ∧
        a.type = ((process c m).method.handler h).argType ∧
        (∀ r, a = .register r → r.flags.customDeclare = true ∧
          ∃ b, ∃ i ∈ (process c m).method.graph.instrs b,
            i.opcode = .moveException ∧ i.flags.dontInline = true ∧ i.result = some r) ∧
        ∀ e i, ((process c m).method.handler h).entry = some e →
          (m.graph.instrs e).getLast? = some i → i.opcode = .moveException →
          i.result.isSome = true → ∃ r, a = .register r := by
  intro h hh
  rcases passage_of_ok hok with ⟨hnone, hsame⟩ | ⟨⟨p⟩⟩
  · rw [hsame, hnone] at hh
    cases hh
  · rw [p.method] at hh ⊢
    have hwires := (p.wires_final hm).1
    rw [hwires.registered] at hh
    have hgrouped := p.bound_grouped hm
    have hfinal : p.final.method.HasVariable [] h := by
      refine (hgrouped.typed h ((p.grouping hm).hasEntry h hh)).kept (by rw [hwires.handler]) ?_
      exact fun b hb r hbinds => ⟨hb, p.keepsBinders_final hm b h r hbinds⟩
    obtain ⟨a, ha, htype, hregister⟩ := hfinal
    refine ⟨a, ha, htype, fun r hr => ?_, fun e i he hlast hopcode hresult => ?_⟩
    · obtain ⟨hdeclared, b, -, i, hi, hbinds⟩ := hregister r hr
      exact ⟨hdeclared, b, i, hi, hbinds.opcode, hbinds.dontInline, hbinds.result⟩
    · rw [hwires.handler] at he ha
      have hcaptures : p.grouped.method.Captures h := by
        refine ⟨e, i.bare, he, ?_, hopcode, ?_⟩
        · rw [p.code_grouped hm, code_eq_map, List.getLast?_map, hlast]
          rfl
        · rwa [Instr.bare, Option.isSome_map]
      obtain ⟨r, hr⟩ := hgrouped.register h hcaptures
      exact ⟨r, Option.some.inj (ha.symm.trans hr)⟩

/-- The clauses at blocks 3 and 4 become one. Control also reaches block 6 from block 5, so its
handler gets an entry of its own. -/
def mergedClauses : Method where
  name := "m"
  graph :=
    { blocks := #[
        { offset := 0, succs := [1] },
        { offset := 2, instrs := [{ opcode := .invoke, offset := 2, catches := some ⟨[0, 1]⟩ }],
          preds := [0], succs := [2, 3, 4] },
        { offset := 4, instrs := [{ opcode := .invoke, offset := 4, catches := some ⟨[2]⟩ }],
          preds := [1], succs := [6] },
        { offset := 6, instrs := [
            { opcode := .moveException, offset := 6, result := some { index := 0 },
              entry := some 0 }],
          preds := [1], succs := [5], tmpEdge := some 1 },
        { offset := 8, instrs := [
            { opcode := .moveException, offset := 8, result := some { index := 0 },
              entry := some 1 }],
          preds := [1], succs := [5], tmpEdge := some 1 },
        { offset := 10, preds := [3, 4], succs := [6] },
        { offset := 12, instrs := [
            { opcode := .moveException, offset := 12, result := some { index := 1 },
              entry := some 2 }],
          preds := [2, 5], tmpEdge := some 2 }]
      live := [0, 1, 2, 3, 4, 5, 6] }
  enter := some 0
  handlers := #[{ number := 0, offset := 6, types := ["A"] },
    { number := 1, offset := 8, types := ["B"] }, { number := 2, offset := 12, types := ["C"] }]
  registered := [0, 1, 2]

/-- The clause that two became has their common class in its variable and in the instruction; the
other one keeps its own. -/
theorem process_binds_typed_mergedClauses :
    mergedClauses.Fresh ∧ (process {} mergedClauses).result = .ok true ∧
      (process {} mergedClauses).method.registered = [0, 2] ∧
      ((process {} mergedClauses).method.handler 0).types = ["A", "B"] ∧
      (∃ r, ((process {} mergedClauses).method.handler 0).arg = some (.register r) ∧
        r.type = throwable ∧ r.flags.customDeclare = true ∧
        ∃ b, ∃ i ∈ (process {} mergedClauses).method.graph.instrs b,
          i.opcode = .moveException ∧ i.flags.dontInline = true ∧ i.result = some r) ∧
      ((process {} mergedClauses).method.handler 2).entry = some 7 ∧
      ∃ r, ((process {} mergedClauses).method.handler 2).arg = some (.register r) ∧
        r.type = "C" ∧ r.flags.customDeclare = true ∧
        ∃ b, ∃ i ∈ (process {} mergedClauses).method.graph.instrs b,
          i.opcode = .moveException ∧ i.flags.dontInline = true ∧ i.result = some r := by
  have hm : mergedClauses.Fresh := by decide +kernel
  have hok : (process {} mergedClauses).result = .ok true := by decide +kernel
  have hregistered : (process {} mergedClauses).method.registered = [0, 2] := by decide +kernel
  have hbinds := process_binds_typed {} hm hok
  rw [hregistered] at hbinds
  refine ⟨hm, hok, hregistered, by decide +kernel, ?_, by decide +kernel, ?_⟩
  · obtain ⟨a, ha, htype, hregister, hstarts⟩ := hbinds 0 (by decide)
    obtain ⟨r, rfl⟩ := hstarts 3 _ (by decide +kernel) rfl rfl rfl
    refine ⟨r, ha, htype.trans ?_, hregister r rfl⟩
    decide +kernel
  · have harg : ((process {} mergedClauses).method.handler 2).arg = some (.register
        { index := 1, type := "C", flags := { customDeclare := true } }) := by decide +kernel
    obtain ⟨a, ha, -, hregister, -⟩ := hbinds 2 (by decide)
    exact ⟨_, harg, rfl, hregister _ (Option.some.inj (ha.symm.trans harg))⟩

end Recovery

end TryRegions
