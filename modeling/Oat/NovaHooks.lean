import Oat.ListWalk
import Oat.NovaState

/-!
# The def-use hooks: step 3 of `DefUseCheck`

The pass walks the use list of each sensitive variable and puts a call in
front of the stores and behind the loads it finds. What a hook inserts
(the casts and the call) is one item here, kept with the instruction it
is inserted at: `before` is in front of it, `after` behind it.

A new use is put in at the head of the use list, also while the list is
walked; the casts of the hooks are uses of the variable, so that this
happens at each hook. `tracked_iff` says for which types the hooks are
made.
-/

namespace Oat

namespace Nova

/-! ## Code with hooks -/

inductive Cast where
  | ptrToInt
  | zExt
  | none
deriving Repr, DecidableEq

/-- `ptrToInt` is a cast left behind without a call. -/
inductive Hook where
  | recordDefEvt (addr : Value) (cast : Cast) (val : Value)
  | checkUseEvt (addr : Value) (cast : Cast) (val : Value)
  | ptrToInt (addr : Value)
deriving Repr, DecidableEq

/-- What the hooks are about. `type` is the type of the value stored or
loaded. -/
inductive Op where
  | store (type : Ty) (val ptr : Value)
  | load (type : Ty) (ptr : Value)
  | other (operands : List Value)
deriving Repr

def Op.operands : Op → List Value
  | .store _ val ptr => [val, ptr]
  | .load _ ptr => [ptr]
  | .other operands => operands

/-- An entry of a use list: the user is an instruction of the module, or
something else (a constant, or a cast or call of a hook). -/
inductive User where
  | inst (self : Value)
  | other
deriving Repr, DecidableEq

/-- A module as the hooks see it: its instructions and its use lists, the
head first. -/
structure Program where
  insts : List (Value × Op)
  uses : Value → List User
  nodup : (insts.map Prod.fst).Nodup
  uses_iff : ∀ v i, User.inst i ∈ uses v ↔ ∃ op, (i, op) ∈ insts ∧ v ∈ op.operands

structure Slot where
  self : Value
  op : Op
  before : List Hook
  after : List Hook
deriving Repr

structure Code where
  slots : List Slot
  uses : Value → List User

def Program.code (p : Program) : Code := ⟨p.insts.map fun i => ⟨i.1, i.2, [], []⟩, p.uses⟩

namespace Code

def slot? (c : Code) (i : Value) : Option Slot := c.slots.find? fun s => s.self = i

def modify (c : Code) (i : Value) (f : Slot → Slot) : Code :=
  { c with slots := c.slots.map fun s => if s.self = i then f s else s }

/-- A new use, at the head of the list. -/
def use (c : Code) (v : Value) : Code :=
  { c with uses := fun w => if w = v then .other :: c.uses w else c.uses w }

end Code

/-! ## The hooks -/

/-- What the type of a value is cast to `i64` with. A wider integer makes
the constructor of the `zext` fail its assertion. -/
inductive CastResult where
  | cast (cast : Cast)
  | unhandled
  | illegal
deriving Repr, DecidableEq

def castVal : Ty → CastResult
  | .ptr _ => .cast .ptrToInt
  | .int width =>
      if width = 64 then .cast .none else if width < 64 then .cast .zExt else .illegal
  | _ => .unhandled

/-- The call goes between the instruction and what is in front of it. -/
def instrumentStoreInst (inst : Value) (type : Ty) (addr val : Value) (c : Code) : Option Code :=
  let c := c.use addr
  match castVal type with
  | .cast cast =>
      some ((c.use val).modify inst fun s =>
        { s with before := s.before ++ [.recordDefEvt addr cast val] })
  | .unhandled => some (c.modify inst fun s => { s with before := s.before ++ [.ptrToInt addr] })
  | .illegal => none

/-- The call goes right behind the load. The placeholder it is inserted at
is removed again, except when the type is not handled. -/
def instrumentLoadInst (inst : Value) (type : Ty) (addr : Value) (c : Code) : Option Code :=
  let c := c.use addr
  match castVal type with
  | .cast cast =>
      some ((c.use inst).modify inst fun s =>
        { s with after := .checkUseEvt addr cast inst :: s.after })
  | .unhandled =>
      some ((c.use addr).modify inst fun s =>
        { s with after := .ptrToInt addr :: .ptrToInt addr :: s.after })
  | .illegal => none

/-- A user of a load: a store through the loaded pointer. -/
def recordThrough (load : Value) (user : User) (c : Code) : Option Code :=
  match user with
  | .inst i =>
      match (c.slot? i).map Slot.op with
      | some (.store type val op) =>
          if op = load then instrumentStoreInst i type op val c else some c
      | _ => some c
  | .other => some c

def recordUser (var : Value) (user : User) (c : Code) : Option Code :=
  match user with
  | .inst i =>
      match (c.slot? i).map Slot.op with
      | some (.store type val op) =>
          if op = var then instrumentStoreInst i type op val c else some c
      | some (.load _ _) => forEach (fun c : Code => c.uses i) (recordThrough i) c
      | _ => some c
  | .other => some c

def recordDefineEvent (var : Value) (c : Code) : Option Code :=
  forEach (fun c : Code => c.uses var) (recordUser var) c

def checkUser (var : Value) (user : User) (c : Code) : Option Code :=
  match user with
  | .inst i =>
      match (c.slot? i).map Slot.op with
      | some (.load type op) =>
          if op = var then instrumentLoadInst i type op c else some c
      | _ => some c
  | .other => some c

def checkUseEvent (var : Value) (c : Code) : Option Code :=
  forEach (fun c : Code => c.uses var) (checkUser var) c

/-- Step 3, over the sensitive variables in their order. -/
def instrument (p : Program) (sen : List Value) : Option Code :=
  sen.foldlM (fun c v => (recordDefineEvent v c).bind (checkUseEvent v)) p.code

/-! ## What the hooks send -/

inductive Event where
  | def_ (addr val : BitVec 64)
  | use (addr val : BitVec 64)
deriving Repr, DecidableEq

abbrev Env := Value → Nat

/-- A pointer as an `i64`. -/
def Env.addr (env : Env) (v : Value) : BitVec 64 := BitVec.ofNat 64 (env v)

/-- The 64-bit image of a value: each of the casts takes its bits as they
are. -/
def image (bits : Nat) : BitVec 64 := BitVec.ofNat 64 bits

def Hook.event (env : Env) : Hook → Option Event
  | .recordDefEvt addr _ val => some (.def_ (env.addr addr) (image (env val)))
  | .checkUseEvt addr _ val => some (.use (env.addr addr) (image (env val)))
  | .ptrToInt _ => none

/-! ## What the pass keeps -/

/-- Code with more hooks and more uses by them. -/
structure Extends (c c' : Code) : Prop where
  selves : c'.slots.map Slot.self = c.slots.map Slot.self
  slot : ∀ i, match c.slot? i with
    | some s => ∃ s', c'.slot? i = some s' ∧ s'.op = s.op ∧
        (∀ h ∈ s.before, h ∈ s'.before) ∧ ∀ h ∈ s.after, h ∈ s'.after
    | none => c'.slot? i = none
  uses : ∀ v, ∃ k, c'.uses v = List.replicate k .other ++ c.uses v

namespace Extends

theorem refl (c : Code) : Extends c c := by
  refine ⟨rfl, fun i => ?_, fun v => ⟨0, rfl⟩⟩
  cases hs : c.slot? i with
  | none => rfl
  | some s => exact ⟨s, rfl, rfl, fun _ h => h, fun _ h => h⟩

theorem trans {a b c : Code} (h₁ : Extends a b) (h₂ : Extends b c) : Extends a c := by
  refine ⟨h₂.selves.trans h₁.selves, fun i => ?_, fun v => ?_⟩
  · have hab := h₁.slot i
    have hbc := h₂.slot i
    cases ha : a.slot? i with
    | none =>
        rw [ha] at hab
        rw [hab] at hbc
        exact hbc
    | some s =>
        rw [ha] at hab
        obtain ⟨s₁, hs₁, hop₁, hbefore₁, hafter₁⟩ := hab
        rw [hs₁] at hbc
        obtain ⟨s₂, hs₂, hop₂, hbefore₂, hafter₂⟩ := hbc
        exact ⟨s₂, hs₂, hop₂.trans hop₁, fun h hh => hbefore₂ h (hbefore₁ h hh),
          fun h hh => hafter₂ h (hafter₁ h hh)⟩
  · obtain ⟨k₁, hk₁⟩ := h₁.uses v
    obtain ⟨k₂, hk₂⟩ := h₂.uses v
    exact ⟨k₂ + k₁, by rw [hk₂, hk₁, List.replicate_add, List.append_assoc]⟩

theorem op {c c' : Code} (h : Extends c c') (i : Value) :
    (c'.slot? i).map Slot.op = (c.slot? i).map Slot.op := by
  have hs := h.slot i
  cases hc : c.slot? i with
  | none =>
      rw [hc] at hs
      simp [hs]
  | some s =>
      rw [hc] at hs
      obtain ⟨s', hs', hop, -⟩ := hs
      simp [hs', hop]

theorem suffix {c c' : Code} (h : Extends c c') (v : Value) : c.uses v <:+ c'.uses v := by
  obtain ⟨k, hk⟩ := h.uses v
  exact ⟨_, hk.symm⟩

theorem mem_uses {c c' : Code} (h : Extends c c') {v i : Value} :
    User.inst i ∈ c'.uses v ↔ User.inst i ∈ c.uses v := by
  obtain ⟨k, hk⟩ := h.uses v
  rw [hk, List.mem_append]
  constructor
  · rintro (hr | hm)
    · cases List.eq_of_mem_replicate hr
    · exact hm
  · exact Or.inr

theorem mem_before {c c' : Code} (h : Extends c c') {i : Value} {s : Slot} {k : Hook}
    (hs : c.slot? i = some s) (hk : k ∈ s.before) :
    ∃ s', c'.slot? i = some s' ∧ k ∈ s'.before := by
  have hslot := h.slot i
  rw [hs] at hslot
  obtain ⟨s', hs', -, hbefore, -⟩ := hslot
  exact ⟨s', hs', hbefore k hk⟩

theorem mem_after {c c' : Code} (h : Extends c c') {i : Value} {s : Slot} {k : Hook}
    (hs : c.slot? i = some s) (hk : k ∈ s.after) :
    ∃ s', c'.slot? i = some s' ∧ k ∈ s'.after := by
  have hslot := h.slot i
  rw [hs] at hslot
  obtain ⟨s', hs', -, -, hafter⟩ := hslot
  exact ⟨s', hs', hafter k hk⟩

end Extends

theorem Code.slot?_self {c : Code} {i : Value} {s : Slot} (h : c.slot? i = some s) : s.self = i := by
  simpa using List.find?_some h

theorem Code.slot?_modify {c : Code} {i : Value} {f : Slot → Slot} (hf : ∀ s, (f s).self = s.self)
    (j : Value) : (c.modify i f).slot? j = (c.slot? j).map fun s => if j = i then f s else s := by
  have hself : ∀ s : Slot, (if s.self = i then f s else s).self = s.self := by
    intro s
    split
    · exact hf s
    · rfl
  simp only [Code.modify, Code.slot?, List.find?_map, Function.comp_def, hself]
  cases hs : c.slots.find? fun s => decide (s.self = j) with
  | none => rfl
  | some s =>
      have hj : s.self = j := by simpa using List.find?_some hs
      simp [hj]

theorem extends_use (c : Code) (v : Value) : Extends c (c.use v) := by
  have h := Extends.refl c
  refine ⟨rfl, h.slot, fun w => ?_⟩
  by_cases hw : w = v
  · exact ⟨1, by simp [Code.use, hw]⟩
  · exact ⟨0, by simp [Code.use, hw]⟩

theorem extends_modify (c : Code) (i : Value) {f : Slot → Slot}
    (hf : ∀ s, (f s).self = s.self ∧ (f s).op = s.op ∧ (∀ h ∈ s.before, h ∈ (f s).before) ∧
      ∀ h ∈ s.after, h ∈ (f s).after) : Extends c (c.modify i f) := by
  refine ⟨?_, fun j => ?_, fun v => ⟨0, rfl⟩⟩
  · simp only [Code.modify, List.map_map]
    apply List.map_congr_left
    intro s _
    simp only [Function.comp_apply]
    split
    · exact (hf s).1
    · rfl
  · rw [Code.slot?_modify fun s => (hf s).1]
    cases c.slot? j with
    | none => rfl
    | some s =>
        refine ⟨_, rfl, ?_⟩
        dsimp only
        split
        · exact (hf s).2
        · exact ⟨rfl, fun _ h => h, fun _ h => h⟩

/-- A hook says nothing but what its instruction does. -/
def BeforeOk (s : Slot) (h : Hook) : Prop :=
  (∃ addr, h = .ptrToInt addr) ∨ ∃ type val ptr cast, s.op = .store type val ptr ∧
    castVal type = .cast cast ∧ h = .recordDefEvt ptr cast val

def AfterOk (sen : List Value) (s : Slot) (h : Hook) : Prop :=
  (∃ addr, h = .ptrToInt addr) ∨ ∃ type ptr cast, s.op = .load type ptr ∧ ptr ∈ sen ∧
    castVal type = .cast cast ∧ h = .checkUseEvt ptr cast s.self

def HooksOk (sen : List Value) (c : Code) : Prop :=
  ∀ i s, c.slot? i = some s → (∀ h ∈ s.before, BeforeOk s h) ∧ ∀ h ∈ s.after, AfterOk sen s h

theorem hooksOk_modify {sen : List Value} {c : Code} {i : Value} {f : Slot → Slot}
    (hc : HooksOk sen c) (hself : ∀ s, (f s).self = s.self)
    (hf : ∀ s, c.slot? i = some s → (∀ h ∈ (f s).before, BeforeOk (f s) h) ∧
      ∀ h ∈ (f s).after, AfterOk sen (f s) h) : HooksOk sen (c.modify i f) := by
  intro j s hs
  rw [Code.slot?_modify hself] at hs
  obtain ⟨s₀, hs₀, rfl⟩ := Option.map_eq_some_iff.mp hs
  split
  · rename_i hj
    subst hj
    exact hf s₀ hs₀
  · exact hc j s₀ hs₀

section Store

variable {c c' : Code} {inst addr val : Value} {type : Ty}

theorem instrumentStoreInst_none :
    instrumentStoreInst inst type addr val c = none ↔ castVal type = .illegal := by
  unfold instrumentStoreInst
  cases castVal type <;> simp

theorem instrumentStoreInst_extends (h : instrumentStoreInst inst type addr val c = some c') :
    Extends c c' := by
  unfold instrumentStoreInst at h
  dsimp only at h
  have huse := extends_use c addr
  split at h
  · cases h
    refine (huse.trans (extends_use _ val)).trans (extends_modify _ _ fun s => ⟨rfl, rfl, ?_, ?_⟩)
    · exact fun k hk => List.mem_append_left _ hk
    · exact fun k hk => hk
  · cases h
    refine huse.trans (extends_modify _ _ fun s => ⟨rfl, rfl, ?_, ?_⟩)
    · exact fun k hk => List.mem_append_left _ hk
    · exact fun k hk => hk
  · cases h

theorem instrumentStoreInst_hooksOk {sen : List Value} (hc : HooksOk sen c)
    (hop : (c.slot? inst).map Slot.op = some (.store type val addr))
    (h : instrumentStoreInst inst type addr val c = some c') : HooksOk sen c' := by
  have hold : ∀ s, c.slot? inst = some s → s.op = .store type val addr := by
    intro s hs
    simpa [hs] using hop
  unfold instrumentStoreInst at h
  dsimp only at h
  split at h
  · rename_i cast hcast
    cases h
    refine hooksOk_modify hc (fun _ => rfl) fun s hs => ⟨fun k hk => ?_, (hc inst s hs).2⟩
    rcases List.mem_append.mp hk with hk | hk
    · exact (hc inst s hs).1 k hk
    · obtain rfl := List.mem_singleton.mp hk
      exact .inr ⟨type, val, addr, cast, hold s hs, hcast, rfl⟩
  · cases h
    refine hooksOk_modify hc (fun _ => rfl) fun s hs => ⟨fun k hk => ?_, (hc inst s hs).2⟩
    rcases List.mem_append.mp hk with hk | hk
    · exact (hc inst s hs).1 k hk
    · obtain rfl := List.mem_singleton.mp hk
      exact .inl ⟨addr, rfl⟩
  · cases h

theorem instrumentStoreInst_hook {cast : Cast} (hcast : castVal type = .cast cast) {op : Op}
    (hop : (c.slot? inst).map Slot.op = some op)
    (h : instrumentStoreInst inst type addr val c = some c') :
    ∃ s, c'.slot? inst = some s ∧ Hook.recordDefEvt addr cast val ∈ s.before := by
  obtain ⟨s, hs, -⟩ := Option.map_eq_some_iff.mp hop
  unfold instrumentStoreInst at h
  simp only [hcast, Option.some.injEq] at h
  subst h
  refine ⟨_, (Code.slot?_modify (by exact fun _ => rfl) inst).trans (congrArg _ hs), ?_⟩
  simp

end Store

section Load

variable {c c' : Code} {inst addr : Value} {type : Ty}

theorem instrumentLoadInst_none :
    instrumentLoadInst inst type addr c = none ↔ castVal type = .illegal := by
  unfold instrumentLoadInst
  cases castVal type <;> simp

theorem instrumentLoadInst_extends (h : instrumentLoadInst inst type addr c = some c') :
    Extends c c' := by
  unfold instrumentLoadInst at h
  dsimp only at h
  have huse := extends_use c addr
  split at h
  · cases h
    refine (huse.trans (extends_use _ inst)).trans (extends_modify _ _ fun s => ⟨rfl, rfl, ?_, ?_⟩)
    · exact fun k hk => hk
    · exact fun k hk => List.mem_cons_of_mem _ hk
  · cases h
    refine (huse.trans (extends_use _ addr)).trans (extends_modify _ _ fun s => ⟨rfl, rfl, ?_, ?_⟩)
    · exact fun k hk => hk
    · exact fun k hk => List.mem_cons_of_mem _ (List.mem_cons_of_mem _ hk)
  · cases h

theorem instrumentLoadInst_hooksOk {sen : List Value} (hc : HooksOk sen c) (haddr : addr ∈ sen)
    (hop : (c.slot? inst).map Slot.op = some (.load type addr))
    (h : instrumentLoadInst inst type addr c = some c') : HooksOk sen c' := by
  have hold : ∀ s, c.slot? inst = some s → s.op = .load type addr := by
    intro s hs
    simpa [hs] using hop
  unfold instrumentLoadInst at h
  dsimp only at h
  split at h
  · rename_i cast hcast
    cases h
    refine hooksOk_modify hc (fun _ => rfl) fun s hs => ⟨(hc inst s hs).1, fun k hk => ?_⟩
    rcases List.mem_cons.mp hk with rfl | hk
    · exact .inr ⟨type, addr, cast, hold s hs, haddr, hcast, by rw [← Code.slot?_self hs]⟩
    · exact (hc inst s hs).2 k hk
  · cases h
    refine hooksOk_modify hc (fun _ => rfl) fun s hs => ⟨(hc inst s hs).1, fun k hk => ?_⟩
    simp only [List.mem_cons] at hk
    rcases hk with rfl | rfl | hk
    · exact .inl ⟨addr, rfl⟩
    · exact .inl ⟨addr, rfl⟩
    · exact (hc inst s hs).2 k hk
  · cases h

theorem instrumentLoadInst_hook {cast : Cast} (hcast : castVal type = .cast cast) {op : Op}
    (hop : (c.slot? inst).map Slot.op = some op)
    (h : instrumentLoadInst inst type addr c = some c') :
    ∃ s, c'.slot? inst = some s ∧ Hook.checkUseEvt addr cast inst ∈ s.after := by
  obtain ⟨s, hs, -⟩ := Option.map_eq_some_iff.mp hop
  unfold instrumentLoadInst at h
  simp only [hcast, Option.some.injEq] at h
  subst h
  refine ⟨_, (Code.slot?_modify (by exact fun _ => rfl) inst).trans (congrArg _ hs), ?_⟩
  simp

end Load

/-! ## The loops -/

theorem recordThrough_extends {load : Value} (user : User) (c c' : Code)
    (h : recordThrough load user c = some c') : Extends c c' := by
  unfold recordThrough at h
  split at h
  · split at h
    · split at h
      · exact instrumentStoreInst_extends h
      · cases h
        exact .refl c
    · cases h
      exact .refl c
  · cases h
    exact .refl c

theorem forEach_uses_extends {v : Value} {body : User → Code → Option Code}
    (hbody : ∀ user c c', body user c = some c' → Extends c c') {c c' : Code}
    (h : forEach (fun c : Code => c.uses v) body c = some c') : Extends c c' :=
  walk_mono Extends.refl (fun _ _ _ => Extends.trans) hbody _ _ _ h

/-- The rule for a walk over a use list: each user has its turn, and what
is there then is the code from before with more hooks. -/
theorem forEach_uses_visits {v : Value} {body : User → Code → Option Code}
    (hbody : ∀ user c c', body user c = some c' → Extends c c') {c c' : Code}
    (h : forEach (fun c : Code => c.uses v) body c = some c') {user : User}
    (hu : user ∈ c.uses v) :
    ∃ c₁ c₂, Extends c c₁ ∧ body user c₁ = some c₂ ∧ Extends c₂ c' :=
  forEach_visits Extends.refl (fun _ _ _ => Extends.trans) (fun _ _ h => h.suffix v) hbody h hu

theorem forEach_uses_fails {v : Value} {body : User → Code → Option Code}
    (hbody : ∀ user c c', body user c = some c' → Extends c c') {c : Code}
    (h : forEach (fun c : Code => c.uses v) body c = none) :
    ∃ user ∈ c.uses v, ∃ c₁, Extends c c₁ ∧ body user c₁ = none :=
  forEach_fails Extends.refl (fun _ _ _ => Extends.trans) (fun _ _ h => h.suffix v) hbody h

theorem recordUser_extends {var : Value} (user : User) (c c' : Code)
    (h : recordUser var user c = some c') : Extends c c' := by
  unfold recordUser at h
  split at h
  · split at h
    · split at h
      · exact instrumentStoreInst_extends h
      · cases h
        exact .refl c
    · exact forEach_uses_extends recordThrough_extends h
    · cases h
      exact .refl c
  · cases h
    exact .refl c

theorem checkUser_extends {var : Value} (user : User) (c c' : Code)
    (h : checkUser var user c = some c') : Extends c c' := by
  unfold checkUser at h
  split at h
  · split at h
    · split at h
      · exact instrumentLoadInst_extends h
      · cases h
        exact .refl c
    · cases h
      exact .refl c
  · cases h
    exact .refl c

section HooksOk

variable {sen : List Value}

theorem recordThrough_hooksOk {load : Value} (user : User) (c c' : Code) (hc : HooksOk sen c)
    (h : recordThrough load user c = some c') : HooksOk sen c' := by
  unfold recordThrough at h
  split at h
  · split at h
    · rename_i hop
      split at h
      · exact instrumentStoreInst_hooksOk hc hop h
      · cases h
        exact hc
    · cases h
      exact hc
  · cases h
    exact hc

theorem recordUser_hooksOk {var : Value} (user : User) (c c' : Code) (hc : HooksOk sen c)
    (h : recordUser var user c = some c') : HooksOk sen c' := by
  unfold recordUser at h
  split at h
  · split at h
    · rename_i hop
      split at h
      · exact instrumentStoreInst_hooksOk hc hop h
      · cases h
        exact hc
    · exact forEach_inv recordThrough_hooksOk hc h
    · cases h
      exact hc
  · cases h
    exact hc

theorem checkUser_hooksOk {var : Value} (hvar : var ∈ sen) (user : User) (c c' : Code)
    (hc : HooksOk sen c) (h : checkUser var user c = some c') : HooksOk sen c' := by
  unfold checkUser at h
  split at h
  · split at h
    · rename_i hop
      split at h
      · rename_i heq
        exact instrumentLoadInst_hooksOk hc (heq ▸ hvar) hop h
      · cases h
        exact hc
    · cases h
      exact hc
  · cases h
    exact hc

end HooksOk

/-- One variable. -/
def hookVar (c : Code) (v : Value) : Option Code := (recordDefineEvent v c).bind (checkUseEvent v)

theorem hookVar_extends {c c' : Code} {v : Value} (h : hookVar c v = some c') : Extends c c' := by
  obtain ⟨c₁, h₁, h₂⟩ := Option.bind_eq_some_iff.mp h
  exact (forEach_uses_extends recordUser_extends h₁).trans
    (forEach_uses_extends checkUser_extends h₂)

theorem hookVar_hooksOk {sen : List Value} {c c' : Code} {v : Value} (hv : v ∈ sen)
    (hc : HooksOk sen c) (h : hookVar c v = some c') : HooksOk sen c' := by
  obtain ⟨c₁, h₁, h₂⟩ := Option.bind_eq_some_iff.mp h
  exact forEach_inv (checkUser_hooksOk hv) (forEach_inv recordUser_hooksOk hc h₁) h₂

/-- All variables: each has its turn. -/
theorem hookVars_spec (sen l : List Value) (hl : ∀ v ∈ l, v ∈ sen) (c c' : Code)
    (hc : HooksOk sen c) (h : l.foldlM hookVar c = some c') :
    Extends c c' ∧ HooksOk sen c' ∧
      ∀ v ∈ l, ∃ c₁ c₂, Extends c c₁ ∧ hookVar c₁ v = some c₂ ∧ Extends c₂ c' := by
  induction l generalizing c with
  | nil =>
      cases h
      exact ⟨.refl _, hc, (fun v hv => nomatch hv)⟩
  | cons v l ih =>
      rw [List.foldlM_cons] at h
      obtain ⟨c₁, h₁, h₂⟩ := Option.bind_eq_some_iff.mp h
      have hext := hookVar_extends h₁
      obtain ⟨hrest, hok, hall⟩ := ih (fun w hw => hl w (List.mem_cons_of_mem _ hw)) c₁
        (hookVar_hooksOk (hl v (List.mem_cons_self ..)) hc h₁) h₂
      refine ⟨hext.trans hrest, hok, fun w hw => ?_⟩
      rcases List.mem_cons.mp hw with rfl | hw
      · exact ⟨c, c₁, .refl c, h₁, hrest⟩
      · obtain ⟨a, b, ha, hab, hb⟩ := hall w hw
        exact ⟨a, b, hext.trans ha, hab, hb⟩

theorem hookVars_fails (l : List Value) (c : Code) (h : l.foldlM hookVar c = none) :
    ∃ v ∈ l, ∃ c₁, Extends c c₁ ∧ hookVar c₁ v = none := by
  induction l generalizing c with
  | nil => cases h
  | cons v l ih =>
      rw [List.foldlM_cons] at h
      cases h₁ : hookVar c v with
      | none => exact ⟨v, List.mem_cons_self .., c, .refl c, h₁⟩
      | some c₁ =>
          rw [h₁] at h
          obtain ⟨w, hw, c₂, hc₂, hnone⟩ := ih c₁ h
          exact ⟨w, List.mem_cons_of_mem _ hw, c₂, (hookVar_extends h₁).trans hc₂, hnone⟩

/-! ## Which types are tracked -/

section Program

variable {p : Program} {c c' : Code} {i v : Value}

theorem Program.op_code {op : Op} : (p.code.slot? i).map Slot.op = some op ↔ (i, op) ∈ p.insts := by
  have hfind : p.code.slot? i = (p.insts.find? fun x => x.1 = i).map fun x => ⟨x.1, x.2, [], []⟩ := by
    simp only [Code.slot?, Program.code, List.find?_map]
    rfl
  rw [hfind]
  constructor
  · intro h
    obtain ⟨s, hs, rfl⟩ := Option.map_eq_some_iff.mp h
    obtain ⟨x, hx, rfl⟩ := Option.map_eq_some_iff.mp hs
    obtain rfl : x.1 = i := by simpa using List.find?_some hx
    exact List.mem_of_find?_eq_some hx
  · intro h
    have hx : p.insts.find? (fun x => x.1 = i) = some (i, op) := find?_of_nodup p.nodup h
    simp [hx]

theorem Program.hooksOk (sen : List Value) : HooksOk sen p.code := by
  intro i s hs
  have hmem := List.mem_of_find?_eq_some hs
  obtain ⟨x, -, rfl⟩ := List.mem_map.mp hmem
  exact ⟨(fun _ h => nomatch h), (fun _ h => nomatch h)⟩

theorem op_of_mem (hc : Extends p.code c) {op : Op} (h : (i, op) ∈ p.insts) :
    (c.slot? i).map Slot.op = some op :=
  (hc.op i).trans (Program.op_code.mpr h)

theorem mem_of_op (hc : Extends p.code c) {op : Op} (h : (c.slot? i).map Slot.op = some op) :
    (i, op) ∈ p.insts :=
  Program.op_code.mp ((hc.op i).symm.trans h)

theorem mem_uses_of_mem (hc : Extends p.code c) {op : Op} (h : (i, op) ∈ p.insts)
    (hv : v ∈ op.operands) : User.inst i ∈ c.uses v :=
  hc.mem_uses.mpr ((p.uses_iff v i).mpr ⟨op, h, hv⟩)

/-- An instruction in a use list has the value as an operand. -/
theorem operand_of_mem_uses (hc : Extends p.code c) {op : Op} (hu : User.inst i ∈ c.uses v)
    (hop : (c.slot? i).map Slot.op = some op) : v ∈ op.operands := by
  obtain ⟨op', h', hv⟩ := (p.uses_iff v i).mp (hc.mem_uses.mp hu)
  have heq : some op' = some op := (op_of_mem hc h').symm.trans hop
  obtain rfl := Option.some.inj heq
  exact hv

theorem store_hooked (hc : Extends p.code c) {type : Ty} {val : Value} {cast : Cast}
    (hi : (i, .store type val v) ∈ p.insts) (hcast : castVal type = .cast cast)
    (h : hookVar c v = some c') :
    ∃ s, c'.slot? i = some s ∧ Hook.recordDefEvt v cast val ∈ s.before := by
  obtain ⟨c₁, h₁, h₂⟩ := Option.bind_eq_some_iff.mp h
  have hu : User.inst i ∈ c.uses v := mem_uses_of_mem hc hi (by simp [Op.operands])
  obtain ⟨a, b, ha, hab, hb⟩ := forEach_uses_visits recordUser_extends h₁ hu
  have hop := op_of_mem (hc.trans ha) hi
  simp only [recordUser, hop, if_true] at hab
  obtain ⟨s, hs, hk⟩ := instrumentStoreInst_hook hcast hop hab
  exact (hb.trans (forEach_uses_extends checkUser_extends h₂)).mem_before hs hk

theorem load_hooked (hc : Extends p.code c) {type : Ty} {cast : Cast}
    (hi : (i, .load type v) ∈ p.insts) (hcast : castVal type = .cast cast)
    (h : hookVar c v = some c') :
    ∃ s, c'.slot? i = some s ∧ Hook.checkUseEvt v cast i ∈ s.after := by
  obtain ⟨c₁, h₁, h₂⟩ := Option.bind_eq_some_iff.mp h
  have hc₁ := hc.trans (forEach_uses_extends recordUser_extends h₁)
  have hu : User.inst i ∈ c₁.uses v := mem_uses_of_mem hc₁ hi (by simp [Op.operands])
  obtain ⟨a, b, ha, hab, hb⟩ := forEach_uses_visits checkUser_extends h₂ hu
  have hop := op_of_mem (hc₁.trans ha) hi
  simp only [checkUser, hop, if_true] at hab
  obtain ⟨s, hs, hk⟩ := instrumentLoadInst_hook hcast hop hab
  exact hb.mem_after hs hk

def Handled (type : Ty) : Prop := ∃ cast, castVal type = .cast cast

/-- The types of what is stored and loaded at `v`, and of what is stored
through a pointer loaded from `v`. -/
structure HandledBy (p : Program) (v : Value) : Prop where
  stores : ∀ i type val, (i, .store type val v) ∈ p.insts → Handled type
  loads : ∀ i type, (i, .load type v) ∈ p.insts → Handled type
  through : ∀ i type, (i, .load type v) ∈ p.insts →
    ∀ j type' val, (j, .store type' val i) ∈ p.insts → castVal type' ≠ .illegal

theorem not_illegal_of_handled {type : Ty} (h : Handled type) : castVal type ≠ .illegal := by
  obtain ⟨cast, hcast⟩ := h
  simp [hcast]

theorem recordDefineEvent_ne_none (hc : Extends p.code c) (hv : HandledBy p v) :
    recordDefineEvent v c ≠ none := by
  intro h
  obtain ⟨user, hu, a, ha, hfail⟩ := forEach_uses_fails recordUser_extends h
  unfold recordUser at hfail
  split at hfail
  · rename_i j
    have hu' : User.inst j ∈ a.uses v := ha.mem_uses.mpr hu
    have hca := hc.trans ha
    split at hfail
    · rename_i type val op hop
      split at hfail
      · rename_i heq
        subst heq
        exact not_illegal_of_handled (hv.stores j type val (mem_of_op hca hop))
          (instrumentStoreInst_none.mp hfail)
      · cases hfail
    · rename_i type ptr hop
      have hptr : v = ptr := by
        simpa [Op.operands] using operand_of_mem_uses hca hu' hop
      subst hptr
      obtain ⟨user', -, b, hb, hfail'⟩ := forEach_uses_fails recordThrough_extends hfail
      unfold recordThrough at hfail'
      split at hfail'
      · split at hfail'
        · rename_i k type' val op' hop'
          split at hfail'
          · rename_i heq
            subst heq
            exact hv.through _ type (mem_of_op hca hop) _ type' val
              (mem_of_op (hca.trans hb) hop') (instrumentStoreInst_none.mp hfail')
          · cases hfail'
        · cases hfail'
      · cases hfail'
    · cases hfail
  · cases hfail

theorem checkUseEvent_ne_none (hc : Extends p.code c) (hv : HandledBy p v) :
    checkUseEvent v c ≠ none := by
  intro h
  obtain ⟨user, -, a, ha, hfail⟩ := forEach_uses_fails checkUser_extends h
  unfold checkUser at hfail
  split at hfail
  · split at hfail
    · rename_i type op hop
      split at hfail
      · rename_i heq
        subst heq
        exact not_illegal_of_handled (hv.loads _ type (mem_of_op (hc.trans ha) hop))
          (instrumentLoadInst_none.mp hfail)
      · cases hfail
    · cases hfail
  · cases hfail

theorem hookVar_ne_none (hc : Extends p.code c) (hv : HandledBy p v) : hookVar c v ≠ none := by
  intro h
  cases h₁ : recordDefineEvent v c with
  | none => exact recordDefineEvent_ne_none hc hv h₁
  | some c₁ =>
      have hc₁ := hc.trans (forEach_uses_extends recordUser_extends h₁)
      exact checkUseEvent_ne_none hc₁ hv (Option.bind_eq_none_iff.mp h c₁ h₁)

/-- A store through a loaded pointer has its turn too. -/
theorem through_legal (hc : Extends p.code c) (h : hookVar c v = some c') {type type' : Ty}
    {j val : Value} (hi : (i, .load type v) ∈ p.insts) (hj : (j, .store type' val i) ∈ p.insts) :
    castVal type' ≠ .illegal := by
  obtain ⟨c₁, h₁, -⟩ := Option.bind_eq_some_iff.mp h
  have hu : User.inst i ∈ c.uses v := mem_uses_of_mem hc hi (by simp [Op.operands])
  obtain ⟨a, b, ha, hab, -⟩ := forEach_uses_visits recordUser_extends h₁ hu
  have hca := hc.trans ha
  simp only [recordUser, op_of_mem hca hi] at hab
  have huj : User.inst j ∈ a.uses i := mem_uses_of_mem hca hj (by simp [Op.operands])
  obtain ⟨a', b', ha', hab', -⟩ := forEach_uses_visits recordThrough_extends hab huj
  simp only [recordThrough, op_of_mem (hca.trans ha') hj, if_true] at hab'
  intro hillegal
  rw [instrumentStoreInst_none.mpr hillegal] at hab'
  cases hab'

end Program

/-- Each store at a sensitive variable is preceded by the call for a
definition, each load followed by the call for a use, with the address
and the image of the value whatever these are. -/
def Tracked (c : Code) (sen : List Value) : Prop :=
  ∀ v ∈ sen, ∀ s ∈ c.slots,
    (∀ type val, s.op = .store type val v →
      ∃ h ∈ s.before, ∀ env : Env, h.event env = some (.def_ (env.addr v) (image (env val)))) ∧
    (∀ type, s.op = .load type v →
      ∃ h ∈ s.after, ∀ env : Env, h.event env = some (.use (env.addr v) (image (env s.self))))

theorem slot?_of_mem {p : Program} {c : Code} (hc : Extends p.code c) {s : Slot}
    (hs : s ∈ c.slots) : c.slot? s.self = some s := by
  have hnodup : (c.slots.map Slot.self).Nodup := by
    rw [hc.selves]
    simpa [Program.code, Function.comp_def] using p.nodup
  exact find?_of_nodup hnodup hs

section Instrument

variable {p : Program} {sen : List Value} {c : Code} (hc : instrument p sen = some c)
include hc

theorem instrument_hooksOk : HooksOk sen c :=
  (hookVars_spec sen sen (fun _ h => h) _ _ (p.hooksOk sen) hc).2.1

theorem instrument_extends : Extends p.code c :=
  (hookVars_spec sen sen (fun _ h => h) _ _ (p.hooksOk sen) hc).1

theorem instrument_store {i v val : Value} {s : Slot} {type : Ty} {cast : Cast}
    (hs : c.slot? i = some s) (hop : s.op = .store type val v) (hv : v ∈ sen)
    (hcast : castVal type = .cast cast) : Hook.recordDefEvt v cast val ∈ s.before := by
  obtain ⟨hext, -, hturn⟩ := hookVars_spec sen sen (fun _ h => h) _ _ (p.hooksOk sen) hc
  obtain ⟨c₁, c₂, hc₁, hc₂, hext₂⟩ := hturn v hv
  have hi := mem_of_op hext ((congrArg (Option.map Slot.op) hs).trans (congrArg some hop))
  obtain ⟨s₂, hs₂, hk⟩ := store_hooked hc₁ hi hcast hc₂
  obtain ⟨s', hs', hk'⟩ := hext₂.mem_before hs₂ hk
  obtain rfl : s = s' := Option.some.inj (hs.symm.trans hs')
  exact hk'

theorem instrument_load {i v : Value} {s : Slot} {type : Ty} {cast : Cast}
    (hs : c.slot? i = some s) (hop : s.op = .load type v) (hv : v ∈ sen)
    (hcast : castVal type = .cast cast) : Hook.checkUseEvt v cast i ∈ s.after := by
  obtain ⟨hext, -, hturn⟩ := hookVars_spec sen sen (fun _ h => h) _ _ (p.hooksOk sen) hc
  obtain ⟨c₁, c₂, hc₁, hc₂, hext₂⟩ := hturn v hv
  have hi := mem_of_op hext ((congrArg (Option.map Slot.op) hs).trans (congrArg some hop))
  obtain ⟨s₂, hs₂, hk⟩ := load_hooked hc₁ hi hcast hc₂
  obtain ⟨s', hs', hk'⟩ := hext₂.mem_after hs₂ hk
  obtain rfl : s = s' := Option.some.inj (hs.symm.trans hs')
  exact hk'

end Instrument

/-- The pass ends with each access to a sensitive variable tracked, if and
only if what is stored and loaded there are pointers and integers of at
most 64 bits, and no wider integer is stored through a pointer loaded
from there. -/
theorem tracked_iff (p : Program) (sen : List Value) :
    (∃ c, instrument p sen = some c ∧ Tracked c sen) ↔ ∀ v ∈ sen, HandledBy p v := by
  constructor
  · rintro ⟨c, hc, htracked⟩ v hv
    obtain ⟨hext, hok, hturn⟩ :=
      hookVars_spec sen sen (fun _ h => h) _ _ (p.hooksOk sen) hc
    have hslot : ∀ i op, (i, op) ∈ p.insts → ∃ s ∈ c.slots, s.self = i ∧ s.op = op := by
      intro i op hi
      obtain ⟨s, hs, hop⟩ := Option.map_eq_some_iff.mp (op_of_mem hext hi)
      exact ⟨s, List.mem_of_find?_eq_some hs, Code.slot?_self hs, hop⟩
    refine ⟨fun i type val hi => ?_, fun i type hi => ?_, fun i type hi j type' val hj => ?_⟩
    · obtain ⟨s, hs, -, hop⟩ := hslot i _ hi
      obtain ⟨h, hh, hevent⟩ := (htracked v hv s hs).1 type val hop
      rcases (hok _ s (slot?_of_mem hext hs)).1 h hh with ⟨addr, rfl⟩ | ⟨type', val', ptr, cast, hop', hcast, -⟩
      · cases hevent fun _ => 0
      · obtain ⟨rfl, -, -⟩ := Op.store.inj (hop.symm.trans hop')
        exact ⟨cast, hcast⟩
    · obtain ⟨s, hs, -, hop⟩ := hslot i _ hi
      obtain ⟨h, hh, hevent⟩ := (htracked v hv s hs).2 type hop
      rcases (hok _ s (slot?_of_mem hext hs)).2 h hh with ⟨addr, rfl⟩ | ⟨type', ptr, cast, hop', -, hcast, -⟩
      · cases hevent fun _ => 0
      · obtain ⟨rfl, -⟩ := Op.load.inj (hop.symm.trans hop')
        exact ⟨cast, hcast⟩
    · obtain ⟨c₁, c₂, hc₁, hc₂, -⟩ := hturn v hv
      exact through_legal hc₁ hc₂ hi hj
  · intro h
    cases hc : instrument p sen with
    | none =>
        obtain ⟨v, hv, c₁, hc₁, hfail⟩ := hookVars_fails sen _ hc
        exact absurd hfail (hookVar_ne_none hc₁ (h v hv))
    | some c =>
        have hext := instrument_extends hc
        refine ⟨c, rfl, fun v hv s hs => ?_⟩
        have hsome := slot?_of_mem hext hs
        have hi : ∀ op, s.op = op → (s.self, op) ∈ p.insts := fun op hop =>
          mem_of_op hext ((congrArg (Option.map Slot.op) hsome).trans (congrArg some hop))
        constructor
        · intro type val hop
          obtain ⟨cast, hcast⟩ := (h v hv).stores _ _ _ (hi _ hop)
          exact ⟨_, instrument_store hc hsome hop hv hcast, fun _ => rfl⟩
        · intro type hop
          obtain ⟨cast, hcast⟩ := (h v hv).loads _ _ (hi _ hop)
          exact ⟨_, instrument_load hc hsome hop hv hcast, fun _ => rfl⟩

/-- A program from its instructions, with use lists in their order. -/
def Program.ofInsts (insts : List (Value × Op)) (nodup : (insts.map Prod.fst).Nodup) : Program where
  insts := insts
  uses v := (insts.filter fun i => v ∈ i.2.operands).map fun i => .inst i.1
  nodup := nodup
  uses_iff v i := by
    simp only [List.mem_map, List.mem_filter, decide_eq_true_eq, User.inst.injEq]
    constructor
    · rintro ⟨⟨j, op⟩, ⟨hmem, hv⟩, rfl⟩
      exact ⟨op, hmem, hv⟩
    · rintro ⟨op, hmem, hv⟩
      exact ⟨(i, op), ⟨hmem, hv⟩, rfl⟩

/-- `mLBolus = 0.001 * count;`, with the annotated `float mLBolus`. -/
def setBolus : Program :=
  .ofInsts [(.inst "loop" 3, .store (.floating 32) (.inst "loop" 2) (.global "mLBolus"))]
    (by decide)

theorem float_untracked :
    ¬ ∀ (p : Program) (sen : List Value), ∃ c, instrument p sen = some c ∧ Tracked c sen := by
  intro h
  obtain ⟨c, hc, htracked⟩ := h setBolus [.global "mLBolus"]
  obtain rfl := Option.some.inj ((Eq.refl (instrument _ _)).trans hc)
  obtain ⟨k, hk, hevent⟩ := (htracked (.global "mLBolus") (by decide) _
    (List.mem_singleton.mpr rfl)).1 _ _ rfl
  obtain rfl := List.mem_singleton.mp hk
  cases hevent fun _ => 0

end Nova

end Oat
