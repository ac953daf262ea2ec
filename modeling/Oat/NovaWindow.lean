import Oat.Bytes
import Oat.FoldRun
import Oat.NovaHooks

/-!
# The last-value check in the window

What the hooks send at run time goes to the measurement engine between
`cfv_init` and `cfv_quote` only, and the engine starts each window with
no value on record. A run here is any sequence of executed instructions,
with any values that memory allows, of writes by code without hooks, and
of the two calls; its memory starts out with anything.

`no_false_alarm`: a run that keeps to the rules for sensitive locations
passes the check if each tracked load reads what the same window has
stored, and a run that passes has stored something there before.
-/

namespace Oat

namespace Nova

/-! ## Memory -/

/-- Widths in bits, from the data layout. -/
structure Layout where
  bits : Ty → Nat
  int : ∀ width, bits (.int width) = width
  ptr : ∀ type, bits (.ptr type) = 64

abbrev Mem := BitVec 64 → UInt8

/-- A location: an address and a width in bits. -/
structure Loc where
  addr : BitVec 64
  bits : Nat
deriving Repr, DecidableEq

namespace Loc

def size (x : Loc) : Nat := (x.bits + 7) / 8

def read (mem : Mem) (x : Loc) : Nat := leNat (readBytes mem x.addr x.size) % 2 ^ x.bits

def write (mem : Mem) (x : Loc) (val : Nat) : Mem := writeBytes mem x.addr (leBytes x.size val)

/-- What has no bytes is still at its address. -/
def Touches (x y : Loc) : Prop := x.addr = y.addr ∨ Overlap x.addr x.size y.addr y.size

theorem read_write_self (mem : Mem) {x : Loc} (hbits : x.bits ≤ 64) {val : Nat}
    (hval : val < 2 ^ x.bits) : x.read (x.write mem val) = val := by
  have hsize : x.bits ≤ 8 * x.size ∧ x.size ≤ 8 := by
    unfold size
    omega
  have hlen : (leBytes x.size val).length ≤ 2 ^ 64 := by
    rw [leBytes_length]
    omega
  have hbytes : val < 256 ^ x.size := by
    have hpow : (256 : Nat) ^ x.size = 2 ^ (8 * x.size) := by rw [Nat.pow_mul]
    rw [hpow]
    exact Nat.lt_of_lt_of_le hval (Nat.pow_le_pow_right (by omega) hsize.1)
  have hread := readBytes_writeBytes_self mem x.addr hlen
  rw [leBytes_length] at hread
  rw [read, write, hread, leNat_leBytes, Nat.mod_eq_of_lt hbytes, Nat.mod_eq_of_lt hval]

theorem read_write_of_not_touches (mem : Mem) {x y : Loc} (h : ¬ x.Touches y) (val : Nat) :
    x.read (y.write mem val) = x.read mem := by
  have hoverlap : ¬ Overlap x.addr x.size y.addr (leBytes y.size val).length := by
    rw [leBytes_length]
    exact fun ho => h (.inr ho)
  rw [read, write, readBytes_writeBytes_of_not_overlap mem hoverlap, read]

end Loc

/-! ## Runs -/

/-- One thing that happens in a run. `foreign` is a write by code without
hooks, such as a library. -/
inductive Action where
  | exec (self : Value) (env : Env)
  | foreign (addr : BitVec 64) (bytes : List UInt8)
  | cfvInit
  | cfvQuote

/-- `window` is what has been sent since the last `cfv_init`, the latest
first. -/
structure RunState where
  mem : Mem
  cfvStart : Bool
  window : List Event
  flagged : Bool

namespace Event

def addr : Event → BitVec 64
  | .def_ addr _ => addr
  | .use addr _ => addr

def val : Event → BitVec 64
  | .def_ _ val => val
  | .use _ val => val

def isUse : Event → Bool
  | .def_ _ _ => false
  | .use _ _ => true

end Event

/-- The value that was last sent for the address. -/
def lastVal (window : List Event) (addr : BitVec 64) : Option (BitVec 64) :=
  (window.find? fun e => e.addr = addr).map Event.val

/-- Before `cfv_init` events are skipped. A use is flagged unless its
value is the last one. -/
def handleEvent (s : RunState) (e : Event) : RunState :=
  if s.cfvStart then
    { s with
      window := e :: s.window
      flagged := s.flagged || (e.isUse && lastVal s.window e.addr ≠ some e.val) }
  else s

def handleEvents (s : RunState) (events : List Event) : RunState := events.foldl handleEvent s

def Layout.loc (l : Layout) (env : Env) (type : Ty) (ptr : Value) : Loc :=
  ⟨env.addr ptr, l.bits type⟩

/-- It is an error when the values are not those of an execution. -/
def execOp (l : Layout) (mem : Mem) (self : Value) (env : Env) : Op → Except Unit Mem
  | .store type val ptr =>
      if env val < 2 ^ l.bits type then .ok ((l.loc env type ptr).write mem (env val))
      else .error ()
  | .load type ptr => if env self = (l.loc env type ptr).read mem then .ok mem else .error ()
  | .other _ => .ok mem

def exec (l : Layout) (env : Env) (s : RunState) (slot : Slot) : Except Unit RunState := do
  let s := handleEvents s (slot.before.filterMap (Hook.event env))
  let mem ← execOp l s.mem slot.self env slot.op
  return handleEvents { s with mem := mem } (slot.after.filterMap (Hook.event env))

def act (l : Layout) (c : Code) (s : RunState) : Action → Except Unit RunState
  | .exec self env =>
      match c.slot? self with
      | some slot => exec l env s slot
      | none => .error ()
  | .foreign addr bytes => .ok { s with mem := writeBytes s.mem addr bytes }
  | .cfvInit => .ok { s with cfvStart := true, window := [] }
  | .cfvQuote => .ok { s with cfvStart := false }

def start (mem : Mem) : RunState := ⟨mem, false, [], false⟩

/-! ## Sensitive locations -/

structure Access where
  isStore : Bool
  type : Ty
  ptr : Value
  loc : Loc

def access? (l : Layout) (c : Code) : Action → Option Access
  | .exec self env =>
      match (c.slot? self).map Slot.op with
      | some (.store type _ ptr) => some ⟨true, type, ptr, l.loc env type ptr⟩
      | some (.load type ptr) => some ⟨false, type, ptr, l.loc env type ptr⟩
      | _ => none
  | _ => none

section Rules

variable (l : Layout) (c : Code) (sen : List Value)

/-- A location that the run accesses through a sensitive variable. -/
def SensitiveLoc (run : List Action) (x : Loc) : Prop :=
  ∃ a ∈ run, ∃ acc, access? l c a = some acc ∧ acc.ptr ∈ sen ∧ acc.loc = x

/-- What is written at one of the locations is a store through a sensitive
variable of just this width. -/
def Respects (locs : Loc → Prop) (a : Action) : Prop :=
  (∀ addr bytes, a = .foreign addr bytes →
    ∀ x, locs x → ¬ Overlap x.addr x.size addr bytes.length) ∧
  ∀ acc, access? l c a = some acc → acc.isStore → ∀ x, locs x → x.Touches acc.loc →
    acc.ptr ∈ sen ∧ acc.loc = x

def Benign (run : List Action) : Prop := ∀ a ∈ run, Respects l c sen (SensitiveLoc l c sen run) a

/-- A store to the address, of a type in `T`. -/
def StoresAt (T : Ty → Prop) (addr : BitVec 64) (a : Action) : Prop :=
  ∃ acc, access? l c a = some acc ∧ acc.isStore ∧ acc.loc.addr = addr ∧ T acc.type

def WindowOpen (past : List Action) : Prop := Since (· = .cfvInit) (· ≠ .cfvQuote) past

/-- The window has a store to the address that is tracked. -/
def Stored (past : List Action) (addr : BitVec 64) : Prop :=
  Since (StoresAt l c Handled addr) (· ≠ .cfvInit) past

/-- The last store to the address is in the window and tracked. -/
def Recorded (past : List Action) (addr : BitVec 64) : Prop :=
  Since (StoresAt l c Handled addr)
    (fun a => a ≠ .cfvInit ∧ ¬ StoresAt l c (fun _ => True) addr a) past

/-- A load in the window that is tracked. -/
def TrackedLoad (past : List Action) (a : Action) (addr : BitVec 64) : Prop :=
  WindowOpen past ∧ ∃ acc, access? l c a = some acc ∧ acc.isStore = false ∧ acc.ptr ∈ sen ∧
    Handled acc.type ∧ acc.loc.addr = addr

def LoadsMeet (P : List Action → BitVec 64 → Prop) (run : List Action) : Prop :=
  ∀ past a rest addr, run = past ++ a :: rest → TrackedLoad l c sen past a addr → P past addr

variable {l c sen}

theorem loadsMeet_concat {P : List Action → BitVec 64 → Prop} {run : List Action} {a : Action} :
    LoadsMeet l c sen P (run ++ [a]) ↔
      LoadsMeet l c sen P run ∧ ∀ addr, TrackedLoad l c sen run a addr → P run addr := by
  constructor
  · intro h
    refine ⟨fun past b rest addr hrun => ?_, fun addr => h run a [] addr rfl⟩
    exact h past b (rest ++ [a]) addr (by simp [hrun])
  · rintro ⟨hrun, ha⟩ past b rest addr hsplit
    rcases List.eq_nil_or_concat' rest with rfl | ⟨rest, a', rfl⟩
    · obtain ⟨rfl, hb⟩ := List.append_inj' hsplit rfl
      obtain rfl := List.singleton_inj.mp hb
      exact ha addr
    · rw [← List.cons_append, ← List.append_assoc] at hsplit
      exact hrun past b rest addr (List.append_inj' hsplit rfl).1

end Rules

/-! ## What an instruction sends -/

section Handle

variable {addr val : BitVec 64} {events : List Event}

theorem handleEvents_closed {s : RunState} (hclosed : s.cfvStart = false) :
    handleEvents s events = s := by
  induction events with
  | nil => rfl
  | cons e events ih =>
      rw [handleEvents, List.foldl_cons]
      rw [handleEvent, hclosed]
      exact ih

theorem handleEvents_frame (events : List Event) (s : RunState) :
    (handleEvents s events).mem = s.mem ∧ (handleEvents s events).cfvStart = s.cfvStart := by
  induction events generalizing s with
  | nil => exact ⟨rfl, rfl⟩
  | cons e events ih =>
      obtain ⟨hmem, hstart⟩ := ih (handleEvent s e)
      have hone : (handleEvent s e).mem = s.mem ∧ (handleEvent s e).cfvStart = s.cfvStart := by
        unfold handleEvent
        split <;> exact ⟨rfl, rfl⟩
      exact ⟨hmem.trans hone.1, hstart.trans hone.2⟩

theorem handleEvents_flagged_mono {s : RunState} (h : s.flagged = true) :
    (handleEvents s events).flagged = true := by
  induction events generalizing s with
  | nil => exact h
  | cons e events ih =>
      refine ih ?_
      unfold handleEvent
      split
      · simp [h]
      · exact h

theorem not_flagged_of_handleEvents {s : RunState} (h : (handleEvents s events).flagged = false) :
    s.flagged = false := by
  cases hf : s.flagged with
  | false => rfl
  | true => exact (handleEvents_flagged_mono hf).symm.trans h

/-- Events with one address and one value. -/
def Same (addr val : BitVec 64) (events : List Event) : Prop :=
  ∀ e ∈ events, e.addr = addr ∧ e.val = val

theorem lastVal_handleEvents {s : RunState} (hopen : s.cfvStart = true)
    (hsame : Same addr val events) (a : BitVec 64) :
    lastVal (handleEvents s events).window a =
      if a = addr ∧ events ≠ [] then some val else lastVal s.window a := by
  induction events generalizing s with
  | nil => simp [handleEvents]
  | cons e events ih =>
      obtain ⟨haddr, hval⟩ := hsame e (List.mem_cons_self ..)
      have hrest : Same addr val events := fun e' he' => hsame e' (List.mem_cons_of_mem _ he')
      have hstart : (handleEvent s e).cfvStart = true := by simp [handleEvent, hopen]
      have hwindow : lastVal (handleEvent s e).window a =
          if a = addr then some val else lastVal s.window a := by
        simp only [handleEvent, hopen, if_true, lastVal, List.find?_cons, haddr]
        by_cases ha : a = addr
        · simp [ha, hval]
        · simp [ha, Ne.symm ha]
      have hih := ih hstart hrest
      rw [handleEvents, List.foldl_cons]
      rw [handleEvents] at hih
      rw [hih, hwindow]
      by_cases ha : a = addr <;> simp [ha]

/-- A use is not flagged behind a last value that is its own. -/
theorem handleEvents_flagged {s : RunState} (hsame : Same addr val events)
    (huse : ∀ e ∈ events, e.isUse = true → lastVal s.window addr = some val) :
    (handleEvents s events).flagged = s.flagged := by
  cases hopen : s.cfvStart with
  | false => rw [handleEvents_closed hopen]
  | true =>
      induction events generalizing s with
      | nil => rfl
      | cons e events ih =>
          obtain ⟨haddr, hval⟩ := hsame e (List.mem_cons_self ..)
          have hstart : (handleEvent s e).cfvStart = true := by simp [handleEvent, hopen]
          have hwindow : lastVal (handleEvent s e).window addr = some val := by
            simp [handleEvent, hopen, lastVal, haddr, hval]
          have hflag : (handleEvent s e).flagged = s.flagged := by
            simp only [handleEvent, hopen, if_true, haddr, hval]
            cases hkind : e.isUse with
            | false => simp
            | true => simp [huse e (List.mem_cons_self ..) hkind]
          exact (ih (fun e' he' => hsame e' (List.mem_cons_of_mem _ he')) (fun _ _ _ => hwindow)
            hstart).trans hflag

/-- A use that is not flagged is not the first event for its address. -/
theorem lastVal_of_not_flagged {s : RunState} (hopen : s.cfvStart = true)
    (hsame : Same addr val events) (huse : ∀ e ∈ events, e.isUse = true) (hne : events ≠ [])
    (h : (handleEvents s events).flagged = false) : lastVal s.window addr = some val := by
  cases events with
  | nil => exact absurd rfl hne
  | cons e events =>
      obtain ⟨haddr, hval⟩ := hsame e (List.mem_cons_self ..)
      by_contra hlast
      have hflag : (handleEvent s e).flagged = true := by
        simp [handleEvent, hopen, huse e (List.mem_cons_self ..), haddr, hval, hlast]
      have hflag' : (handleEvents (handleEvent s e) events).flagged = true :=
        handleEvents_flagged_mono hflag
      exact absurd (hflag'.symm.trans h) (by simp)

end Handle

/-- What an access sends. -/
structure Sends (sen : List Value) (acc : Access) (val : BitVec 64) (events : List Event) :
    Prop where
  same : Same acc.loc.addr val events
  isUse : ∀ e ∈ events, e.isUse = !acc.isStore
  handled : events ≠ [] → Handled acc.type
  ptr : events ≠ [] → acc.isStore = false → acc.ptr ∈ sen
  tracked : acc.ptr ∈ sen → Handled acc.type → events ≠ []

/-- What can happen in a step. -/
inductive Effect (l : Layout) (c : Code) (sen : List Value) (s : RunState) :
    Action → RunState → Prop where
  | foreign (addr : BitVec 64) (bytes : List UInt8) :
      Effect l c sen s (.foreign addr bytes) { s with mem := writeBytes s.mem addr bytes }
  | cfvInit : Effect l c sen s .cfvInit { s with cfvStart := true, window := [] }
  | cfvQuote : Effect l c sen s .cfvQuote { s with cfvStart := false }
  | store {self : Value} {env : Env} {acc : Access} {val : Nat} {events : List Event}
      (hacc : access? l c (.exec self env) = some acc) (hstore : acc.isStore = true)
      (hbits : acc.loc.bits = l.bits acc.type) (hval : val < 2 ^ acc.loc.bits)
      (hsends : Sends sen acc (image val) events) :
      Effect l c sen s (.exec self env)
        { handleEvents s events with mem := acc.loc.write s.mem val }
  | load {self : Value} {env : Env} {acc : Access} {events : List Event}
      (hacc : access? l c (.exec self env) = some acc) (hload : acc.isStore = false)
      (hsends : Sends sen acc (image (acc.loc.read s.mem)) events) :
      Effect l c sen s (.exec self env) (handleEvents s events)
  | other {self : Value} {env : Env} (hacc : access? l c (.exec self env) = none) :
      Effect l c sen s (.exec self env) s

section Instrumented

variable {p : Program} {sen : List Value} {c : Code} (hc : instrument p sen = some c)
include hc

theorem sends_before {i : Value} {slot : Slot} (hs : c.slot? i = some slot) {type : Ty}
    {val ptr : Value} (hop : slot.op = .store type val ptr) (env : Env) (loc : Loc)
    (hloc : loc.addr = env.addr ptr) :
    Sends sen ⟨true, type, ptr, loc⟩ (image (env val)) (slot.before.filterMap (Hook.event env)) := by
  have hall : ∀ e ∈ slot.before.filterMap (Hook.event env),
      e = .def_ (env.addr ptr) (image (env val)) ∧ Handled type := by
    intro e he
    obtain ⟨h, hh, hevent⟩ := List.mem_filterMap.mp he
    rcases (instrument_hooksOk hc i slot hs).1 h hh with
      ⟨addr, rfl⟩ | ⟨type', val', ptr', cast, hop', hcast, rfl⟩
    · cases hevent
    · obtain ⟨rfl, rfl, rfl⟩ := Op.store.inj (hop.symm.trans hop')
      exact ⟨(Option.some.inj hevent).symm, cast, hcast⟩
  refine ⟨fun e he => ?_, fun e he => ?_, fun hne => ?_, (fun _ h => nomatch h), fun hptr hh => ?_⟩
  · rw [(hall e he).1]
    exact ⟨hloc.symm, rfl⟩
  · rw [(hall e he).1]
    rfl
  · obtain ⟨e, he⟩ := List.exists_mem_of_ne_nil _ hne
    exact (hall e he).2
  · obtain ⟨cast, hcast⟩ := hh
    exact List.ne_nil_of_mem (List.mem_filterMap.mpr
      ⟨_, instrument_store hc hs hop hptr hcast, rfl⟩)

theorem sends_after {i : Value} {slot : Slot} (hs : c.slot? i = some slot) {type : Ty}
    {ptr : Value} (hop : slot.op = .load type ptr) (env : Env) (loc : Loc)
    (hloc : loc.addr = env.addr ptr) :
    Sends sen ⟨false, type, ptr, loc⟩ (image (env slot.self))
      (slot.after.filterMap (Hook.event env)) := by
  have hall : ∀ e ∈ slot.after.filterMap (Hook.event env),
      e = .use (env.addr ptr) (image (env slot.self)) ∧ Handled type ∧ ptr ∈ sen := by
    intro e he
    obtain ⟨h, hh, hevent⟩ := List.mem_filterMap.mp he
    rcases (instrument_hooksOk hc i slot hs).2 h hh with
      ⟨addr, rfl⟩ | ⟨type', ptr', cast, hop', hptr, hcast, rfl⟩
    · cases hevent
    · obtain ⟨rfl, rfl⟩ := Op.load.inj (hop.symm.trans hop')
      exact ⟨(Option.some.inj hevent).symm, ⟨cast, hcast⟩, hptr⟩
  refine ⟨fun e he => ?_, fun e he => ?_, fun hne => ?_, fun hne _ => ?_, fun hptr hh => ?_⟩
  · rw [(hall e he).1]
    exact ⟨hloc.symm, rfl⟩
  · rw [(hall e he).1]
    rfl
  · obtain ⟨e, he⟩ := List.exists_mem_of_ne_nil _ hne
    exact (hall e he).2.1
  · obtain ⟨e, he⟩ := List.exists_mem_of_ne_nil _ hne
    exact (hall e he).2.2
  · obtain ⟨cast, hcast⟩ := hh
    exact List.ne_nil_of_mem (List.mem_filterMap.mpr
      ⟨_, instrument_load hc hs hop hptr hcast, by rw [← Code.slot?_self hs]; rfl⟩)

/-- There are no calls in front of what is not a store. -/
theorem before_eq_nil {i : Value} {slot : Slot} (hs : c.slot? i = some slot)
    (hop : ∀ type val ptr, slot.op ≠ .store type val ptr) (env : Env) :
    slot.before.filterMap (Hook.event env) = [] := by
  refine List.filterMap_eq_nil_iff.mpr fun h hh => ?_
  rcases (instrument_hooksOk hc i slot hs).1 h hh with
    ⟨addr, rfl⟩ | ⟨type, val, ptr, cast, hstore, -⟩
  · rfl
  · exact absurd hstore (hop type val ptr)

theorem after_eq_nil {i : Value} {slot : Slot} (hs : c.slot? i = some slot)
    (hop : ∀ type ptr, slot.op ≠ .load type ptr) (env : Env) :
    slot.after.filterMap (Hook.event env) = [] := by
  refine List.filterMap_eq_nil_iff.mpr fun h hh => ?_
  rcases (instrument_hooksOk hc i slot hs).2 h hh with ⟨addr, rfl⟩ | ⟨type, ptr, cast, hload, -⟩
  · rfl
  · exact absurd hload (hop type ptr)

theorem exec_effect {l : Layout} {s s' : RunState} {self : Value} {env : Env} {slot : Slot}
    (hs : c.slot? self = some slot) (h : act l c s (.exec self env) = .ok s') :
    Effect l c sen s (.exec self env) s' := by
  simp only [act, hs, exec] at h
  obtain ⟨mem, hmem, hret⟩ := bind_eq_ok.mp h
  obtain rfl := Except.ok.inj hret
  cases hop : slot.op with
  | store type val ptr =>
      rw [hop] at hmem
      simp only [execOp, (handleEvents_frame _ s).1] at hmem
      split at hmem
      · rename_i hval
        obtain rfl := Except.ok.inj hmem
        have hacc : access? l c (.exec self env) =
            some ⟨true, type, ptr, l.loc env type ptr⟩ := by
          simp only [access?, hs, Option.map_some, hop]
        rw [after_eq_nil hc hs (by simp [hop])]
        exact .store hacc rfl rfl hval (sends_before hc hs hop env _ rfl)
      · cases hmem
  | load type ptr =>
      rw [hop, before_eq_nil hc hs (by simp [hop])] at hmem
      rw [before_eq_nil hc hs (by simp [hop])]
      simp only [execOp] at hmem
      split at hmem
      · rename_i hval
        obtain rfl := Except.ok.inj hmem
        have hacc : access? l c (.exec self env) =
            some ⟨false, type, ptr, l.loc env type ptr⟩ := by
          simp only [access?, hs, Option.map_some, hop]
        have hsends := sends_after hc hs hop env (l.loc env type ptr) rfl
        rw [hval] at hsends
        exact .load hacc rfl hsends
      · cases hmem
  | other operands =>
      rw [hop, before_eq_nil hc hs (by simp [hop])] at hmem
      rw [before_eq_nil hc hs (by simp [hop]), after_eq_nil hc hs (by simp [hop])]
      obtain rfl := Except.ok.inj hmem
      exact .other (by simp [access?, hs, hop])

theorem act_effect {l : Layout} {s s' : RunState} {a : Action} (h : act l c s a = .ok s') :
    Effect l c sen s a s' := by
  cases a with
  | foreign addr bytes =>
      obtain rfl := Except.ok.inj h
      exact .foreign addr bytes
  | cfvInit =>
      obtain rfl := Except.ok.inj h
      exact .cfvInit
  | cfvQuote =>
      obtain rfl := Except.ok.inj h
      exact .cfvQuote
  | exec self env =>
      cases hs : c.slot? self with
      | none =>
          simp only [act, hs] at h
          cases h
      | some slot => exact exec_effect hc hs h

end Instrumented

/-! ## A run that is not flagged -/

theorem handled_bits {l : Layout} {type : Ty} (h : Handled type) : l.bits type ≤ 64 := by
  obtain ⟨cast, hcast⟩ := h
  cases type with
  | ptr pointee => exact Nat.le_of_eq (l.ptr pointee)
  | int width =>
      rw [l.int]
      by_contra hwidth
      have hne : ¬ width = 64 ∧ ¬ width < 64 := by omega
      simp [castVal, hne.1, hne.2] at hcast
  | floating _ => cases hcast
  | array _ => cases hcast
  | struct _ _ => cases hcast
  | other => cases hcast

section Invariants

variable {l : Layout} {c : Code} {sen : List Value} {locs : Loc → Prop} {past : List Action}
  {s s' : RunState} {a : Action}

theorem not_storesAt_of_load {T : Ty → Prop} {addr : BitVec 64}
    (h : ∀ acc, access? l c a = some acc → acc.isStore = false) : ¬ StoresAt l c T addr a := by
  rintro ⟨acc, hacc, hstore, -⟩
  rw [h acc hacc] at hstore
  cases hstore

theorem recorded_of_not_storesAt {addr : BitVec 64} (hrec : Recorded l c (past ++ [a]) addr)
    (hnot : ¬ StoresAt l c Handled addr a) : Recorded l c past addr :=
  ((since_concat.mp hrec).resolve_left hnot).2

/-- Every location that is recorded has its value on record. -/
structure Recording (l : Layout) (c : Code) (locs : Loc → Prop) (past : List Action)
    (s : RunState) : Prop where
  opened : s.cfvStart = true ↔ WindowOpen past
  flagged : s.flagged = false
  last : s.cfvStart = true → ∀ x, locs x → Recorded l c past x.addr →
    lastVal s.window x.addr = some (image (x.read s.mem))

theorem recording_store {self : Value} {env : Env} {acc : Access} {val : Nat} {events : List Event}
    (h : Recording l c locs past s) (hrespects : Respects l c sen locs (.exec self env))
    (hacc : access? l c (.exec self env) = some acc) (hstore : acc.isStore = true)
    (hbits : acc.loc.bits = l.bits acc.type) (hval : val < 2 ^ acc.loc.bits)
    (hsends : Sends sen acc (image val) events) :
    Recording l c locs (past ++ [.exec self env])
      { handleEvents s events with mem := acc.loc.write s.mem val } := by
  obtain ⟨-, hstart⟩ := handleEvents_frame events s
  have hflagged : (handleEvents s events).flagged = s.flagged := by
    refine handleEvents_flagged hsends.same fun e he huse => ?_
    rw [hsends.isUse e he, hstore] at huse
    cases huse
  refine ⟨by simpa [WindowOpen, hstart] using h.opened, hflagged.trans h.flagged,
    fun hopen x hx hrec => ?_⟩
  have hopen' : s.cfvStart = true := hstart.symm.trans hopen
  have hlast := lastVal_handleEvents hopen' hsends.same x.addr
  by_cases htouch : x.Touches acc.loc
  · obtain ⟨hptr, rfl⟩ := hrespects.2 acc hacc hstore x hx htouch
    have hhandled : Handled acc.type := by
      rcases since_concat.mp hrec with ⟨acc', hacc', -, -, hh⟩ | ⟨⟨-, hno⟩, -⟩
      · obtain rfl := Option.some.inj (hacc.symm.trans hacc')
        exact hh
      · exact absurd ⟨acc, hacc, hstore, rfl, trivial⟩ hno
    have hread := Loc.read_write_self s.mem (hbits ▸ handled_bits hhandled) hval
    rw [if_pos ⟨rfl, hsends.tracked hptr hhandled⟩] at hlast
    rw [hread]
    exact hlast
  · have haddr : x.addr ≠ acc.loc.addr := fun heq => htouch (.inl heq)
    have hnot : ∀ T, ¬ StoresAt l c T x.addr (.exec self env) := by
      rintro T ⟨acc', hacc', -, heq, -⟩
      obtain rfl := Option.some.inj (hacc.symm.trans hacc')
      exact haddr heq.symm
    have hrec' := recorded_of_not_storesAt hrec (hnot _)
    have hread := Loc.read_write_of_not_touches s.mem htouch val
    rw [if_neg fun hand => haddr hand.1] at hlast
    rw [hread]
    exact hlast.trans (h.last hopen' x hx hrec')

/-- What is loaded is on record when it is tracked. -/
theorem recording_load {self : Value} {env : Env} {acc : Access} {events : List Event}
    (h : Recording l c locs past s)
    (hlocs : ∀ acc, access? l c (.exec self env) = some acc → acc.ptr ∈ sen → locs acc.loc)
    (hload : ∀ addr, TrackedLoad l c sen past (.exec self env) addr → Recorded l c past addr)
    (hacc : access? l c (.exec self env) = some acc) (hisLoad : acc.isStore = false)
    (hsends : Sends sen acc (image (acc.loc.read s.mem)) events) :
    Recording l c locs (past ++ [.exec self env]) (handleEvents s events) := by
  obtain ⟨hmem, hstart⟩ := handleEvents_frame events s
  have honly : ∀ acc', access? l c (.exec self env) = some acc' → acc'.isStore = false := by
    intro acc' hacc'
    obtain rfl := Option.some.inj (hacc.symm.trans hacc')
    exact hisLoad
  have hown : s.cfvStart = true → events ≠ [] →
      lastVal s.window acc.loc.addr = some (image (acc.loc.read s.mem)) := by
    intro hopen hne
    have hptr := hsends.ptr hne hisLoad
    exact h.last hopen acc.loc (hlocs acc hacc hptr)
      (hload _ ⟨h.opened.mp hopen, acc, hacc, hisLoad, hptr, hsends.handled hne, rfl⟩)
  have hflagged : (handleEvents s events).flagged = s.flagged := by
    cases hopen : s.cfvStart with
    | false => rw [handleEvents_closed hopen]
    | true =>
        exact handleEvents_flagged hsends.same fun e he _ => hown hopen (List.ne_nil_of_mem he)
  refine ⟨by simpa [WindowOpen, hstart] using h.opened, hflagged.trans h.flagged,
    fun hopen x hx hrec => ?_⟩
  have hopen' : s.cfvStart = true := hstart.symm.trans hopen
  have hrec' := recorded_of_not_storesAt hrec (not_storesAt_of_load honly)
  have hx' := h.last hopen' x hx hrec'
  rw [hmem, lastVal_handleEvents hopen' hsends.same]
  split
  · rename_i hand
    rw [← hx', hand.1, hown hopen' hand.2]
  · exact hx'

theorem recording_step (h : Recording l c locs past s) (heffect : Effect l c sen s a s')
    (hrespects : Respects l c sen locs a)
    (hlocs : ∀ acc, access? l c a = some acc → acc.ptr ∈ sen → locs acc.loc)
    (hload : ∀ addr, TrackedLoad l c sen past a addr → Recorded l c past addr) :
    Recording l c locs (past ++ [a]) s' := by
  cases heffect with
  | foreign addr bytes =>
      refine ⟨by simpa [WindowOpen] using h.opened, h.flagged, fun hopen x hx hrec => ?_⟩
      have hrec' := recorded_of_not_storesAt hrec (not_storesAt_of_load (by simp [access?]))
      have hread : x.read (writeBytes s.mem addr bytes) = x.read s.mem := by
        rw [Loc.read, readBytes_writeBytes_of_not_overlap s.mem (hrespects.1 addr bytes rfl x hx),
          Loc.read]
      rw [hread]
      exact h.last hopen x hx hrec'
  | cfvInit =>
      refine ⟨by simp [WindowOpen], h.flagged, fun _ x _ hrec => ?_⟩
      rcases since_concat.mp hrec with hstore | ⟨⟨hne, -⟩, -⟩
      · exact absurd hstore (not_storesAt_of_load (by simp [access?]))
      · exact absurd rfl hne
  | cfvQuote => exact ⟨by simp [WindowOpen], h.flagged, fun hopen => nomatch hopen⟩
  | other hacc =>
      refine ⟨by simpa [WindowOpen] using h.opened, h.flagged, fun hopen x hx hrec => ?_⟩
      have hrec' := recorded_of_not_storesAt hrec (not_storesAt_of_load (by simp [hacc]))
      exact h.last hopen x hx hrec'
  | store hacc hstore hbits hval hsends =>
      exact recording_store h hrespects hacc hstore hbits hval hsends
  | load hacc hisLoad hsends => exact recording_load h hlocs hload hacc hisLoad hsends

/-- As long as nothing is flagged, what is on record comes from a store. -/
structure Backed (l : Layout) (c : Code) (past : List Action) (s : RunState) : Prop where
  opened : s.cfvStart = true ↔ WindowOpen past
  stored : s.flagged = false → ∀ addr, lastVal s.window addr ≠ none → Stored l c past addr

/-- A step that is no `cfv_init` keeps what has been stored. -/
theorem stored_keep {addr : BitVec 64} (hne : a ≠ .cfvInit) (h : Stored l c past addr) :
    Stored l c (past ++ [a]) addr := since_concat.mpr (.inr ⟨hne, h⟩)

theorem backed_store {self : Value} {env : Env} {acc : Access} {val : BitVec 64}
    {events : List Event} (h : Backed l c past s)
    (hacc : access? l c (.exec self env) = some acc) (hstore : acc.isStore = true)
    (hsends : Sends sen acc val events) (mem : Mem) :
    Backed l c (past ++ [.exec self env]) { handleEvents s events with mem := mem } := by
  obtain ⟨-, hstart⟩ := handleEvents_frame events s
  refine ⟨by simpa [WindowOpen, hstart] using h.opened, fun hf addr hlast => ?_⟩
  have hf' := not_flagged_of_handleEvents hf
  cases hopen : s.cfvStart with
  | false =>
      rw [handleEvents_closed hopen] at hlast
      exact stored_keep (by simp) (h.stored hf' addr hlast)
  | true =>
      rw [lastVal_handleEvents hopen hsends.same] at hlast
      split at hlast
      · rename_i hand
        exact since_concat.mpr (.inl ⟨acc, hacc, hstore, hand.1.symm, hsends.handled hand.2⟩)
      · exact stored_keep (by simp) (h.stored hf' addr hlast)

theorem backed_load {self : Value} {env : Env} {acc : Access} {val : BitVec 64}
    {events : List Event} (h : Backed l c past s) (hisLoad : acc.isStore = false)
    (hsends : Sends sen acc val events) :
    Backed l c (past ++ [.exec self env]) (handleEvents s events) := by
  obtain ⟨-, hstart⟩ := handleEvents_frame events s
  refine ⟨by simpa [WindowOpen, hstart] using h.opened, fun hf addr hlast => ?_⟩
  have hf' := not_flagged_of_handleEvents hf
  refine stored_keep (by simp) ?_
  cases hopen : s.cfvStart with
  | false =>
      rw [handleEvents_closed hopen] at hlast
      exact h.stored hf' addr hlast
  | true =>
      rw [lastVal_handleEvents hopen hsends.same] at hlast
      split at hlast
      · rename_i hand
        have huse : ∀ e ∈ events, e.isUse = true := fun e he => by
          rw [hsends.isUse e he, hisLoad]
          rfl
        have hfirst := lastVal_of_not_flagged hopen hsends.same huse hand.2 hf
        rw [hand.1]
        exact h.stored hf' _ (by simp [hfirst])
      · exact h.stored hf' addr hlast

theorem backed_step (h : Backed l c past s) (heffect : Effect l c sen s a s') :
    Backed l c (past ++ [a]) s' := by
  cases heffect with
  | foreign addr bytes =>
      exact ⟨by simpa [WindowOpen] using h.opened,
        fun hf addr hlast => stored_keep (by simp) (h.stored hf addr hlast)⟩
  | cfvInit => exact ⟨by simp [WindowOpen], fun _ _ hlast => absurd rfl hlast⟩
  | cfvQuote =>
      exact ⟨by simp [WindowOpen],
        fun hf addr hlast => stored_keep (by simp) (h.stored hf addr hlast)⟩
  | other hacc =>
      exact ⟨by simpa [WindowOpen] using h.opened,
        fun hf addr hlast => stored_keep (by simp) (h.stored hf addr hlast)⟩
  | store hacc hstore hbits hval hsends => exact backed_store h hacc hstore hsends _
  | load hacc hisLoad hsends => exact backed_load h hisLoad hsends

end Invariants

section Runs

variable {p : Program} {sen : List Value} {c : Code} (hc : instrument p sen = some c)
  {l : Layout} {s s' : RunState} {run : List Action} {mem : Mem}
include hc

theorem flagged_mono (hrun : foldRun (act l c) s run = .ok s') (h : s.flagged = true) :
    s'.flagged = true := by
  refine foldRun_inv (I := fun _ s => s.flagged = true) h (fun _ a s s' hf hact => ?_) hrun
  cases act_effect hc hact with
  | foreign _ _ => exact hf
  | cfvInit => exact hf
  | cfvQuote => exact hf
  | other _ => exact hf
  | store _ _ _ _ _ => exact handleEvents_flagged_mono hf
  | load _ _ _ => exact handleEvents_flagged_mono hf

theorem run_recording (hrun : foldRun (act l c) (start mem) run = .ok s')
    (hbenign : Benign l c sen run) (hloads : LoadsMeet l c sen (Recorded l c) run) :
    Recording l c (SensitiveLoc l c sen run) run s' := by
  refine foldRun_inv (I := fun past s => (∀ a ∈ past, a ∈ run) →
    LoadsMeet l c sen (Recorded l c) past → Recording l c (SensitiveLoc l c sen run) past s)
    (fun _ _ => ⟨by simp [start, WindowOpen], rfl, fun h => nomatch (h : false = true)⟩) ?_ hrun
    (fun _ h => h) hloads
  intro past a s₁ s₂ ih hact hmem hmeet
  obtain ⟨hpast, hload⟩ := loadsMeet_concat.mp hmeet
  have ha : a ∈ run := hmem a (by simp)
  exact recording_step (ih (fun b hb => hmem b (List.mem_append_left _ hb)) hpast)
    (act_effect hc hact) (hbenign a ha) (fun acc hacc hptr => ⟨a, ha, acc, hacc, hptr, rfl⟩) hload

theorem run_backed (hrun : foldRun (act l c) (start mem) run = .ok s') : Backed l c run s' :=
  foldRun_inv ⟨by simp [start, WindowOpen], fun _ _ h => absurd rfl h⟩
    (fun _ _ _ _ h hact => backed_step h (act_effect hc hact)) hrun

/-- A tracked load that is not flagged finds a value on record. -/
theorem last_of_trackedLoad {past : List Action} {a : Action} {addr : BitVec 64}
    (hback : Backed l c past s) (hact : act l c s a = .ok s')
    (hload : TrackedLoad l c sen past a addr) (hf : s'.flagged = false) :
    s.flagged = false ∧ lastVal s.window addr ≠ none := by
  obtain ⟨hopen, acc, hacc, hisLoad, hptr, hhandled, rfl⟩ := hload
  cases act_effect hc hact with
  | foreign _ _ => cases hacc
  | cfvInit => cases hacc
  | cfvQuote => cases hacc
  | other hnone => cases hnone.symm.trans hacc
  | store hacc' hstore _ _ _ =>
      obtain rfl := Option.some.inj (hacc.symm.trans hacc')
      cases hisLoad.symm.trans hstore
  | @load _ _ _ events hacc' _ hsends =>
      obtain rfl := Option.some.inj (hacc.symm.trans hacc')
      have huse : ∀ e ∈ events, e.isUse = true := fun e he => by
        rw [hsends.isUse e he, hisLoad]
        rfl
      have hlast := lastVal_of_not_flagged (hback.opened.mpr hopen) hsends.same huse
        (hsends.tracked hptr hhandled) hf
      exact ⟨not_flagged_of_handleEvents hf, by simp [hlast]⟩

end Runs

/-- A run of accesses to one location, through sensitive variables and in
its width. -/
theorem benign_of_accesses {l : Layout} {c : Code} {sen : List Value} {run : List Action} (x : Loc)
    (hforeign : ∀ addr bytes, .foreign addr bytes ∉ run)
    (h : ∀ a ∈ run, ∀ acc, access? l c a = some acc → acc.ptr ∈ sen ∧ acc.loc = x) :
    Benign l c sen run := by
  intro a ha
  constructor
  · rintro addr bytes rfl
    exact absurd ha (hforeign addr bytes)
  · rintro acc hacc - y ⟨b, hb, acc', hacc', -, rfl⟩ -
    exact ⟨(h a ha acc hacc).1, (h a ha acc hacc).2.trans (h b hb acc' hacc').2.symm⟩

/-- No use is flagged if each tracked load reads what a tracked store has
written last, and in the same window. If none is flagged, each had a
tracked store to its address before it in the window. -/
theorem no_false_alarm {p : Program} {sen : List Value} {c : Code}
    (hc : instrument p sen = some c) {l : Layout} {mem : Mem} {run : List Action} {s : RunState}
    (hrun : foldRun (act l c) (start mem) run = .ok s) (hbenign : Benign l c sen run) :
    (LoadsMeet l c sen (Recorded l c) run → s.flagged = false) ∧
      (s.flagged = false → LoadsMeet l c sen (Stored l c) run) := by
  refine ⟨fun hloads => (run_recording hc hrun hbenign hloads).flagged, ?_⟩
  rintro hf past a rest addr rfl hload
  obtain ⟨s₁, s₂, hpast, hact, hrest⟩ := foldRun_split hrun
  have hf₂ : s₂.flagged = false := by
    cases hflag : s₂.flagged with
    | false => rfl
    | true => exact (flagged_mono hc hrest hflag).symm.trans hf
  have hback := run_backed hc hpast
  obtain ⟨hf₁, hlast⟩ := last_of_trackedLoad hc hback hact hload hf₂
  exact hback.stored hf₁ addr hlast

/-- A layout for accesses to scalars. -/
def scalars : Layout where
  bits
    | .int width => width
    | .floating width => width
    | .ptr _ => 64
    | _ => 0
  int _ := rfl
  ptr _ := rfl

def stepIdx : Value := .global "mLBolusStepIdx"

/-- `mLBolusStepIdx = 5;` and a use of the variable. -/
def useStepIdx : Program :=
  .ofInsts [(.inst "doKeyAction" 0, .store (.int 32) (.constant 5) stepIdx),
    (.inst "doKeyAction" 1, .load (.int 32) stepIdx)] (by decide)

def useStepIdxCode : Code := (instrument useStepIdx [stepIdx]).getD useStepIdx.code

/-- The variable at `4096`, and `val` for all else. -/
def stepIdxEnv (val : Nat) : Env := fun v => if v = stepIdx then 4096 else val

/-- The variable is 3 at the start, as the source has it. -/
def initialMem : Mem := writeBytes (fun _ => 0) 4096 [3, 0, 0, 0]

def storedRun : List Action :=
  [.cfvInit, .exec (.inst "doKeyAction" 0) (stepIdxEnv 5),
    .exec (.inst "doKeyAction" 1) (stepIdxEnv 5)]

/-- The initial value is used. -/
def initialRun : List Action := [.cfvInit, .exec (.inst "doKeyAction" 1) (stepIdxEnv 3)]

theorem no_false_alarm_stored :
    ∃ s, foldRun (act scalars useStepIdxCode) (start initialMem) storedRun = .ok s ∧
      s.flagged = false := by
  have hbenign : Benign scalars useStepIdxCode [stepIdx] storedRun := by
    refine benign_of_accesses ⟨4096, 32⟩ (by simp [storedRun]) fun a ha acc hacc => ?_
    simp only [storedRun, List.mem_cons, List.not_mem_nil, or_false] at ha
    rcases ha with rfl | rfl | rfl
    · cases hacc
    · obtain rfl := Option.some.inj hacc
      exact ⟨by decide, rfl⟩
    · obtain rfl := Option.some.inj hacc
      exact ⟨by decide, rfl⟩
  have hloads : LoadsMeet scalars useStepIdxCode [stepIdx] (Recorded scalars useStepIdxCode)
      storedRun := by
    have hnil : LoadsMeet scalars useStepIdxCode [stepIdx] (Recorded scalars useStepIdxCode) [] :=
      fun past a rest _ hsplit => absurd hsplit (by simp)
    refine loadsMeet_concat.mpr ⟨loadsMeet_concat.mpr ⟨loadsMeet_concat.mpr ⟨hnil, ?_⟩, ?_⟩, ?_⟩
    · rintro addr ⟨-, acc, hacc, -⟩
      cases hacc
    · rintro addr ⟨-, acc, hacc, hload, -⟩
      obtain rfl := Option.some.inj hacc
      cases hload
    · rintro addr ⟨-, acc, hacc, -, -, -, rfl⟩
      obtain rfl := Option.some.inj hacc
      exact since_concat.mpr (.inl ⟨_, rfl, rfl, rfl, .zExt, rfl⟩)
  have hc : instrument useStepIdx [stepIdx] = some useStepIdxCode := rfl
  exact ⟨_, rfl, (no_false_alarm hc rfl hbenign).1 hloads⟩

theorem initial_value_flagged :
    ¬ ∀ (p : Program) (sen : List Value) (c : Code) (l : Layout) (mem : Mem) (run : List Action)
        (s : RunState), instrument p sen = some c → foldRun (act l c) (start mem) run = .ok s →
        Benign l c sen run → s.flagged = false := by
  intro h
  have hbenign : Benign scalars useStepIdxCode [stepIdx] initialRun := by
    refine benign_of_accesses ⟨4096, 32⟩ (by simp [initialRun]) fun a ha acc hacc => ?_
    simp only [initialRun, List.mem_cons, List.not_mem_nil, or_false] at ha
    rcases ha with rfl | rfl
    · cases hacc
    · obtain rfl := Option.some.inj hacc
      exact ⟨by decide, rfl⟩
  cases h useStepIdx [stepIdx] useStepIdxCode scalars initialMem initialRun _ rfl rfl hbenign

end Nova

end Oat
