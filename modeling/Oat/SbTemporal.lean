import Mathlib.Data.List.Nodup
import Mathlib.Logic.Function.Basic
import Oat.FoldRun
import Oat.SbFreeMap

/-!
# Keys and locks: the temporal checks of SoftBoundCETS

Each allocation gets a key of its own and the address of a lock; a
pointer carries both, and an access goes on if the lock still holds the
key. What is freed gives back its lock: the heap's locks to a free list
that runs through the locks themselves, the locks of a stack frame to a
stack. Blocks of the heap are in the free map as well.

A lock that was given back holds a link, and the lock of a later
allocation the key of that one, so that `temporal_run` has to see that
neither is ever taken for an old key: the check passes exactly for what
has not been freed, and nothing else is freed.
-/

namespace Oat

namespace Sb

/-! ## The code -/

/-- `__softboundcets_key_id_counter` and the pointers into the two areas
of locks, with the words there. -/
structure LockSpace where
  keyIdCounter : BitVec 64
  lockNextLocation : BitVec 64
  lockNewLocation : BitVec 64
  stackTemporalSpaceBegin : BitVec 64
  mem : BitVec 64 → BitVec 64

/-- What a pointer carries. -/
structure KeyLock where
  key : BitVec 64
  lock : BitVec 64
deriving Repr, DecidableEq

namespace LockSpace

/-- The first word of a list of locks is the next one; 0 ends it. -/
def allocateLockLocation (s : LockSpace) : BitVec 64 × LockSpace :=
  if s.lockNextLocation = 0 then
    (s.lockNewLocation, { s with lockNewLocation := s.lockNewLocation + 8 })
  else (s.lockNextLocation, { s with lockNextLocation := s.mem s.lockNextLocation })

def store (s : LockSpace) (lock v : BitVec 64) : LockSpace :=
  { s with mem := Function.update s.mem lock v }

/-- A new key, in a lock. -/
def newKeyLock (s : LockSpace) : KeyLock × LockSpace :=
  let tempId := s.keyIdCounter
  let (lock, s) := { s with keyIdCounter := s.keyIdCounter + 1 }.allocateLockLocation
  (⟨tempId, lock⟩, s.store lock tempId)

/-- It writes through the lock without a test: the one for `NULL` is under
`#if 0`. -/
def memoryDeallocation (s : LockSpace) (ptrLock : BitVec 64) : Except Fault LockSpace :=
  if ptrLock = 0 then .error .null
  else
    let s := s.store ptrLock 0
    .ok { s.store ptrLock s.lockNextLocation with lockNextLocation := ptrLock }

def stackMemoryAllocation (s : LockSpace) : KeyLock × LockSpace :=
  let tempId := s.keyIdCounter
  let lock := s.stackTemporalSpaceBegin
  (⟨tempId, lock⟩,
    { s with keyIdCounter := tempId + 1, stackTemporalSpaceBegin := lock + 8 }.store lock tempId)

def stackMemoryDeallocation (s : LockSpace) : LockSpace :=
  let lock := s.stackTemporalSpaceBegin - 8
  { s with stackTemporalSpaceBegin := lock }.store lock 0

def temporalLoadDereferenceCheck (s : LockSpace) (p : KeyLock) : Bool := s.mem p.lock == p.key

/-- As `__softboundcets_init` leaves it, with the areas at these addresses. -/
def init (heap stack : BitVec 64) : LockSpace := ⟨2, 0, heap, stack, fun _ => 0⟩

end LockSpace

/-- `ptr` is what `malloc` has returned. -/
def memoryAllocation (ptr : BitVec 64) (s : LockSpace) (t : FreeMap) :
    Except Fault (KeyLock × LockSpace × FreeMap) :=
  let (p, s) := s.newKeyLock
  match addToFreeMap p.key ptr t with
  | .ok t => .ok (p, s, t)
  | .error e => .error e

/-- `softboundcets_free`, up to its call of `free`. -/
def softboundcetsFree (ptr : BitVec 64) (p : KeyLock) (s : LockSpace) (t : FreeMap) :
    Except Fault (LockSpace × FreeMap) :=
  if ptr = 0 then .ok (s, t)
  else
    match s.memoryDeallocation p.lock with
    | .error e => .error e
    | .ok s =>
        match checkRemoveFromFreeMap p.key ptr t with
        | .ok t => .ok (s, t)
        | .error e => .error e

/-- `softboundcets_realloc`, when `realloc` has returned `ret`: the key and
the lock stay, and the free map gets the block's new address. -/
def softboundcetsRealloc (ptr : BitVec 64) (p : KeyLock) (ret : BitVec 64) (t : FreeMap) :
    Except Fault (KeyLock × FreeMap) :=
  if ret = ptr then .ok (p, t)
  else
    match checkRemoveFromFreeMap p.key ptr t with
    | .error e => .error e
    | .ok t =>
        match addToFreeMap p.key ret t with
        | .error e => .error e
        | .ok t => .ok (p, t)

/-- Allocations in the order they are made, so that they have numbers;
`free` and `realloc` are those of a pointer into the one with the number. -/
inductive TempOp where
  | allocate (ptr : BitVec 64)
  | free (i : Nat) (ptr : BitVec 64)
  | realloc (i : Nat) (ptr ret : BitVec 64)
  | stackAllocate
  | stackFree
deriving Repr, DecidableEq

/-- The state, and what the pointers into each allocation carry. -/
structure Temp where
  space : LockSpace
  freeMap : FreeMap
  pointers : List KeyLock

def Temp.init (heap stack : BitVec 64) : Temp := ⟨.init heap stack, fun _ => 0, []⟩

def execTemp (s : Temp) : TempOp → Except Fault Temp
  | .allocate ptr =>
      match memoryAllocation ptr s.space s.freeMap with
      | .ok (p, space, freeMap) => .ok ⟨space, freeMap, s.pointers ++ [p]⟩
      | .error e => .error e
  | .free i ptr =>
      match s.pointers[i]? with
      | some p =>
          match softboundcetsFree ptr p s.space s.freeMap with
          | .ok (space, freeMap) => .ok ⟨space, freeMap, s.pointers⟩
          | .error e => .error e
      | none => .error .outside
  | .realloc i ptr ret =>
      match s.pointers[i]? with
      | some p =>
          match softboundcetsRealloc ptr p ret s.freeMap with
          | .ok (p, freeMap) => .ok ⟨s.space, freeMap, s.pointers.set i p⟩
          | .error e => .error e
      | none => .error .outside
  | .stackAllocate =>
      let (p, space) := s.space.stackMemoryAllocation
      .ok ⟨space, s.freeMap, s.pointers ++ [p]⟩
  | .stackFree => .ok { s with space := s.space.stackMemoryDeallocation }

/-! ## What is allocated -/

/-- By number: what the heap has, and the frames of the stack, the newest
first. `made` is the next number. -/
structure Allocated where
  heap : List Nat
  addr : Nat → BitVec 64
  stack : List Nat
  made : Nat

def Allocated.none : Allocated := ⟨[], fun _ => 0, [], 0⟩

/-- What the free map has: keys start at 2. -/
def Allocated.blocks (g : Allocated) : List (Nat × BitVec 64) :=
  g.heap.map fun i => (i + 2, g.addr i)

def nTemporalEntries : Nat := 64 * 1024 * 1024
def nStackTemporalEntries : Nat := 1024 * 64

/-- `malloc` returns an address that no block of the heap has, and none of
the two tags of the free map, and so does `realloc` if it moves a block;
the heap frees what it has, the stack its newest frame. There is room, and
a key is below the addresses of locks. -/
def allocatedStep (lowest : Nat) (g : Allocated) : TempOp → Option Allocated
  | .allocate ptr =>
      if g.heap.length < nFreeMapEntries ∧ g.made + 2 < lowest ∧ ptr ≠ 0 ∧ ptr ≠ 2 ∧
          ptr ∉ g.heap.map g.addr then
        some { g with
          heap := g.made :: g.heap
          addr := Function.update g.addr g.made ptr
          made := g.made + 1 }
      else none
  | .free i ptr =>
      if i ∈ g.heap ∧ g.addr i = ptr then some { g with heap := g.heap.erase i } else none
  | .realloc i ptr ret =>
      if i ∈ g.heap ∧ g.addr i = ptr then
        if ret = ptr then some g
        else if ret ≠ 0 ∧ ret ≠ 2 ∧ ret ∉ g.heap.map g.addr then
          some { g with
            heap := i :: g.heap.erase i
            addr := Function.update g.addr i ret }
        else none
      else none
  | .stackAllocate =>
      if g.stack.length < nStackTemporalEntries ∧ g.made + 2 < lowest then
        some { g with stack := g.made :: g.stack, made := g.made + 1 }
      else none
  | .stackFree =>
      match g.stack with
      | _ :: stack => some { g with stack := stack }
      | [] => none

theorem Allocated.blocks_erase (g : Allocated) (i : Nat) :
    Allocated.blocks { g with heap := g.heap.erase i } = g.blocks.erase (i + 2, g.addr i) := by
  have hinj : Function.Injective fun i => (i + 2, g.addr i) := by
    intro i j hij
    exact Nat.add_right_cancel (Prod.mk.inj hij).1
  exact List.map_erase hinj g.heap

def Allocated.Live (g : Allocated) (i : Nat) : Prop := i ∈ g.heap ∨ i ∈ g.stack

/-- The two areas, apart from each other. -/
structure Areas (heap stack : BitVec 64) : Prop where
  low : 2 ≤ heap.toNat
  heapRoom : heap.toNat + 8 * nTemporalEntries < 2 ^ 64
  stackRoom : stack.toNat + 8 * nStackTemporalEntries < 2 ^ 64
  apart : heap.toNat + 8 * nTemporalEntries ≤ stack.toNat ∨
    stack.toNat + 8 * nStackTemporalEntries ≤ heap.toNat

/-! ## The locks of the two areas -/

theorem LockSpace.newKeyLock_new (s : LockSpace) (h : s.lockNextLocation = 0) :
    s.newKeyLock = (⟨s.keyIdCounter, s.lockNewLocation⟩,
      ⟨s.keyIdCounter + 1, s.lockNextLocation, s.lockNewLocation + 8, s.stackTemporalSpaceBegin,
        Function.update s.mem s.lockNewLocation s.keyIdCounter⟩) := by
  simp only [newKeyLock, allocateLockLocation, if_pos h, store]

theorem LockSpace.newKeyLock_reused (s : LockSpace) (h : s.lockNextLocation ≠ 0) :
    s.newKeyLock = (⟨s.keyIdCounter, s.lockNextLocation⟩,
      ⟨s.keyIdCounter + 1, s.mem s.lockNextLocation, s.lockNewLocation, s.stackTemporalSpaceBegin,
        Function.update s.mem s.lockNextLocation s.keyIdCounter⟩) := by
  simp only [newKeyLock, allocateLockLocation, if_neg h, store]

theorem LockSpace.memoryDeallocation_eq (s : LockSpace) {lock : BitVec 64} (h : lock ≠ 0) :
    s.memoryDeallocation lock = .ok ⟨s.keyIdCounter, lock, s.lockNewLocation,
      s.stackTemporalSpaceBegin, Function.update s.mem lock s.lockNextLocation⟩ := by
  simp only [memoryDeallocation, if_neg h, store, Function.update_idem]

def place (base : BitVec 64) (n : Nat) : BitVec 64 := base + BitVec.ofNat 64 (8 * n)

theorem place_zero (base : BitVec 64) : place base 0 = base := by
  simp [place]

theorem place_succ (base : BitVec 64) (n : Nat) : place base n + 8 = place base (n + 1) := by
  simp only [place, Nat.mul_succ, BitVec.ofNat_add]
  exact BitVec.add_assoc ..

section Areas

variable {heap stack : BitVec 64} (ar : Areas heap stack)
include ar

theorem Areas.heap_toNat {n : Nat} (hn : n ≤ nTemporalEntries) :
    (place heap n).toNat = heap.toNat + 8 * n := by
  have hroom := ar.heapRoom
  have hsmall : 8 * n < 2 ^ 64 := by omega
  rw [place, BitVec.toNat_add, BitVec.toNat_ofNat, Nat.mod_eq_of_lt hsmall,
    Nat.mod_eq_of_lt (by omega)]

theorem Areas.stack_toNat {n : Nat} (hn : n ≤ nStackTemporalEntries) :
    (place stack n).toNat = stack.toNat + 8 * n := by
  have hroom := ar.stackRoom
  have hsmall : 8 * n < 2 ^ 64 := by omega
  rw [place, BitVec.toNat_add, BitVec.toNat_ofNat, Nat.mod_eq_of_lt hsmall,
    Nat.mod_eq_of_lt (by omega)]

theorem Areas.heap_inj {m n : Nat} (hm : m ≤ nTemporalEntries) (hn : n ≤ nTemporalEntries)
    (h : place heap m = place heap n) : m = n := by
  have h := congrArg BitVec.toNat h
  rw [ar.heap_toNat hm, ar.heap_toNat hn] at h
  omega

theorem Areas.stack_inj {m n : Nat} (hm : m ≤ nStackTemporalEntries)
    (hn : n ≤ nStackTemporalEntries) (h : place stack m = place stack n) : m = n := by
  have h := congrArg BitVec.toNat h
  rw [ar.stack_toNat hm, ar.stack_toNat hn] at h
  omega

theorem Areas.heap_ne_stack {m n : Nat} (hm : m < nTemporalEntries)
    (hn : n < nStackTemporalEntries) : place heap m ≠ place stack n := by
  intro h
  have h := congrArg BitVec.toNat h
  rw [ar.heap_toNat hm.le, ar.stack_toNat hn.le] at h
  rcases ar.apart with hapart | hapart <;> omega

end Areas

/-- Locks of the heap, handed out and given back: as many as were ever
taken of the area. -/
structure HeapLocks (heap : BitVec 64) (locks : List (BitVec 64)) : Prop where
  nodup : locks.Nodup
  inArea : ∀ l ∈ locks, ∃ n < locks.length, l = place heap n
  room : locks.length ≤ nTemporalEntries

theorem HeapLocks.perm {heap : BitVec 64} {locks locks' : List (BitVec 64)}
    (h : HeapLocks heap locks) (hperm : locks.Perm locks') : HeapLocks heap locks' := by
  refine ⟨hperm.nodup_iff.mp h.nodup, fun l hl => ?_, hperm.length_eq ▸ h.room⟩
  rw [← hperm.length_eq]
  exact h.inArea l (hperm.mem_iff.mpr hl)

theorem HeapLocks.cons {heap stack : BitVec 64} {locks : List (BitVec 64)}
    (ar : Areas heap stack) (h : HeapLocks heap locks) (hroom : locks.length < nTemporalEntries) :
    HeapLocks heap (place heap locks.length :: locks) := by
  refine ⟨List.nodup_cons.mpr ⟨fun hmem => ?_, h.nodup⟩, fun l hl => ?_, hroom⟩
  · obtain ⟨n, hn, heq⟩ := h.inArea _ hmem
    exact absurd (ar.heap_inj hroom.le (by omega) heq) (by omega)
  · rw [List.length_cons]
    rcases List.mem_cons.mp hl with rfl | hl
    · exact ⟨locks.length, by omega, rfl⟩
    · obtain ⟨n, hn, rfl⟩ := h.inArea l hl
      exact ⟨n, by omega, rfl⟩

/-- The free list, from its head on. -/
def FreeList (mem : BitVec 64 → BitVec 64) : BitVec 64 → List (BitVec 64) → Prop
  | head, [] => head = 0
  | head, l :: ls => head = l ∧ l ≠ 0 ∧ FreeList mem (mem l) ls

theorem FreeList.congr {mem mem' : BitVec 64 → BitVec 64} {head : BitVec 64}
    {ls : List (BitVec 64)} (heq : ∀ l ∈ ls, mem' l = mem l) (h : FreeList mem head ls) :
    FreeList mem' head ls := by
  induction ls generalizing head with
  | nil => exact h
  | cons l ls ih =>
      obtain ⟨rfl, hne, hrest⟩ := h
      refine ⟨rfl, hne, ?_⟩
      rw [heq head (List.mem_cons_self ..)]
      exact ih (fun l hl => heq l (List.mem_cons_of_mem _ hl)) hrest

/-- What the pointers into the allocation carry as their lock. -/
def lockOf (pointers : List KeyLock) (i : Nat) : BitVec 64 :=
  match pointers[i]? with
  | some p => p.lock
  | none => 0

theorem lockOf_eq {pointers : List KeyLock} {i : Nat} {p : KeyLock} (h : pointers[i]? = some p) :
    lockOf pointers i = p.lock := by
  simp only [lockOf, h]

theorem lockOf_append {pointers : List KeyLock} {i : Nat} (hi : i < pointers.length)
    (p : KeyLock) : lockOf (pointers ++ [p]) i = lockOf pointers i := by
  simp only [lockOf, List.getElem?_append_left hi]

theorem lockOf_length (pointers : List KeyLock) (p : KeyLock) :
    lockOf (pointers ++ [p]) pointers.length = p.lock :=
  lockOf_eq (by simp)

/-- The locks of the frames lie one behind the other. -/
def StackLocks (stack : BitVec 64) (pointers : List KeyLock) : List Nat → Prop
  | [] => True
  | i :: is => lockOf pointers i = place stack is.length ∧ StackLocks stack pointers is

theorem StackLocks.mem {stack : BitVec 64} {pointers : List KeyLock} {is : List Nat}
    (h : StackLocks stack pointers is) {i : Nat} (hi : i ∈ is) :
    ∃ n < is.length, lockOf pointers i = place stack n := by
  induction is with
  | nil => cases hi
  | cons j is ih =>
      rw [List.length_cons]
      rcases List.mem_cons.mp hi with rfl | hi
      · exact ⟨is.length, by omega, h.1⟩
      · obtain ⟨n, hn, heq⟩ := ih h.2 hi
        exact ⟨n, by omega, heq⟩

theorem StackLocks.append {stack : BitVec 64} {pointers : List KeyLock} {is : List Nat}
    (h : StackLocks stack pointers is) (hlt : ∀ i ∈ is, i < pointers.length) (p : KeyLock) :
    StackLocks stack (pointers ++ [p]) is := by
  induction is with
  | nil => trivial
  | cons j is ih =>
      refine ⟨?_, ih h.2 fun i hi => hlt i (List.mem_cons_of_mem _ hi)⟩
      rw [lockOf_append (hlt j (List.mem_cons_self ..))]
      exact h.1

/-! ## Keys -/

/-- The lock of what is live holds its key. A word that is nothing's lock
is 0 or an address, and so none that a pointer has as its key. -/
structure Keyed (lowest : Nat) (live : Nat → Prop) (pointers : List KeyLock)
    (mem : BitVec 64 → BitVec 64) : Prop where
  numbers : ∀ i, live i → i < pointers.length
  keys : ∀ i p, pointers[i]? = some p → p.key = BitVec.ofNat 64 (i + 2)
  holds : ∀ i, live i → mem (lockOf pointers i) = BitVec.ofNat 64 (i + 2)
  words : ∀ a, (∃ i, live i ∧ lockOf pointers i = a) ∨ mem a = 0 ∨ lowest ≤ (mem a).toNat

section Keyed

variable {lowest : Nat} {live live' : Nat → Prop} {pointers : List KeyLock}
  {mem : BitVec 64 → BitVec 64} {lock : BitVec 64}

/-- A new key, in a lock of nothing live. -/
theorem Keyed.fresh (h : Keyed lowest live pointers mem)
    (hfresh : ∀ i, live i → lockOf pointers i ≠ lock)
    (hlive : ∀ i, live' i ↔ i = pointers.length ∨ live i) :
    Keyed lowest live' (pointers ++ [⟨BitVec.ofNat 64 (pointers.length + 2), lock⟩])
      (Function.update mem lock (BitVec.ofNat 64 (pointers.length + 2))) := by
  have hold : ∀ i, live i →
      lockOf (pointers ++ [⟨BitVec.ofNat 64 (pointers.length + 2), lock⟩]) i = lockOf pointers i :=
    fun i hi => lockOf_append (h.numbers i hi) _
  have hnew := lockOf_length pointers ⟨BitVec.ofNat 64 (pointers.length + 2), lock⟩
  refine ⟨fun i hi => ?_, fun i p hp => ?_, fun i hi => ?_, fun a => ?_⟩
  · rw [List.length_append, List.length_singleton]
    rcases (hlive i).mp hi with rfl | hi
    · omega
    · have hlt := h.numbers i hi
      omega
  · by_cases hlt : i < pointers.length
    · rw [List.getElem?_append_left hlt] at hp
      exact h.keys i p hp
    · rw [List.getElem?_append_right (by omega), List.getElem?_singleton] at hp
      split at hp
      · rename_i hi
        cases hp
        rw [show i = pointers.length by omega]
      · cases hp
  · rcases (hlive i).mp hi with rfl | hi
    · rw [hnew, Function.update_self]
    · rw [hold i hi, Function.update_of_ne (hfresh i hi)]
      exact h.holds i hi
  · by_cases ha : a = lock
    · exact .inl ⟨pointers.length, (hlive _).mpr (.inl rfl), hnew.trans ha.symm⟩
    · rw [Function.update_of_ne ha]
      refine (h.words a).imp_left ?_
      rintro ⟨i, hi, hlock⟩
      exact ⟨i, (hlive i).mpr (.inr hi), (hold i hi).trans hlock⟩

/-- A lock that is given back, with no key in it. -/
theorem Keyed.drop (h : Keyed lowest live pointers mem) {v : BitVec 64}
    (hv : v = 0 ∨ lowest ≤ v.toNat) (hlive : ∀ i, live' i ↔ live i ∧ lockOf pointers i ≠ lock) :
    Keyed lowest live' pointers (Function.update mem lock v) := by
  refine ⟨fun i hi => h.numbers i ((hlive i).mp hi).1, h.keys, fun i hi => ?_, fun a => ?_⟩
  · obtain ⟨hi, hne⟩ := (hlive i).mp hi
    rw [Function.update_of_ne hne]
    exact h.holds i hi
  · by_cases ha : a = lock
    · subst ha
      rw [Function.update_self]
      exact .inr hv
    · rw [Function.update_of_ne ha]
      refine (h.words a).imp_left ?_
      rintro ⟨i, hi, rfl⟩
      exact ⟨i, (hlive i).mpr ⟨hi, ha⟩, rfl⟩

/-- The check tells what is live from what is not. -/
theorem Keyed.check (h : Keyed lowest live pointers mem) (hlow : pointers.length + 2 ≤ lowest)
    (hword : lowest < 2 ^ 64) {i : Nat} {p : KeyLock} (hp : pointers[i]? = some p) :
    mem p.lock = p.key ↔ live i := by
  have hi : i < pointers.length := (List.getElem?_eq_some_iff.mp hp).1
  have hkey : p.key.toNat = i + 2 := by
    rw [h.keys i p hp, BitVec.toNat_ofNat, Nat.mod_eq_of_lt (by omega)]
  have hlock := lockOf_eq hp
  refine ⟨fun heq => ?_, fun hlive => ?_⟩
  · rcases h.words p.lock with ⟨j, hj, hjlock⟩ | hzero | hhigh
    · have hjlt := h.numbers j hj
      have hjkey : (mem p.lock).toNat = j + 2 := by
        rw [← hjlock, h.holds j hj, BitVec.toNat_ofNat, Nat.mod_eq_of_lt (by omega)]
      rw [heq, hkey] at hjkey
      rwa [show i = j by omega]
    · rw [← heq, hzero] at hkey
      exact absurd hkey.symm (Nat.succ_ne_zero _)
    · rw [heq, hkey] at hhigh
      omega
  · rw [← hlock, h.holds i hlive, h.keys i p hp]

end Keyed

/-! ## Runs -/

/-- The state of the locks is what the allocations say, with `free` the
list of the free ones. -/
structure Keeps (heap stack : BitVec 64) (free : List (BitVec 64)) (g : Allocated) (s : Temp) :
    Prop where
  made : s.pointers.length = g.made
  counter : s.space.keyIdCounter = BitVec.ofNat 64 (g.made + 2)
  below : g.made + 2 ≤ heap.toNat
  keyed : Keyed heap.toNat g.Live s.pointers s.space.mem
  freeMap : s.freeMap.Stores g.blocks
  heapLocks : HeapLocks heap (g.heap.map (lockOf s.pointers) ++ free)
  next : s.space.lockNewLocation = place heap (g.heap.length + free.length)
  freeList : FreeList s.space.mem s.space.lockNextLocation free
  stackRoom : g.stack.length ≤ nStackTemporalEntries
  stackLocks : StackLocks stack s.pointers g.stack
  begin : s.space.stackTemporalSpaceBegin = place stack g.stack.length

theorem keeps_init {heap stack : BitVec 64} (ar : Areas heap stack) :
    Keeps heap stack [] .none (.init heap stack) where
  made := rfl
  counter := rfl
  below := ar.low
  keyed := by
    have hnone : ∀ i, ¬Allocated.none.Live i := by simp [Allocated.Live, Allocated.none]
    exact ⟨fun i hi => absurd hi (hnone i), by simp [Temp.init], fun i hi => absurd hi (hnone i),
      fun _ => .inr (.inl rfl)⟩
  freeMap := Probing.stores_empty 0 2 nFreeMapEntries
  heapLocks := ⟨List.nodup_nil, fun l hl => absurd hl List.not_mem_nil, Nat.zero_le _⟩
  next := (place_zero heap).symm
  freeList := rfl
  stackRoom := Nat.zero_le _
  stackLocks := trivial
  begin := (place_zero stack).symm

section Step

variable {heap stack : BitVec 64} {free : List (BitVec 64)} {g g' : Allocated} {s : Temp}

theorem Keeps.heap_ne_stack (ar : Areas heap stack) (h : Keeps heap stack free g s) {l : BitVec 64}
    (hl : l ∈ g.heap.map (lockOf s.pointers) ++ free) {n : Nat} (hn : n < nStackTemporalEntries) :
    l ≠ place stack n := by
  obtain ⟨m, hm, rfl⟩ := h.heapLocks.inArea l hl
  have hroom := h.heapLocks.room
  exact ar.heap_ne_stack (by omega) hn

theorem mem_heapLocks {i : Nat} (hi : i ∈ g.heap) (pointers : List KeyLock) :
    lockOf pointers i ∈ g.heap.map (lockOf pointers) ++ free :=
  List.mem_append_left _ (List.mem_map_of_mem hi)

/-- The number of the next allocation, on the heap or the stack. -/
theorem Keeps.map_append (h : Keeps heap stack free g s) (p : KeyLock) :
    g.heap.map (lockOf (s.pointers ++ [p])) = g.heap.map (lockOf s.pointers) :=
  List.map_congr_left fun i hi => lockOf_append (h.keyed.numbers i (.inl hi)) p

theorem Keeps.counter_succ (h : Keeps heap stack free g s) :
    s.space.keyIdCounter + 1 = BitVec.ofNat 64 (g.made + 1 + 2) := by
  rw [h.counter, Nat.add_right_comm g.made 1 2, BitVec.ofNat_add (g.made + 2)]
  rfl

theorem Keeps.counter_toNat (h : Keeps heap stack free g s) :
    s.space.keyIdCounter.toNat = g.made + 2 := by
  have hlt := heap.isLt
  have hbelow := h.below
  rw [h.counter, BitVec.toNat_ofNat, Nat.mod_eq_of_lt (by omega)]

/-- The block of the next number, with the others as they are. -/
theorem Keeps.blocks_cons (h : Keeps heap stack free g s) (ptr : BitVec 64) :
    Allocated.blocks { g with
        heap := g.made :: g.heap
        addr := Function.update g.addr g.made ptr
        made := g.made + 1 } = (g.made + 2, ptr) :: g.blocks := by
  simp only [Allocated.blocks, List.map_cons, Function.update_self, List.cons.injEq, true_and]
  refine List.map_congr_left fun i hi => ?_
  have hlt := h.keyed.numbers i (.inl hi)
  rw [h.made] at hlt
  rw [Function.update_of_ne hlt.ne]

/-- What is allocated on the heap gets a lock that `free` or the rest of
the area had. -/
theorem Keeps.allocated (ar : Areas heap stack) (h : Keeps heap stack free g s) {lock : BitVec 64}
    {free' : List (BitVec 64)} (hbelow : g.made + 2 < heap.toNat)
    (hlocks : HeapLocks heap (lock :: (g.heap.map (lockOf s.pointers) ++ free')))
    {next new : BitVec 64} (hnew : new = place heap (g.heap.length + 1 + free'.length))
    (hfree : FreeList s.space.mem next free') {ptr : BitVec 64} {freeMap : FreeMap}
    (hmap : freeMap.Stores ((s.space.keyIdCounter.toNat, ptr) :: g.blocks)) :
    Keeps heap stack free'
      { g with
        heap := g.made :: g.heap
        addr := Function.update g.addr g.made ptr
        made := g.made + 1 }
      ⟨⟨s.space.keyIdCounter + 1, next, new, s.space.stackTemporalSpaceBegin,
        Function.update s.space.mem lock s.space.keyIdCounter⟩, freeMap,
        s.pointers ++ [⟨s.space.keyIdCounter, lock⟩]⟩ := by
  have hmade := h.made
  have hcounter := h.counter
  have hnot := (List.nodup_cons.mp hlocks.nodup).1
  have hfresh : ∀ i, g.Live i → lockOf s.pointers i ≠ lock := by
    rintro i (hi | hi) heq
    · exact hnot (heq ▸ mem_heapLocks hi s.pointers)
    · obtain ⟨n, hn, hplace⟩ := h.stackLocks.mem hi
      obtain ⟨m, hm, hlock⟩ := hlocks.inArea lock (List.mem_cons_self ..)
      have hroom := hlocks.room
      have hstack := h.stackRoom
      exact ar.heap_ne_stack (by omega) (by omega) (hlock.symm.trans (heq.symm.trans hplace))
  have hkeyed : Keyed heap.toNat
      (Allocated.Live { g with
        heap := g.made :: g.heap
        addr := Function.update g.addr g.made ptr
        made := g.made + 1 }) _ _ :=
    h.keyed.fresh hfresh fun i => by simp only [Allocated.Live, List.mem_cons, hmade, or_assoc]
  rw [hmade, ← hcounter] at hkeyed
  refine ⟨by simp [hmade], ?_, hbelow, hkeyed, ?_, ?_, hnew, ?_, h.stackRoom, ?_, h.begin⟩
  · exact h.counter_succ
  · rwa [h.counter_toNat, ← h.blocks_cons ptr] at hmap
  · dsimp only
    rw [List.map_cons, h.map_append, ← hmade, lockOf_length]
    exact hlocks
  · refine hfree.congr fun l hl => Function.update_of_ne ?_ _ _
    rintro rfl
    exact hnot (List.mem_append_right _ hl)
  · exact h.stackLocks.append (fun i hi => h.keyed.numbers i (.inr hi)) _

theorem execTemp_allocate {p : KeyLock} {space : LockSpace} {freeMap : FreeMap} {ptr : BitVec 64}
    (hkey : s.space.newKeyLock = (p, space)) (hadd : addToFreeMap p.key ptr s.freeMap = .ok freeMap) :
    execTemp s (.allocate ptr) = .ok ⟨space, freeMap, s.pointers ++ [p]⟩ := by
  simp only [execTemp, memoryAllocation, hkey, hadd]

theorem Keeps.allocate (ar : Areas heap stack) (h : Keeps heap stack free g s) {ptr : BitVec 64}
    (hstep : allocatedStep heap.toNat g (.allocate ptr) = some g') :
    ∃ s', execTemp s (.allocate ptr) = .ok s' ∧ ∃ free', Keeps heap stack free' g' s' := by
  simp only [allocatedStep] at hstep
  split at hstep
  swap
  · cases hstep
  rename_i hok
  cases hstep
  obtain ⟨hroom, hbelow, hnull, hmark, hnew⟩ := hok
  have hroom' : g.heap.length < nTemporalEntries := hroom.trans (by simp [nFreeMapEntries,
    nTemporalEntries])
  have hlength : (g.heap.map (lockOf s.pointers) ++ free).length = g.heap.length + free.length := by
    rw [List.length_append, List.length_map]
  have haddr : g.blocks.map Prod.snd = g.heap.map g.addr := List.map_map
  have hcount : g.blocks.length < nFreeMapEntries := by
    rw [Allocated.blocks, List.length_map]
    exact hroom
  obtain ⟨freeMap, hadd, hmap⟩ : ∃ t, addToFreeMap s.space.keyIdCounter ptr s.freeMap = .ok t ∧ _ :=
    addToFreeMap_stores h.freeMap hcount hnull hmark (haddr ▸ hnew)
  match free, h with
  | [], h =>
      have hlocks := h.heapLocks.cons ar (by rw [hlength]; exact hroom')
      rw [hlength, ← h.next] at hlocks
      refine ⟨_, execTemp_allocate (s.space.newKeyLock_new h.freeList) hadd, [],
        h.allocated ar hbelow hlocks ?_ h.freeList hmap⟩
      rw [h.next, place_succ]
      rfl
  | lock :: free, h =>
      obtain ⟨rfl, hne, hfree⟩ := h.freeList
      refine ⟨_, execTemp_allocate (s.space.newKeyLock_reused hne) hadd, free,
        h.allocated ar hbelow (h.heapLocks.perm List.perm_middle) ?_ hfree hmap⟩
      rw [h.next, List.length_cons]
      congr 1
      omega

theorem Keeps.key_toNat (h : Keeps heap stack free g s) {i : Nat} {p : KeyLock} (hi : i ∈ g.heap)
    (hp : s.pointers[i]? = some p) : p.key.toNat = i + 2 := by
  have hword := heap.isLt
  have hbelow := h.below
  have hmade := h.made
  have hlt := h.keyed.numbers i (.inl hi)
  rw [h.keyed.keys i p hp, BitVec.toNat_ofNat, Nat.mod_eq_of_lt (by omega)]

theorem Keeps.deallocate (ar : Areas heap stack) (h : Keeps heap stack free g s) {i : Nat}
    {ptr : BitVec 64} (hstep : allocatedStep heap.toNat g (.free i ptr) = some g') :
    ∃ s', execTemp s (.free i ptr) = .ok s' ∧ ∃ free', Keeps heap stack free' g' s' := by
  simp only [allocatedStep] at hstep
  split at hstep
  swap
  · cases hstep
  rename_i hok
  cases hstep
  obtain ⟨hi, rfl⟩ := hok
  have hlt := h.keyed.numbers i (.inl hi)
  obtain ⟨p, hp⟩ : ∃ p, s.pointers[i]? = some p := ⟨_, List.getElem?_eq_getElem hlt⟩
  have hkey := h.key_toNat hi hp
  have hblock : (p.key.toNat, g.addr i) ∈ g.blocks := by
    rw [hkey]
    exact List.mem_map_of_mem hi
  obtain ⟨freeMap, hremove, hmap⟩ := checkRemove_stores h.freeMap hblock
  have hnull := (h.freeMap.value _ hblock).1
  have hlock := lockOf_eq hp
  -- the lock goes from the locks of the heap to those of the free list
  have hperm : (g.heap.map (lockOf s.pointers) ++ free).Perm
      ((g.heap.erase i).map (lockOf s.pointers) ++ p.lock :: free) := by
    refine List.Perm.trans ?_ List.perm_middle.symm
    rw [← hlock, ← List.cons_append, ← List.map_cons]
    exact ((List.perm_cons_erase hi).map _).append_right _
  have hlocks := h.heapLocks.perm hperm
  have hnot := (List.nodup_cons.mp (hlocks.perm List.perm_middle).nodup).1
  have hhead : s.space.lockNextLocation = 0 ∨ heap.toNat ≤ s.space.lockNextLocation.toNat := by
    match free, h with
    | [], h => exact .inl h.freeList
    | l :: _, h =>
        obtain ⟨n, hn, hplace⟩ := h.heapLocks.inArea l (by simp)
        have hroom := h.heapLocks.room
        rw [h.freeList.1, hplace, ar.heap_toNat (by omega)]
        exact .inr (by omega)
  have hlive : ∀ j, Allocated.Live { g with heap := g.heap.erase i } j ↔
      g.Live j ∧ lockOf s.pointers j ≠ p.lock := by
    refine fun j => ⟨?_, ?_⟩
    · rintro (hj | hj)
      · refine ⟨.inl (List.mem_of_mem_erase hj), fun heq => hnot ?_⟩
        exact heq ▸ List.mem_append_left _ (List.mem_map_of_mem hj)
      · obtain ⟨n, hn, hplace⟩ := h.stackLocks.mem hj
        refine ⟨.inr hj, fun heq => h.heap_ne_stack ar (mem_heapLocks hi s.pointers)
          (Nat.lt_of_lt_of_le hn h.stackRoom) ?_⟩
        exact hlock.trans (heq.symm.trans hplace)
    · rintro ⟨hj | hj, hne⟩
      · refine .inl ((List.mem_erase_of_ne ?_).mpr hj)
        rintro rfl
        exact hne hlock
      · exact .inr hj
  have hzero : p.lock ≠ 0 := by
    obtain ⟨n, hn, hplace⟩ := hlocks.inArea p.lock (by simp)
    have hroom := hlocks.room
    have hplace := congrArg BitVec.toNat hplace
    rw [ar.heap_toNat (by omega)] at hplace
    have hlow := ar.low
    rintro heq
    rw [heq] at hplace
    exact absurd hplace (by simp; omega)
  have hexec : execTemp s (.free i (g.addr i)) = .ok ⟨⟨s.space.keyIdCounter, p.lock,
      s.space.lockNewLocation, s.space.stackTemporalSpaceBegin,
      Function.update s.space.mem p.lock s.space.lockNextLocation⟩, freeMap, s.pointers⟩ := by
    simp only [execTemp, hp, softboundcetsFree, if_neg hnull,
      s.space.memoryDeallocation_eq hzero, hremove]
  refine ⟨_, hexec, p.lock :: free, h.made, h.counter, h.below, ?_, ?_, hlocks, ?_,
    ⟨rfl, hzero, ?_⟩, h.stackRoom, h.stackLocks, h.begin⟩
  · exact h.keyed.drop hhead hlive
  · rwa [hkey, ← g.blocks_erase] at hmap
  · have hlength := hperm.length_eq
    simp only [List.length_append, List.length_map] at hlength
    rw [← hlength]
    exact h.next
  · simp only [Function.update_self]
    refine h.freeList.congr fun l hl => Function.update_of_ne ?_ _ _
    rintro rfl
    exact hnot (List.mem_append_right _ hl)

theorem Keeps.heap_nodup (h : Keeps heap stack free g s) : g.heap.Nodup :=
  (h.freeMap.nodup.of_map _).of_map _

/-- The block of a number at another address, with the others as they are. -/
theorem Keeps.blocks_moved (h : Keeps heap stack free g s) (i : Nat) (ret : BitVec 64) :
    Allocated.blocks { g with
        heap := i :: g.heap.erase i
        addr := Function.update g.addr i ret } = (i + 2, ret) :: g.blocks.erase (i + 2, g.addr i) := by
  rw [← g.blocks_erase]
  simp only [Allocated.blocks, List.map_cons, Function.update_self, List.cons.injEq, true_and]
  refine List.map_congr_left fun j hj => ?_
  have hne : j ≠ i := ((List.Nodup.mem_erase_iff h.heap_nodup).mp hj).1
  rw [Function.update_of_ne hne]

theorem Keeps.reallocate (h : Keeps heap stack free g s) {i : Nat} {ptr ret : BitVec 64}
    (hstep : allocatedStep heap.toNat g (.realloc i ptr ret) = some g') :
    ∃ s', execTemp s (.realloc i ptr ret) = .ok s' ∧ ∃ free', Keeps heap stack free' g' s' := by
  simp only [allocatedStep] at hstep
  split at hstep
  swap
  · cases hstep
  rename_i hok
  obtain ⟨hi, rfl⟩ := hok
  have hlt := h.keyed.numbers i (.inl hi)
  obtain ⟨p, hp⟩ : ∃ p, s.pointers[i]? = some p := ⟨_, List.getElem?_eq_getElem hlt⟩
  have hset : s.pointers.set i p = s.pointers := by
    obtain ⟨hlt, rfl⟩ := List.getElem?_eq_some_iff.mp hp
    exact List.set_getElem_self hlt
  split at hstep
  · -- the block stays where it is
    rename_i hsame
    cases hstep
    refine ⟨s, ?_, free, h⟩
    simp only [execTemp, hp, softboundcetsRealloc, if_pos hsame, hset]
  split at hstep
  swap
  · cases hstep
  rename_i hmoved hok
  obtain ⟨hnull, hmark, hnew⟩ := hok
  cases hstep
  have hkey := h.key_toNat hi hp
  have hblock : (p.key.toNat, g.addr i) ∈ g.blocks := by
    rw [hkey]
    exact List.mem_map_of_mem hi
  obtain ⟨t, hremove, hrest⟩ := checkRemove_stores h.freeMap hblock
  have hnew' : ret ∉ (g.blocks.erase (p.key.toNat, g.addr i)).map Prod.snd := by
    intro hmem
    obtain ⟨e, he, rfl⟩ := List.mem_map.mp hmem
    obtain ⟨j, hj, rfl⟩ := List.mem_map.mp (List.mem_of_mem_erase he)
    exact hnew (List.mem_map_of_mem hj)
  have hroom : (g.blocks.erase (p.key.toNat, g.addr i)).length < nFreeMapEntries := by
    have hle := h.freeMap.length_le
    have hpos := List.length_pos_of_mem hblock
    rw [List.length_erase_of_mem hblock]
    omega
  obtain ⟨t', hadd, hmap⟩ : ∃ t', addToFreeMap p.key ret t = .ok t' ∧ _ :=
    addToFreeMap_stores hrest hroom hnull hmark hnew'
  have hperm : g.heap.Perm (i :: g.heap.erase i) := List.perm_cons_erase hi
  have hlive : Allocated.Live { g with
      heap := i :: g.heap.erase i
      addr := Function.update g.addr i ret } = g.Live :=
    funext fun j => propext (or_congr_left hperm.mem_iff.symm)
  refine ⟨⟨s.space, t', s.pointers⟩, ?_, free, h.made, h.counter, h.below, ?_, ?_,
    h.heapLocks.perm ((hperm.map _).append_right _), ?_, h.freeList, h.stackRoom, h.stackLocks,
    h.begin⟩
  · simp only [execTemp, hp, softboundcetsRealloc, if_neg hmoved, hremove, hadd, hset]
  · rw [hlive]
    exact h.keyed
  · rwa [hkey, ← h.blocks_moved] at hmap
  · rw [h.next, hperm.length_eq]

theorem Keeps.stackAllocate (ar : Areas heap stack) (h : Keeps heap stack free g s)
    (hstep : allocatedStep heap.toNat g .stackAllocate = some g') :
    ∃ s', execTemp s .stackAllocate = .ok s' ∧ ∃ free', Keeps heap stack free' g' s' := by
  simp only [allocatedStep] at hstep
  split at hstep
  swap
  · cases hstep
  rename_i hok
  cases hstep
  obtain ⟨hroom, hbelow⟩ := hok
  have hmade := h.made
  have hfresh : ∀ i, g.Live i → lockOf s.pointers i ≠ s.space.stackTemporalSpaceBegin := by
    rw [h.begin]
    rintro i (hi | hi)
    · exact h.heap_ne_stack ar (mem_heapLocks hi s.pointers) hroom
    · obtain ⟨n, hn, hplace⟩ := h.stackLocks.mem hi
      rw [hplace]
      exact fun heq => absurd (ar.stack_inj (by omega) hroom.le heq) (by omega)
  have hkeyed : Keyed heap.toNat
      (Allocated.Live { g with stack := g.made :: g.stack, made := g.made + 1 }) _ _ :=
    h.keyed.fresh hfresh fun i => by simp only [Allocated.Live, List.mem_cons, hmade, or_left_comm]
  rw [hmade, ← h.counter] at hkeyed
  refine ⟨_, rfl, free, by simp [hmade], h.counter_succ, hbelow, hkeyed, h.freeMap, ?_, h.next, ?_,
    hroom,
    ⟨?_, h.stackLocks.append (fun i hi => h.keyed.numbers i (.inr hi)) _⟩, ?_⟩
  · dsimp only
    rw [h.map_append]
    exact h.heapLocks
  · refine h.freeList.congr fun l hl => Function.update_of_ne ?_ _ _
    rw [h.begin]
    exact h.heap_ne_stack ar (List.mem_append_right _ hl) hroom
  · dsimp only
    rw [← hmade, lockOf_length]
    exact h.begin
  · show s.space.stackTemporalSpaceBegin + 8 = _
    rw [h.begin, place_succ]
    rfl

theorem Keeps.stackFree (ar : Areas heap stack) (h : Keeps heap stack free g s)
    (hstep : allocatedStep heap.toNat g .stackFree = some g') :
    ∃ s', execTemp s .stackFree = .ok s' ∧ ∃ free', Keeps heap stack free' g' s' := by
  obtain ⟨heaps, addr, frames, made⟩ := g
  simp only [allocatedStep] at hstep
  split at hstep
  swap
  · cases hstep
  rename_i top frames
  cases hstep
  have hroom : frames.length < nStackTemporalEntries := h.stackRoom
  have hback : s.space.stackTemporalSpaceBegin - 8 = place stack frames.length := by
    rw [h.begin, List.length_cons, ← place_succ]
    exact BitVec.add_sub_cancel _ _
  have hlive : ∀ j, Allocated.Live ⟨heaps, addr, frames, made⟩ j ↔
      Allocated.Live ⟨heaps, addr, top :: frames, made⟩ j ∧
        lockOf s.pointers j ≠ place stack frames.length := by
    refine fun j => ⟨?_, ?_⟩
    · rintro (hj | hj)
      · exact ⟨.inl hj, h.heap_ne_stack ar (mem_heapLocks hj s.pointers) hroom⟩
      · obtain ⟨n, hn, hplace⟩ := h.stackLocks.2.mem hj
        refine ⟨.inr (List.mem_cons_of_mem _ hj), fun heq => ?_⟩
        exact absurd (ar.stack_inj (by omega) hroom.le (hplace.symm.trans heq)) (by omega)
    · rintro ⟨hj | hj, hne⟩
      · exact .inl hj
      · rcases List.mem_cons.mp hj with rfl | hj
        · exact absurd h.stackLocks.1 hne
        · exact .inr hj
  refine ⟨_, rfl, free, h.made, h.counter, h.below, ?_, h.freeMap, h.heapLocks, h.next, ?_,
    hroom.le, h.stackLocks.2, hback⟩
  · simp only [LockSpace.stackMemoryDeallocation, LockSpace.store, hback]
    exact h.keyed.drop (.inl rfl) hlive
  · refine h.freeList.congr fun l hl => Function.update_of_ne ?_ _ _
    rw [hback]
    exact h.heap_ne_stack ar (List.mem_append_right _ hl) hroom

theorem Keeps.step (ar : Areas heap stack) (h : Keeps heap stack free g s) {op : TempOp}
    (hstep : allocatedStep heap.toNat g op = some g') :
    ∃ s', execTemp s op = .ok s' ∧ ∃ free', Keeps heap stack free' g' s' := by
  cases op with
  | allocate ptr => exact h.allocate ar hstep
  | free i ptr => exact h.deallocate ar hstep
  | realloc i ptr ret => exact h.reallocate hstep
  | stackAllocate => exact h.stackAllocate ar hstep
  | stackFree => exact h.stackFree ar hstep

end Step

/-- Over a run that frees what it has, frames in the order of a stack,
with room for the locks: the check of a pointer passes exactly if its
allocation has not been freed, however often locks were used again and
blocks moved. For an address that is not one of a block, nor 0, nor the
mark of the free map, `free` gets to the abort unless it faults at a lock
that is `NULL`; a `realloc` that moves aborts there. And a `realloc` that
fails stops at the assertion of the free map. -/
theorem temporal_run {heap stack : BitVec 64} (ar : Areas heap stack) (ops : List TempOp)
    {g : Allocated} (h : ops.foldlM (allocatedStep heap.toNat) .none = some g) :
    ∃ s, foldRun execTemp (.init heap stack) ops = .ok s ∧
      (∀ i p, s.pointers[i]? = some p →
        (s.space.temporalLoadDereferenceCheck p = true ↔ g.Live i)) ∧
      (∀ ptr p, ptr ≠ 2 → ptr ∉ g.heap.map g.addr →
        (ptr ≠ 0 → softboundcetsFree ptr p s.space s.freeMap =
          .error (if p.lock = 0 then .null else .abort)) ∧
        ∀ ret, ret ≠ ptr → softboundcetsRealloc ptr p ret s.freeMap = .error .abort) ∧
      ∀ i ∈ g.heap, ∀ p, s.pointers[i]? = some p →
        softboundcetsRealloc (g.addr i) p 0 s.freeMap = .error .assertion := by
  obtain ⟨s, hs, free, hkeeps⟩ := foldRun_sim
    (fun op a a' s (hR : ∃ free, Keeps heap stack free a s) hstep => by
      obtain ⟨free, hkeeps⟩ := hR
      exact hkeeps.step ar hstep)
    ⟨[], keeps_init ar⟩ h
  refine ⟨s, hs, fun i p hp => ?_, fun ptr p hmark hnone => ?_, fun i hi p hp => ?_⟩
  · rw [LockSpace.temporalLoadDereferenceCheck, beq_iff_eq]
    refine hkeeps.keyed.check ?_ heap.isLt hp
    rw [hkeeps.made]
    exact hkeeps.below
  · have haddr : g.blocks.map Prod.snd = g.heap.map g.addr := List.map_map
    have habort := checkRemove_unallocated hkeeps.freeMap hmark (haddr ▸ hnone) p.key
    refine ⟨fun hnull => ?_, fun ret hmoved => ?_⟩
    · rw [softboundcetsFree, if_neg hnull]
      by_cases hlock : p.lock = 0
      · simp only [LockSpace.memoryDeallocation, if_pos hlock]
      · simp only [s.space.memoryDeallocation_eq hlock, if_neg hlock, habort]
    · rw [softboundcetsRealloc, if_neg hmoved, habort]
  · have hblock : (p.key.toNat, g.addr i) ∈ g.blocks := by
      rw [hkeeps.key_toNat hi hp]
      exact List.mem_map_of_mem hi
    obtain ⟨t, hremove, -⟩ := checkRemove_stores hkeeps.freeMap hblock
    have hmoved : 0 ≠ g.addr i := (hkeeps.freeMap.value _ hblock).1.symm
    have hassert : addToFreeMap p.key 0 t = .error .assertion := if_pos rfl
    simp only [softboundcetsRealloc, if_neg hmoved, hremove, hassert]

/-- A block that was freed, and a second one that has moved. -/
def freedAndMoved : Allocated where
  heap := [1]
  addr := Function.update (Function.update (Function.update (fun _ => 0) 0 0x5000) 1 0x5000) 1 0x6000
  stack := []
  made := 2

/-- The lock of the first block is that of the second one, with another key. -/
theorem temporal_run_reused :
    ∃ s, foldRun execTemp (.init 0x10000000 0x70000000)
        [.allocate 0x5000, .free 0 0x5000, .allocate 0x5000, .realloc 1 0x5000 0x6000] = .ok s ∧
      (∀ i p, s.pointers[i]? = some p →
        (s.space.temporalLoadDereferenceCheck p = true ↔ freedAndMoved.Live i)) ∧
      (∀ ptr p, ptr ≠ 2 → ptr ∉ freedAndMoved.heap.map freedAndMoved.addr →
        (ptr ≠ 0 → softboundcetsFree ptr p s.space s.freeMap =
          .error (if p.lock = 0 then .null else .abort)) ∧
        ∀ ret, ret ≠ ptr → softboundcetsRealloc ptr p ret s.freeMap = .error .abort) ∧
      ∀ i ∈ freedAndMoved.heap, ∀ p, s.pointers[i]? = some p →
        softboundcetsRealloc (freedAndMoved.addr i) p 0 s.freeMap = .error .assertion :=
  have ar : Areas 0x10000000 0x70000000 := ⟨by simp, by simp [nTemporalEntries],
    by simp [nStackTemporalEntries], .inl (by simp [nTemporalEntries])⟩
  temporal_run ar _ rfl

end Sb

end Oat
