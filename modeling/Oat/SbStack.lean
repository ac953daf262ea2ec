import Oat.SbMetadata

/-!
# The shadow stack of SoftBoundCETS

A call passes the metadata of its pointer arguments, and gets that of its
result, in a frame of its own: the size of the frame before, the size of
this one, and the fields of each argument. Which fields there are depends
on the build.

The stack is one mapped area, and nothing but the sizes in it says where
its frames are. `shadowStack_run` is the refinement: over any run that
nests, the area stands for a stack of frames, and a field is read back as
it was last stored in its frame, whatever the calls in between did.
-/

namespace Oat

namespace Sb

/-! ## The code -/

/-- What the metadata of a pointer is made of; an index of 10000000 says
that the build has no such field. -/
structure Build where
  numFields : Nat
  baseIndex : Nat
  boundIndex : Nat
  keyIndex : Nat
  lockIndex : Nat
deriving Repr, DecidableEq

def spatial : Build := ⟨2, 0, 1, 10000000, 10000000⟩
def temporal : Build := ⟨2, 10000000, 10000000, 0, 1⟩
def spatialTemporal : Build := ⟨4, 0, 1, 2, 3⟩

def shadowStackEntries : Nat := 128 * 32

/-- The area, and where `__softboundcets_shadow_stack_ptr` is in it. -/
structure ShadowStack where
  mem : Nat → BitVec 64
  ptr : Nat

namespace ShadowStack

/-- As `__softboundcets_init` leaves it. -/
def init : ShadowStack := ⟨fun _ => 0, 0⟩

def get (s : ShadowStack) (i : Nat) : Except Fault (BitVec 64) :=
  if i < shadowStackEntries then .ok (s.mem i) else .error .outside

def set (s : ShadowStack) (i : Nat) (v : BitVec 64) : Except Fault ShadowStack :=
  if i < shadowStackEntries then .ok { s with mem := Function.update s.mem i v }
  else .error .outside

end ShadowStack

def allocateShadowStackSpace (b : Build) (numPointerArgs : Int) (s : ShadowStack) :
    Except Fault ShadowStack := do
  let prevStackSize ← s.get (s.ptr + 1)
  let s := { s with ptr := s.ptr + prevStackSize.toNat + 2 }
  let s ← s.set s.ptr prevStackSize
  s.set (s.ptr + 1) (BitVec.ofInt 64 (numPointerArgs * b.numFields))

def deallocateShadowStackSpace (s : ShadowStack) : Except Fault ShadowStack := do
  let readValue ← s.get s.ptr
  if shadowStackEntries < readValue.toNat then .error .assertion
  else if s.ptr < readValue.toNat + 2 then .error .outside
  else .ok { s with ptr := s.ptr - readValue.toNat - 2 }

/-- The place of a field of an argument, for an argument number that
passes the assertion. -/
def fieldPlace (b : Build) (field argNo : Nat) : Nat := 2 + argNo * b.numFields + field

/-- The loads differ in the field. -/
def loadShadowStack (b : Build) (field : Nat) (argNo : Int) (s : ShadowStack) :
    Except Fault (BitVec 64) :=
  if argNo < 0 then .error .assertion else s.get (s.ptr + fieldPlace b field argNo.toNat)

def loadBaseShadowStack (b : Build) := loadShadowStack b b.baseIndex
def loadBoundShadowStack (b : Build) := loadShadowStack b b.boundIndex
def loadKeyShadowStack (b : Build) := loadShadowStack b b.keyIndex
def loadLockShadowStack (b : Build) := loadShadowStack b b.lockIndex

/-- So do the stores. -/
def storeShadowStack (b : Build) (field : Nat) (v : BitVec 64) (argNo : Int) (s : ShadowStack) :
    Except Fault ShadowStack :=
  if argNo < 0 then .error .assertion else s.set (s.ptr + fieldPlace b field argNo.toNat) v

def storeBaseShadowStack (b : Build) := storeShadowStack b b.baseIndex
def storeBoundShadowStack (b : Build) := storeShadowStack b b.boundIndex
def storeKeyShadowStack (b : Build) := storeShadowStack b b.keyIndex
def storeLockShadowStack (b : Build) := storeShadowStack b b.lockIndex

inductive StackOp where
  | allocate (numPointerArgs : Int)
  | deallocate
  | store (field : Nat) (v : BitVec 64) (argNo : Int)
deriving Repr, DecidableEq

def execStack (b : Build) (s : ShadowStack) : StackOp → Except Fault ShadowStack
  | .allocate numPointerArgs => allocateShadowStackSpace b numPointerArgs s
  | .deallocate => deallocateShadowStackSpace s
  | .store field v argNo => storeShadowStack b field v argNo s

/-! ## Frames -/

/-- A frame as it is meant: its size in words, and what was stored there.
A new frame has not been cleared. -/
structure Frame where
  size : Nat
  slots : Nat → Option (BitVec 64)

def Frame.new (size : Nat) : Frame := ⟨size, fun _ => none⟩

/-- The words the frames take up, with their headers. -/
def frameWords (fs : List Frame) : Nat := (fs.map fun f => f.size + 2).sum

/-- A stack of frames, the newest first. The frame at the bottom belongs
to no call. -/
def frameStep (b : Build) (fs : List Frame) : StackOp → Option (List Frame)
  | .allocate n =>
      let f := Frame.new (n.toNat * b.numFields)
      if 0 ≤ n ∧ frameWords (f :: fs) ≤ shadowStackEntries then some (f :: fs) else none
  | .deallocate =>
      match fs with
      | _ :: g :: fs => some (g :: fs)
      | _ => none
  | .store field v argNo =>
      match fs with
      | f :: fs =>
          let k := argNo.toNat * b.numFields + field
          if 0 ≤ argNo ∧ k < f.size then
            some ({ f with slots := Function.update f.slots k (some v) } :: fs)
          else none
      | [] => none

/-- The size the header of a frame has for the one before. -/
def prevSize : List Frame → Nat
  | [] => 0
  | f :: _ => f.size

/-- The frames lie in the area, each behind those before. -/
def Holds (mem : Nat → BitVec 64) : List Frame → Prop
  | [] => True
  | f :: fs =>
      mem (frameWords fs) = BitVec.ofNat 64 (prevSize fs) ∧
        mem (frameWords fs + 1) = BitVec.ofNat 64 f.size ∧
        (∀ k v, f.slots k = some v → k < f.size ∧ mem (frameWords fs + 2 + k) = v) ∧ Holds mem fs

@[simp] theorem frameWords_cons (f : Frame) (fs : List Frame) :
    frameWords (f :: fs) = f.size + 2 + frameWords fs := by
  simp [frameWords]

theorem holds_congr {mem mem' : Nat → BitVec 64} {fs : List Frame}
    (h : ∀ i < frameWords fs, mem' i = mem i) (hold : Holds mem fs) : Holds mem' fs := by
  induction fs with
  | nil => trivial
  | cons f fs ih =>
      obtain ⟨hprev, hsize, hslots, hrest⟩ := hold
      rw [frameWords_cons] at h
      refine ⟨by rw [h _ (by omega), hprev], by rw [h _ (by omega), hsize], fun k v hk => ?_,
        ih (fun i hi => h i (by omega)) hrest⟩
      obtain ⟨hlt, hv⟩ := hslots k v hk
      exact ⟨hlt, by rw [h _ (by omega), hv]⟩

/-- A store into the frame on top. -/
theorem holds_store {mem : Nat → BitVec 64} {f : Frame} {fs : List Frame} {k : Nat}
    (hk : k < f.size) (v : BitVec 64) (h : Holds mem (f :: fs)) :
    Holds (Function.update mem (frameWords fs + 2 + k) v)
      ({ f with slots := Function.update f.slots k (some v) } :: fs) := by
  obtain ⟨hprev, hsize, hslots, hrest⟩ := h
  refine ⟨?_, ?_, fun j w hw => ?_, holds_congr (fun i hi => ?_) hrest⟩
  · rw [Function.update_of_ne (by omega), hprev]
  · rw [Function.update_of_ne (by omega), hsize]
  · dsimp only at hw
    by_cases heq : j = k
    · subst heq
      rw [Function.update_self] at hw
      exact ⟨hk, by rw [Function.update_self, Option.some.inj hw]⟩
    · rw [Function.update_of_ne heq] at hw
      obtain ⟨hlt, hv⟩ := hslots j w hw
      exact ⟨hlt, by rw [Function.update_of_ne (by omega), hv]⟩
  · rw [Function.update_of_ne (by omega)]

/-- A new frame behind the others. -/
theorem holds_push {mem : Nat → BitVec 64} {fs : List Frame} (size : Nat) (h : Holds mem fs) :
    Holds (Function.update (Function.update mem (frameWords fs) (BitVec.ofNat 64 (prevSize fs)))
      (frameWords fs + 1) (BitVec.ofNat 64 size)) (.new size :: fs) := by
  refine ⟨?_, Function.update_self .., fun k v hk => ?_, holds_congr (fun i hi => ?_) h⟩
  · rw [Function.update_of_ne (by omega), Function.update_self]
  · cases hk
  · rw [Function.update_of_ne (by omega), Function.update_of_ne (by omega)]

/-- The area stands for the frames. -/
structure Stands (fs : List Frame) (s : ShadowStack) : Prop where
  bottom : fs ≠ []
  ptr : s.ptr = frameWords fs.tail
  room : frameWords fs ≤ shadowStackEntries
  holds : Holds s.mem fs

theorem stands_init : Stands [.new 0] .init := by
  refine ⟨by simp, rfl, by decide, rfl, rfl, fun k v hk => ?_, trivial⟩
  cases hk

section Step

variable {b : Build} {fs fs' : List Frame} {s : ShadowStack}

theorem ShadowStack.get_eq {i : Nat} (hi : i < shadowStackEntries) : s.get i = .ok (s.mem i) :=
  if_pos hi

theorem ShadowStack.set_eq {i : Nat} (hi : i < shadowStackEntries) (v : BitVec 64) :
    s.set i v = .ok { s with mem := Function.update s.mem i v } := if_pos hi

theorem toNat_small {n : Nat} (h : n ≤ shadowStackEntries) : (BitVec.ofNat 64 n).toNat = n := by
  rw [BitVec.toNat_ofNat]
  have hsmall : shadowStackEntries < 2 ^ 64 := by decide
  exact Nat.mod_eq_of_lt (by omega)

theorem Stands.allocate (h : Stands fs s) {n : Int}
    (hstep : frameStep b fs (.allocate n) = some fs') :
    ∃ s', allocateShadowStackSpace b n s = .ok s' ∧ Stands fs' s' := by
  obtain ⟨hbottom, hptr, hroom, hholds⟩ := h
  obtain ⟨f, fs, rfl⟩ := List.exists_cons_of_ne_nil hbottom
  simp only [frameStep] at hstep
  split at hstep
  swap
  · cases hstep
  rename_i hok
  cases hstep
  obtain ⟨hn, hfit⟩ := hok
  have hprev : s.mem (s.ptr + 1) = BitVec.ofNat 64 f.size := by
    rw [hptr]
    exact hholds.2.1
  have hprevNat : (s.mem (s.ptr + 1)).toNat = f.size := by
    rw [hprev, toNat_small]
    simp only [frameWords_cons] at hroom
    omega
  have hnew : s.ptr + (s.mem (s.ptr + 1)).toNat + 2 = frameWords (f :: fs) := by
    rw [hprevNat, hptr, frameWords_cons]
    simp only [List.tail_cons]
    omega
  have hsize : BitVec.ofInt 64 (n * b.numFields) = BitVec.ofNat 64 (n.toNat * b.numFields) := by
    obtain ⟨m, rfl⟩ := Int.eq_ofNat_of_zero_le hn
    exact BitVec.ofInt_natCast 64 (m * b.numFields)
  have hroom' : n.toNat * b.numFields + 2 + frameWords (f :: fs) ≤ shadowStackEntries := hfit
  have hget : s.get (s.ptr + 1) = .ok (s.mem (s.ptr + 1)) := s.get_eq (by omega)
  refine ⟨⟨_, frameWords (f :: fs)⟩, ?_, by simp, rfl, hfit,
    holds_push (n.toNat * b.numFields) hholds⟩
  · unfold allocateShadowStackSpace
    simp only [hget, bind, Except.bind, hnew, hsize]
    rw [hprev, ShadowStack.set_eq (by omega)]
    dsimp only
    exact ShadowStack.set_eq (by omega) _

theorem Stands.deallocate (h : Stands fs s) (hstep : frameStep b fs .deallocate = some fs') :
    ∃ s', deallocateShadowStackSpace s = .ok s' ∧ Stands fs' s' := by
  obtain ⟨-, hptr, hroom, hholds⟩ := h
  simp only [frameStep] at hstep
  split at hstep
  swap
  · cases hstep
  rename_i f g fs
  cases hstep
  simp only [List.tail_cons, frameWords_cons] at hptr hroom
  have hread : s.mem s.ptr = BitVec.ofNat 64 g.size := by
    rw [hptr, ← frameWords_cons]
    exact hholds.1
  have hreadNat : (s.mem s.ptr).toNat = g.size := by
    rw [hread, toNat_small (by omega)]
  refine ⟨⟨s.mem, frameWords fs⟩, ?_, by simp, rfl, ?_, hholds.2.2.2⟩
  · have hget : s.get s.ptr = .ok (s.mem s.ptr) := s.get_eq (by omega)
    have hback : s.ptr - g.size - 2 = frameWords fs := by omega
    unfold deallocateShadowStackSpace
    simp only [hget, bind, Except.bind, hreadNat]
    rw [if_neg (by omega), if_neg (by omega), hback]
  · simp only [frameWords_cons]
    omega

theorem Stands.store (h : Stands fs s) {field : Nat} {v : BitVec 64} {argNo : Int}
    (hstep : frameStep b fs (.store field v argNo) = some fs') :
    ∃ s', storeShadowStack b field v argNo s = .ok s' ∧ Stands fs' s' := by
  obtain ⟨hbottom, hptr, hroom, hholds⟩ := h
  obtain ⟨f, fs, rfl⟩ := List.exists_cons_of_ne_nil hbottom
  simp only [frameStep] at hstep
  split at hstep
  swap
  · cases hstep
  rename_i hok
  cases hstep
  obtain ⟨harg, hk⟩ := hok
  simp only [List.tail_cons] at hptr
  simp only [frameWords_cons] at hroom
  have hplace : s.ptr + fieldPlace b field argNo.toNat =
      frameWords fs + 2 + (argNo.toNat * b.numFields + field) := by
    rw [hptr, fieldPlace]
    omega
  refine ⟨⟨Function.update s.mem (frameWords fs + 2 + (argNo.toNat * b.numFields + field)) v, s.ptr⟩,
    ?_, by simp, hptr, by simpa only [frameWords_cons] using hroom, ?_⟩
  · unfold storeShadowStack
    rw [if_neg (by omega), hplace, ShadowStack.set_eq (by omega)]
  · exact holds_store hk v hholds

theorem Stands.step (h : Stands fs s) {op : StackOp} (hstep : frameStep b fs op = some fs') :
    ∃ s', execStack b s op = .ok s' ∧ Stands fs' s' := by
  cases op with
  | allocate n => exact h.allocate hstep
  | deallocate => exact h.deallocate hstep
  | store field v argNo => exact h.store hstep

/-- A field that was stored is loaded. -/
theorem Stands.load {f : Frame} (h : Stands (f :: fs) s) {field : Nat} {argNo : Int}
    (harg : 0 ≤ argNo) {v : BitVec 64} (hv : f.slots (argNo.toNat * b.numFields + field) = some v) :
    loadShadowStack b field argNo s = .ok v := by
  obtain ⟨-, hptr, hroom, -, -, hslots, -⟩ := h
  obtain ⟨hlt, hmem⟩ := hslots _ _ hv
  simp only [List.tail_cons] at hptr
  simp only [frameWords_cons] at hroom
  have hplace : s.ptr + fieldPlace b field argNo.toNat =
      frameWords fs + 2 + (argNo.toNat * b.numFields + field) := by
    rw [hptr, fieldPlace]
    omega
  unfold loadShadowStack
  rw [if_neg (by omega), hplace, ShadowStack.get_eq (by omega), hmem]

end Step

/-- Over a run of nested calls that have room, and that store to fields
of their arguments only, the area stands for the frames: what was last
stored in the frame on top is what is loaded. -/
theorem shadowStack_run (b : Build) (ops : List StackOp) {f : Frame} {fs : List Frame}
    (h : ops.foldlM (frameStep b) [.new 0] = some (f :: fs)) :
    ∃ s, foldRun (execStack b) .init ops = .ok s ∧ s.ptr = frameWords fs ∧
      ∀ field argNo v, 0 ≤ argNo → f.slots (argNo.toNat * b.numFields + field) = some v →
        loadShadowStack b field argNo s = .ok v := by
  obtain ⟨s, hs, hstands⟩ :=
    foldRun_sim (fun x a a' s hR hstep => hR.step hstep) stands_init h
  exact ⟨s, hs, hstands.ptr, fun field argNo v harg hv => hstands.load harg hv⟩

/-- The base of an argument, after a call from the callee that stored to
the same place of its own frame. -/
theorem shadowStack_run_nested :
    ∃ s, foldRun (execStack spatial) .init
        [.allocate 1, .store 0 7 0, .allocate 2, .store 0 9 0, .deallocate] = .ok s ∧
      loadBaseShadowStack spatial 0 s = .ok 7 := by
  obtain ⟨s, hs, -, hload⟩ := shadowStack_run spatial
    [.allocate 1, .store 0 7 0, .allocate 2, .store 0 9 0, .deallocate] rfl
  exact ⟨s, hs, hload 0 0 7 (Int.le_refl 0) rfl⟩

end Sb

end Oat
