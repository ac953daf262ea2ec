import Mathlib.Data.List.Basic
import Mathlib.Logic.Function.Basic

/-!
# The TEE internal API as the measurement TA uses it

Persistent objects, `TEE_Malloc` and the ways a TA can crash. The API
itself is OP-TEE's; what is modelled here is its documented behaviour:

- an object is a byte string under its name; opening it needs it to
  exist, creating it with `TEE_DATA_FLAG_OVERWRITE` (the only way this
  TA creates one) leaves it empty, a write goes to the handle's position
  and extends the object;
- any call may fail: `faults` is the stream of results the storage layer
  imposes on the calls to come, one taken per call, and a call that is
  not made to fail behaves as above;
- a failed call has no effect on the objects.

Closing a handle has no effect on the objects and is not represented.

The second half is the file layer of `hello_world_ta.c`
(`check_file_exists`, `prepare_file`, `append_file`, `save_data`), with
`saveData_of_noFaults` as its specification when no call fails.
-/

namespace Oat

namespace Ta

abbrev TEEResult := UInt32

def teeSuccess : TEEResult := 0x00000000
def teeErrorBadParameters : TEEResult := 0xFFFF0006
def teeErrorItemNotFound : TEEResult := 0xFFFF0008

/-- What C leaves undefined and a TA panics on; `unallocatedBuffer` is an
access to a trace buffer through NULL. -/
inductive Trap where
  | divByZero
  | nullPointer
  | unallocatedBuffer
  | outOfBounds
  | diverges
deriving Repr, DecidableEq

/-! ## Persistent objects -/

/-- The persistent objects and the results imposed on the next calls. -/
structure Store where
  objects : String → Option (List UInt8)
  faults : Nat → TEEResult

/-- An open object: its name and the position of the handle. -/
structure ObjectHandle where
  fname : String
  pos : Nat
deriving Repr, DecidableEq

namespace Store

/-- Take the result imposed on this call. -/
def answer (st : Store) : TEEResult × Store :=
  (st.faults 0, { st with faults := fun n => st.faults (n + 1) })

/-- No storage call is made to fail. -/
def NoFaults (st : Store) : Prop := st.faults = fun _ => teeSuccess

/-- The bytes of an object, none at all when it does not exist. -/
def contents (st : Store) (fname : String) : List UInt8 := (st.objects fname).getD []

def put (st : Store) (fname : String) (bytes : List UInt8) : Store :=
  { st with objects := Function.update st.objects fname (some bytes) }

/-- Extend an object, which starts out empty if it does not exist. -/
def append (st : Store) (fname : String) (bytes : List UInt8) : Store :=
  st.put fname (st.contents fname ++ bytes)

@[simp] theorem put_faults (st : Store) (fname : String) (bytes : List UInt8) :
    (st.put fname bytes).faults = st.faults := rfl

@[simp] theorem put_objects_self (st : Store) (fname : String) (bytes : List UInt8) :
    (st.put fname bytes).objects fname = some bytes := by
  simp [put]

theorem put_objects_of_ne (st : Store) {fname other : String} (h : other ≠ fname)
    (bytes : List UInt8) : (st.put fname bytes).objects other = st.objects other := by
  simp [put, h]

@[simp] theorem put_put (st : Store) (fname : String) (b₁ b₂ : List UInt8) :
    (st.put fname b₁).put fname b₂ = st.put fname b₂ := by
  simp [put]

@[simp] theorem contents_put_self (st : Store) (fname : String) (bytes : List UInt8) :
    (st.put fname bytes).contents fname = bytes := by
  simp [contents]

theorem contents_put_of_ne (st : Store) {fname other : String} (h : other ≠ fname)
    (bytes : List UInt8) : (st.put fname bytes).contents other = st.contents other := by
  simp [contents, put_objects_of_ne st h]

@[simp] theorem contents_append_self (st : Store) (fname : String) (bytes : List UInt8) :
    (st.append fname bytes).contents fname = st.contents fname ++ bytes := by
  simp [append]

theorem contents_append_of_ne (st : Store) {fname other : String} (h : other ≠ fname)
    (bytes : List UInt8) : (st.append fname bytes).contents other = st.contents other :=
  st.contents_put_of_ne h _

theorem NoFaults.append {st : Store} (h : st.NoFaults) (fname : String) (bytes : List UInt8) :
    (st.append fname bytes).NoFaults := h

theorem answer_of_noFaults {st : Store} (h : st.NoFaults) : st.answer = (teeSuccess, st) := by
  obtain ⟨objects, faults⟩ := st
  obtain rfl : faults = fun _ => teeSuccess := h
  rfl

end Store

/-! ## The storage calls -/

def teeOpenPersistentObject (fname : String) (st : Store) :
    Except TEEResult ObjectHandle × Store :=
  let (res, st) := st.answer
  if res ≠ teeSuccess then (.error res, st)
  else
    match st.objects fname with
    | none => (.error teeErrorItemNotFound, st)
    | some _ => (.ok ⟨fname, 0⟩, st)

/-- `TEE_CreatePersistentObject` with `TEE_DATA_FLAG_OVERWRITE` and no
initial data. -/
def teeCreatePersistentObject (fname : String) (st : Store) :
    Except TEEResult ObjectHandle × Store :=
  let (res, st) := st.answer
  if res ≠ teeSuccess then (.error res, st)
  else (.ok ⟨fname, 0⟩, st.put fname [])

/-- `TEE_SeekObjectData(object, 0, TEE_DATA_SEEK_END)`. -/
def teeSeekObjectDataEnd (object : ObjectHandle) (st : Store) :
    Except TEEResult ObjectHandle × Store :=
  let (res, st) := st.answer
  if res ≠ teeSuccess then (.error res, st)
  else (.ok { object with pos := (st.contents object.fname).length }, st)

def teeWriteObjectData (object : ObjectHandle) (data : List UInt8) (st : Store) :
    TEEResult × Store :=
  let (res, st) := st.answer
  if res ≠ teeSuccess then (res, st)
  else
    let old := st.contents object.fname
    (teeSuccess, st.put object.fname
      (old.take object.pos ++ data ++ old.drop (object.pos + data.length)))

/-! ## The file layer of the TA -/

def checkFileExists (filename : String) (st : Store) : Bool × Store :=
  match teeOpenPersistentObject filename st with
  | (.error _, st) => (false, st)
  | (.ok _, st) => (true, st)

def prepareFile (filename : String) (chunk : List UInt8) (st : Store) : TEEResult × Store :=
  match teeCreatePersistentObject filename st with
  | (.error res, st) => (res, st)
  | (.ok object, st) => teeWriteObjectData object chunk st

def appendFile (filename : String) (chunk : List UInt8) (st : Store) : TEEResult × Store :=
  match teeOpenPersistentObject filename st with
  | (.error res, st) => (res, st)
  | (.ok object, st) =>
      match teeSeekObjectDataEnd object st with
      | (.error res, st) => (res, st)
      | (.ok object, st) => teeWriteObjectData object chunk st

def saveData (fname : String) (buf : List UInt8) (st : Store) : TEEResult × Store :=
  match checkFileExists fname st with
  | (false, st) => prepareFile fname buf st
  | (true, st) => appendFile fname buf st

/-! ## The file layer when no call fails -/

theorem checkFileExists_of_noFaults {st : Store} (h : st.NoFaults) (fname : String) :
    checkFileExists fname st = ((st.objects fname).isSome, st) := by
  rw [checkFileExists, teeOpenPersistentObject, Store.answer_of_noFaults h]
  cases hobj : st.objects fname <;> simp [hobj]

theorem prepareFile_of_noFaults {st : Store} (h : st.NoFaults) (fname : String)
    (chunk : List UInt8) : prepareFile fname chunk st = (teeSuccess, st.put fname chunk) := by
  have hput : (st.put fname []).NoFaults := h
  simp [prepareFile, teeCreatePersistentObject, teeWriteObjectData,
    Store.answer_of_noFaults h, Store.answer_of_noFaults hput]

theorem appendFile_of_noFaults {st : Store} (h : st.NoFaults) {fname : String}
    {old : List UInt8} (hobj : st.objects fname = some old) (chunk : List UInt8) :
    appendFile fname chunk st = (teeSuccess, st.put fname (old ++ chunk)) := by
  simp [appendFile, teeOpenPersistentObject, teeSeekObjectDataEnd, teeWriteObjectData,
    Store.answer_of_noFaults h, Store.contents, hobj, List.drop_eq_nil_of_le]

/-- With no fault, saving appends to whatever the object held, creating
it when it did not exist. -/
theorem saveData_of_noFaults {st : Store} (h : st.NoFaults) (fname : String)
    (buf : List UInt8) :
    saveData fname buf st = (teeSuccess, st.append fname buf) := by
  rw [saveData, checkFileExists_of_noFaults h, Store.append]
  cases hobj : st.objects fname with
  | none => simp [prepareFile_of_noFaults h, Store.contents, hobj]
  | some old => simp [appendFile_of_noFaults h hobj, Store.contents, hobj]

end Ta

end Oat
