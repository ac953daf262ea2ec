import Mathlib.Algebra.Group.Nat.Defs
import Mathlib.Data.List.Basic
import Mathlib.Data.Nat.Basic
import Mathlib.Tactic.Common

/-!
# Little-endian byte strings

A machine word seen as the bytes it occupies in little-endian memory,
and the way back. `leBytes`/`leNat` are the codec for a word of `n`
bytes; `cut` slices a byte string into pieces of one length, which
inverts a concatenation of fixed-length encodings (`cut_flatMap`).
`readBytes` and `writeBytes` are for byte strings in memory.
-/

namespace Oat

/-! ## One word -/

/-- The low `n` bytes of `x`, least significant first. -/
def leBytes : Nat → Nat → List UInt8
  | 0, _ => []
  | n + 1, x => x.toUInt8 :: leBytes n (x / 256)

/-- The number a little-endian byte string denotes. -/
def leNat : List UInt8 → Nat
  | [] => 0
  | b :: bs => b.toNat + 256 * leNat bs

@[simp] theorem leBytes_length (n x : Nat) : (leBytes n x).length = n := by
  induction n generalizing x with
  | zero => rfl
  | succ n ih => simp [leBytes, ih]

theorem leNat_leBytes (n x : Nat) : leNat (leBytes n x) = x % 256 ^ n := by
  induction n generalizing x with
  | zero => simp [leBytes, leNat, Nat.mod_one]
  | succ n ih =>
      have hb : x.toUInt8.toNat = x % 256 := by simp
      rw [leBytes, leNat, ih, hb, Nat.pow_succ, Nat.mul_comm (256 ^ n), Nat.mod_mul]

theorem leNat_append (xs ys : List UInt8) :
    leNat (xs ++ ys) = leNat xs + 256 ^ xs.length * leNat ys := by
  induction xs with
  | nil => simp [leNat]
  | cons x xs ih =>
      rw [List.cons_append, leNat, leNat, ih, List.length_cons, Nat.pow_succ, Nat.mul_add,
        Nat.mul_left_comm 256, Nat.mul_assoc, Nat.add_assoc]

theorem leNat_lt (bs : List UInt8) : leNat bs < 256 ^ bs.length := by
  induction bs with
  | nil => decide
  | cons b bs ih =>
      have hb := b.toNat_lt
      rw [leNat, List.length_cons, Nat.pow_succ]
      omega

def le64 (x : UInt64) : List UInt8 := leBytes 8 x.toNat

def ofLe64 (bs : List UInt8) : UInt64 := UInt64.ofNat (leNat bs)

@[simp] theorem le64_length (x : UInt64) : (le64 x).length = 8 := leBytes_length 8 _

@[simp] theorem ofLe64_le64 (x : UInt64) : ofLe64 (le64 x) = x := by
  have hx : x.toNat < 256 ^ 8 := x.toNat_lt
  rw [ofLe64, le64, leNat_leBytes, Nat.mod_eq_of_lt hx]
  simp

/-! ## Slicing -/

variable {α β : Type}

/-- Slice a list into pieces of length `n` (the last may be shorter). -/
def cut (n : Nat) (xs : List α) : List (List α) :=
  if _h : n = 0 ∨ xs = [] then [] else xs.take n :: cut n (xs.drop n)
termination_by xs.length
decreasing_by
  have hpos : 0 < xs.length := List.length_pos_iff.mpr fun hx => _h (Or.inr hx)
  have hn : 0 < n := Nat.pos_of_ne_zero fun hn => _h (Or.inl hn)
  simp only [List.length_drop]
  omega

@[simp] theorem cut_nil (n : Nat) : cut n ([] : List α) = [] := by
  rw [cut, dif_pos (Or.inr rfl)]

theorem cut_append {n : Nat} {xs ys : List α} (hn : 0 < n) (hx : xs.length = n) :
    cut n (xs ++ ys) = xs :: cut n ys := by
  have hne : xs ≠ [] := by
    rintro rfl
    simp only [List.length_nil] at hx
    omega
  have hcond : ¬(n = 0 ∨ xs ++ ys = []) := by
    rintro (rfl | h)
    · exact absurd hn (Nat.lt_irrefl 0)
    · exact hne (List.append_eq_nil_iff.mp h).1
  rw [cut, dif_neg hcond, List.take_left' hx, List.drop_left' hx]

/-- Slicing a concatenation of encodings of one length recovers them. -/
theorem cut_flatMap {n : Nat} {enc : α → List β} (hn : 0 < n)
    (hlen : ∀ x, (enc x).length = n) (xs : List α) : cut n (xs.flatMap enc) = xs.map enc := by
  induction xs with
  | nil => simp
  | cons x xs ih => rw [List.flatMap_cons, cut_append hn (hlen x), ih, List.map_cons]

/-- A byte string read as consecutive little-endian `uint64_t`s. -/
def words64 (bs : List UInt8) : List UInt64 := (cut 8 bs).map ofLe64

@[simp] theorem words64_flatMap_le64 (xs : List UInt64) : words64 (xs.flatMap le64) = xs := by
  rw [words64, cut_flatMap (by decide) le64_length, List.map_map]
  exact (List.map_congr_left fun x _ => ofLe64_le64 x).trans (List.map_id xs)

theorem flatMap_le64_eq_nil {xs : List UInt64} : xs.flatMap le64 = [] ↔ xs = [] := by
  cases xs with
  | nil => simp
  | cons x xs => simp [le64, leBytes]

/-! ## In memory -/

section Memory

variable {w : Nat}

/-- Addresses wrap around. -/
def readBytes (mem : BitVec w → UInt8) (a : BitVec w) (n : Nat) : List UInt8 :=
  (List.range n).map fun i => mem (a + BitVec.ofNat w i)

def writeBytes (mem : BitVec w → UInt8) (a : BitVec w) (bs : List UInt8) : BitVec w → UInt8 :=
  fun b => (bs[(b - a).toNat]?).getD (mem b)

/-- One of the `n` bytes at `a` is one of the `m` bytes at `b`. -/
def Overlap (a : BitVec w) (n : Nat) (b : BitVec w) (m : Nat) : Prop :=
  ∃ i < n, (a + BitVec.ofNat w i - b).toNat < m

theorem readBytes_writeBytes_self (mem : BitVec w → UInt8) (a : BitVec w) {bs : List UInt8}
    (h : bs.length ≤ 2 ^ w) : readBytes (writeBytes mem a bs) a bs.length = bs := by
  refine List.ext_getElem (by simp [readBytes]) fun i _ hi => ?_
  have hoff : (a + BitVec.ofNat w i - a).toNat = i := by
    rw [BitVec.add_comm, BitVec.add_sub_cancel, BitVec.toNat_ofNat]
    exact Nat.mod_eq_of_lt (Nat.lt_of_lt_of_le hi h)
  simp only [readBytes, writeBytes, List.getElem_map, List.getElem_range, hoff]
  simp [hi]

theorem readBytes_writeBytes_of_not_overlap (mem : BitVec w → UInt8) {a b : BitVec w} {n : Nat}
    {bs : List UInt8} (h : ¬ Overlap a n b bs.length) :
    readBytes (writeBytes mem b bs) a n = readBytes mem a n := by
  refine List.map_congr_left fun i hi => ?_
  have hge : bs.length ≤ (a + BitVec.ofNat w i - b).toNat :=
    Nat.le_of_not_lt fun hlt => h ⟨i, List.mem_range.mp hi, hlt⟩
  simp only [writeBytes, List.getElem?_eq_none hge, Option.getD_none]

end Memory

end Oat
