import Mathlib.Algebra.Group.Int.Defs
import Oat.A64
import Oat.Bytes
import Oat.VeTrace

/-!
# Branch targets from instruction bytes

`get_branch_target` of the verify engine, with the bit array and the
byte conversion it goes through. It takes the first 24 bits of the four
little-endian bytes of the instruction, that is its low 24 bits, as the
signed offset: right for a BL whose 26-bit immediate fits in 24
(`getBranchTarget_bl`).
-/

namespace Oat

namespace Ve

open A64

/-! ## Byte conversion -/

/-- `int(str(data).encode('hex'), 16)`. -/
def beNat (data : List UInt8) : Nat := leNat data.reverse

theorem beNat_cons (d : UInt8) (ds : List UInt8) :
    beNat (d :: ds) = d.toNat * 256 ^ ds.length + beNat ds := by
  rw [beNat, List.reverse_cons, leNat_append, List.length_reverse, leNat, leNat, beNat,
    Nat.mul_zero, Nat.add_zero, Nat.mul_comm, Nat.add_comm]

inductive Endian where
  | big
  | little
deriving Repr, DecidableEq

theorem and_0x80_pos (d : UInt8) : 0 < d &&& 0x80 ↔ 128 ≤ d.toNat := by
  have hall : ∀ n : Fin 256, 0 < UInt8.ofFin n &&& 0x80 ↔ 128 ≤ n.val := by decide +kernel
  exact hall d.toFin

theorem complement_toNat (d : UInt8) : (~~~d).toNat = 255 - d.toNat := UInt8.toNat_not d

/-- `bytes_to_long` on big-endian data. -/
def bytesToLongBig : List UInt8 → Except PyError Int
  | [] => .error .indexError
  | d :: ds =>
      if 0 < d &&& 0x80 then do
        let v ← bytesToLongBig (~~~d :: ds.map (~~~ ·))
        pure (-v - 1)
      else .ok (beNat (d :: ds))
termination_by data => (data.headD 0).toNat
decreasing_by
  rename_i hneg
  have hd := (and_0x80_pos d).mp hneg
  simp only [List.headD_cons, complement_toNat]
  omega

def bytesToLong (data : List UInt8) (endian : Endian) : Except PyError Int :=
  bytesToLongBig (match endian with | .little => data.reverse | .big => data)

/-- Complementing every byte subtracts from the all-ones number. -/
theorem leNat_complement (bs : List UInt8) :
    leNat (bs.map (~~~ ·)) + leNat bs + 1 = 256 ^ bs.length := by
  induction bs with
  | nil => rfl
  | cons b bs ih =>
      have hb := b.toNat_lt
      rw [List.map_cons, leNat, leNat, List.length_cons, Nat.pow_succ, complement_toNat]
      omega

theorem beNat_complement (bs : List UInt8) :
    beNat (bs.map (~~~ ·)) + beNat bs + 1 = 256 ^ bs.length := by
  rw [beNat, beNat, ← List.map_reverse, leNat_complement, List.length_reverse]

/-- `bytes_to_long` reads two's complement. -/
theorem bytesToLongBig_eq (d : UInt8) (ds : List UInt8) :
    bytesToLongBig (d :: ds) = .ok (if 128 ≤ d.toNat
      then (beNat (d :: ds) : Int) - 256 ^ (ds.length + 1) else beNat (d :: ds)) := by
  by_cases hd : 128 ≤ d.toNat
  · have hpos : ¬ 0 < ~~~d &&& 0x80 := by
      rw [and_0x80_pos, complement_toNat]
      omega
    have hsum := beNat_complement (d :: ds)
    rw [List.map_cons, List.length_cons] at hsum
    rw [bytesToLongBig, if_pos ((and_0x80_pos d).mpr hd), bytesToLongBig, if_neg hpos, if_pos hd]
    refine congrArg Except.ok ?_
    have hcast : ((beNat (~~~d :: ds.map (~~~ ·)) + beNat (d :: ds) + 1 : Nat) : Int)
        = 256 ^ (ds.length + 1) := by
      rw [hsum]
      simp
    omega
  · rw [bytesToLongBig, if_neg fun h => hd ((and_0x80_pos d).mp h), if_neg hd]

/-! ## The bit array -/

/-- `bitarray(endian='big').frombytes`. -/
def byteBits (d : UInt8) : List Bool := (List.range 8).map fun k => d.toNat.testBit (7 - k)

def frombytes (data : List UInt8) : List Bool := data.flatMap byteBits

/-- The byte of eight bits, most significant first; missing bits are 0. -/
def bitsByte (bits : List Bool) : UInt8 :=
  UInt8.ofNat ((List.range 8).foldl (fun n k => 2 * n + ((bits.getD k false).toNat)) 0)

def tobytes (bits : List Bool) : List UInt8 := (cut 8 bits).map bitsByte

theorem byteBits_length (d : UInt8) : (byteBits d).length = 8 := by simp [byteBits]

theorem bitsByte_byteBits (d : UInt8) : bitsByte (byteBits d) = d := by
  have hall : ∀ n : Fin 256, bitsByte (byteBits (UInt8.ofFin n)) = UInt8.ofFin n := by
    decide +kernel
  exact hall d.toFin

theorem tobytes_frombytes (data : List UInt8) : tobytes (frombytes data) = data := by
  rw [tobytes, frombytes, cut_flatMap (by decide) byteBits_length, List.map_map]
  exact (List.map_congr_left fun d _ => bitsByte_byteBits d).trans (List.map_id data)

theorem take_frombytes (n : Nat) (data : List UInt8) :
    (frombytes data).take (8 * n) = frombytes (data.take n) := by
  induction data generalizing n with
  | nil => simp [frombytes]
  | cons d data ih =>
      cases n with
      | zero => simp [frombytes]
      | succ n =>
          have hrest := ih n
          simp only [frombytes] at hrest ⊢
          rw [List.flatMap_cons, List.take_succ_cons, List.flatMap_cons, List.take_append,
            byteBits_length, List.take_of_length_le (by rw [byteBits_length]; omega),
            show 8 * (n + 1) - 8 = 8 * n by omega, hrest]

/-! ## `get_branch_target` -/

def getTargetAddress (currentPc offset : Int) : Int := offset * 4 + currentPc

/-- `get_branch_target`, on the address and the bytes of an instruction. -/
def getBranchTarget (address : Int) (bytes : List UInt8) : Except PyError Int := do
  let b := frombytes bytes
  let offset ← bytesToLong (tobytes (b.take 24)) .little
  pure (getTargetAddress address offset)

/-- The signed value of the low 24 bits. -/
def low24 (imm26 : BitVec 26) : Int :=
  if 2 ^ 23 ≤ imm26.toNat % 2 ^ 24 then (imm26.toNat % 2 ^ 24 : Nat) - 2 ^ 24
  else (imm26.toNat % 2 ^ 24 : Nat)

def insnBytes (insn : Insn) : List UInt8 := leBytes 4 insn.encode.toNat

theorem encode_bl_toNat (imm26 : BitVec 26) :
    (Insn.bl imm26).encode.toNat = 0x94000000 + imm26.toNat := by
  have hor := Nat.shiftLeft_add_eq_or_of_lt imm26.isLt 0b100101
  rw [Insn.encode, BitVec.toNat_append]
  exact hor.symm

theorem encode_b_toNat (imm26 : BitVec 26) :
    (Insn.b imm26).encode.toNat = 0x14000000 + imm26.toNat := by
  have hor := Nat.shiftLeft_add_eq_or_of_lt imm26.isLt 0b000101
  rw [Insn.encode, BitVec.toNat_append]
  exact hor.symm

/-- Only the low 24 bits of a word count. -/
theorem getBranchTarget_word (a : Int) {w : Nat} {imm26 : BitVec 26}
    (hw : w % 2 ^ 24 = imm26.toNat % 2 ^ 24) :
    getBranchTarget a (leBytes 4 w) = .ok (a + 4 * low24 imm26) := by
  have hslice : (frombytes (leBytes 4 w)).take 24 = frombytes (leBytes 3 w) := take_frombytes 3 _
  have hvalue : beNat (leBytes 3 w).reverse = imm26.toNat % 2 ^ 24 := by
    rw [beNat, List.reverse_reverse, leNat_leBytes]
    omega
  have hbytes : (leBytes 3 w).reverse
      = [(w / 256 / 256).toUInt8, (w / 256).toUInt8, w.toUInt8] := rfl
  have htop : (w / 256 / 256).toUInt8.toNat = (imm26.toNat % 2 ^ 24) / 2 ^ 16 := by
    simp only [Nat.toUInt8_eq, UInt8.toNat_ofNat']
    omega
  have hoffset : bytesToLong (leBytes 3 w) .little = .ok (low24 imm26) := by
    rw [bytesToLong, hbytes, bytesToLongBig_eq, ← hbytes, hvalue, htop, low24]
    refine congrArg Except.ok ?_
    have hcond : 128 ≤ imm26.toNat % 2 ^ 24 / 2 ^ 16 ↔ 2 ^ 23 ≤ imm26.toNat % 2 ^ 24 := by omega
    have hpow : (256 : Int) ^ (0 + 1 + 1 + 1) = 2 ^ 24 := by decide
    simp only [hcond, List.length_cons, List.length_nil, hpow]
  rw [getBranchTarget, hslice, tobytes_frombytes, hoffset]
  refine congrArg Except.ok ?_
  rw [getTargetAddress]
  omega

/-- The target of a BL as the engine sees it: its low 24 bits. -/
theorem getBranchTarget_low24 (a : Int) (imm26 : BitVec 26) :
    getBranchTarget a (insnBytes (.bl imm26)) = .ok (a + 4 * low24 imm26) := by
  apply getBranchTarget_word
  rw [encode_bl_toNat]
  omega

theorem getBranchTarget_b (a : Int) (imm26 : BitVec 26) :
    getBranchTarget a (insnBytes (.b imm26)) = .ok (a + 4 * low24 imm26) := by
  apply getBranchTarget_word
  rw [encode_b_toNat]
  omega

theorem low24_eq_iff (imm26 : BitVec 26) :
    low24 imm26 = imm26.toInt ↔ -2 ^ 23 ≤ imm26.toInt ∧ imm26.toInt < 2 ^ 23 := by
  have hlt := imm26.isLt
  rw [BitVec.toInt_eq_toNat_cond]
  unfold low24
  split
  · split <;> omega
  · split <;> omega

/-- Where the immediate fits in 24 bits, that is its target. -/
theorem low24_eq {imm26 : BitVec 26} (hlo : -2 ^ 23 ≤ imm26.toInt) (hhi : imm26.toInt < 2 ^ 23) :
    low24 imm26 = imm26.toInt :=
  (low24_eq_iff imm26).mpr ⟨hlo, hhi⟩

theorem getBranchTarget_bl {imm26 : BitVec 26} (hlo : -2 ^ 23 ≤ imm26.toInt)
    (hhi : imm26.toInt < 2 ^ 23) (a : Int) :
    getBranchTarget a (insnBytes (.bl imm26)) = .ok (target a imm26) := by
  rw [getBranchTarget_low24, low24_eq hlo hhi, target]

/-- A B or a BL. -/
def branchTo (link : Bool) (imm26 : BitVec 26) : Insn := if link then .bl imm26 else .b imm26

/-- `get_branch_target` finds the target of a B or BL exactly when the
immediate fits in 24 bits. -/
theorem getBranchTarget_iff (a : Int) (link : Bool) (imm26 : BitVec 26) :
    getBranchTarget a (insnBytes (branchTo link imm26)) = .ok (target a imm26) ↔
      -2 ^ 23 ≤ imm26.toInt ∧ imm26.toInt < 2 ^ 23 := by
  have hread : getBranchTarget a (insnBytes (branchTo link imm26)) = .ok (a + 4 * low24 imm26) := by
    cases link with
    | false => exact getBranchTarget_b a imm26
    | true => exact getBranchTarget_low24 a imm26
  rw [hread, target, ← low24_eq_iff, Except.ok.injEq]
  omega

/-- A BL 32 MB ahead is taken for one 32 MB back. -/
theorem getBranchTarget_far :
    ¬ ∀ (a : Int) (link : Bool) (imm26 : BitVec 26),
      getBranchTarget a (insnBytes (branchTo link imm26)) = .ok (target a imm26) := by
  intro h
  have hfar := (getBranchTarget_low24 0x400000 0x800000#26).symm.trans (h 0x400000 true 0x800000#26)
  revert hfar
  decide

end Ve

end Oat
