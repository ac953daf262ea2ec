import Oat.VeCondTargets

/-!
# Encoding a call: `new_branch_with_link_instruction`

The legacy instrumenter builds the BL to a hook bit by bit: the opcode,
the low 24 bits of the offset, and for the two bits left the first two
of the fourth offset byte, by its own comment a guess. Those are the top
bits of the 32-bit offset, not bits 24 and 25; they agree as long as the
hook is within 64 MB (`newBranchWithLinkInstruction_iff`).
-/

namespace Oat

namespace Ve

open A64

/-! ## `long_to_bytes` -/

/-- `'%0<width>x' % n`, for `n` below `16 ^ width`, as the values of the
digits. -/
def hexDigits : Nat → Nat → List Nat
  | 0, _ => []
  | width + 1, n => hexDigits width (n / 16) ++ [n % 16]

/-- `binascii.unhexlify`; it raises on an odd number of digits. -/
def unhexlify : List Nat → Option (List UInt8)
  | [] => some []
  | [_] => none
  | hi :: lo :: rest => (unhexlify rest).map ((16 * hi + lo).toUInt8 :: ·)

def longToBytes (value : Int) (width : Nat) (endian : Endian) : Option (List UInt8) :=
  let s := unhexlify (hexDigits width ((value + 2 ^ (width * 4)) % 2 ^ (width * 4)).toNat)
  match endian with
  | .little => s.map List.reverse
  | .big => s

theorem unhexlify_append (ds : List Nat) (hi lo : Nat) :
    unhexlify (ds ++ [hi, lo]) = (unhexlify ds).map (· ++ [(16 * hi + lo).toUInt8]) := by
  fun_induction unhexlify ds with
  | case1 => rfl
  | case2 d => rfl
  | case3 d₁ d₂ rest ih =>
      rw [List.cons_append, List.cons_append, unhexlify, ih, Option.map_map, Option.map_map]
      rfl

/-- The digits of a number, two by two, are its bytes. -/
theorem unhexlify_hexDigits (k n : Nat) :
    unhexlify (hexDigits (2 * k) n) = some (leBytes k n).reverse := by
  induction k generalizing n with
  | zero => rfl
  | succ k ih =>
      have hdigits : hexDigits (2 * (k + 1)) n =
          hexDigits (2 * k) (n / 256) ++ [n / 16 % 16, n % 16] := by
        rw [show 2 * (k + 1) = 2 * k + 1 + 1 by omega, hexDigits, hexDigits, Nat.div_div_eq_div_mul,
          List.append_assoc]
        rfl
      have hbyte : (16 * (n / 16 % 16) + n % 16).toUInt8 = n.toUInt8 := by
        apply UInt8.toNat_inj.mp
        simp only [Nat.toUInt8_eq, UInt8.toNat_ofNat']
        omega
      rw [hdigits, unhexlify_append, ih, hbyte, leBytes, List.reverse_cons]
      rfl

theorem longToBytes_little (value : Int) (k : Nat) :
    longToBytes value (2 * k) .little = some (leBytes k (value % 2 ^ (8 * k)).toNat) := by
  have hwidth : 2 * k * 4 = 8 * k := by omega
  simp only [longToBytes, unhexlify_hexDigits, hwidth, Int.add_emod_right, Option.map_some,
    List.reverse_reverse]

/-! ## `new_branch_with_link_instruction` -/

def getTargetOffset (currentPc target : Int) : Int := (target - currentPc) / 4

/-- `bits[i:j] = new`. -/
def setSlice (bits : List Bool) (i j : Nat) (new : List Bool) : List Bool :=
  bits.take i ++ new ++ bits.drop j

/-- `new_branch_with_link_instruction`, for the instruction at `pc`. -/
def newBranchWithLinkInstruction (pc target : Int) : Option (List UInt8) := do
  let bits := List.replicate 32 false
  let immt := List.replicate 32 false
  let bits := setSlice bits 24 30 [true, false, false, true, false, true]
  let offset ← longToBytes (getTargetOffset pc target) 8 .little
  let immt := setSlice immt 0 32 (frombytes offset)
  let bits := setSlice bits 0 24 (slice immt 0 24)
  let bits := setSlice bits 30 32 (slice immt 24 26)
  pure (tobytes bits)

/-- The instruction bytes are a BL that leads from `pc` to `target`. -/
def Calls (pc t : Int) (bytes : Option (List UInt8)) : Prop :=
  ∃ imm26, bytes = some (insnBytes (.bl imm26)) ∧ target pc imm26 = t

/-- The offset modulo 2 ^ 32. -/
def offset32 (pc t : Int) : Nat := (getTargetOffset pc t % 2 ^ 32).toNat

/-- The fourth byte: the opcode and two bits of the offset. -/
theorem callByte_toNat (d : UInt8) :
    (bitsByte ([true, false, false, true, false, true] ++ (byteBits d).take 2)).toNat
      = 0x94 + d.toNat / 64 := by
  have hall : ∀ n : Fin 256,
      (bitsByte ([true, false, false, true, false, true] ++ (byteBits (UInt8.ofFin n)).take 2)).toNat
        = 0x94 + n.val / 64 := by decide +kernel
  exact hall d.toFin

/-- The word that comes out: the top two bits of the offset, and its low
24 bits. -/
def callWord (offset : Nat) : Nat :=
  0x94000000 + offset / 2 ^ 30 % 4 * 2 ^ 24 + offset % 2 ^ 24

theorem newBranchWithLinkInstruction_eq (pc t : Int) :
    newBranchWithLinkInstruction pc t = some (leBytes 4 (callWord (offset32 pc t))) := by
  have hoffset : longToBytes (getTargetOffset pc t) 8 .little
      = some (leBytes 4 (offset32 pc t)) := longToBytes_little _ 4
  generalize offset32 pc t = n at hoffset ⊢
  have hbytes (n : Nat) : leBytes 4 n = [n.toUInt8, (n / 256).toUInt8, (n / 256 / 256).toUInt8,
    (n / 256 / 256 / 256).toUInt8] := rfl
  have hrun : newBranchWithLinkInstruction pc t = some (tobytes
      (byteBits n.toUInt8 ++ (byteBits (n / 256).toUInt8 ++ (byteBits (n / 256 / 256).toUInt8 ++
        ([true, false, false, true, false, true] ++
          (byteBits (n / 256 / 256 / 256).toUInt8).take 2))))) := by
    unfold newBranchWithLinkInstruction
    rw [hoffset, hbytes]
    rfl
  have hlast : ([true, false, false, true, false, true] ++
      (byteBits (n / 256 / 256 / 256).toUInt8).take 2).length = 8 := rfl
  rw [hrun, tobytes_append (byteBits_length _), tobytes_append (byteBits_length _),
    tobytes_append (byteBits_length _), tobytes_byte hlast, hbytes, bitsByte_byteBits,
    bitsByte_byteBits, bitsByte_byteBits]
  refine congrArg some ?_
  have hlow (m k : Nat) (h : m % 256 = k % 256) : m.toUInt8 = k.toUInt8 := by
    apply UInt8.toNat_inj.mp
    simpa only [Nat.toUInt8_eq, UInt8.toNat_ofNat'] using h
  have htop : bitsByte ([true, false, false, true, false, true] ++
      (byteBits (n / 256 / 256 / 256).toUInt8).take 2)
        = (callWord n / 256 / 256 / 256).toUInt8 := by
    apply UInt8.toNat_inj.mp
    rw [callByte_toNat]
    simp only [Nat.toUInt8_eq, UInt8.toNat_ofNat', callWord]
    omega
  rw [htop, hlow n (callWord n) (by unfold callWord; omega),
    hlow (n / 256) (callWord n / 256) (by unfold callWord; omega),
    hlow (n / 256 / 256) (callWord n / 256 / 256) (by unfold callWord; omega)]

theorem leBytes_inj {k m n : Nat} (hm : m < 256 ^ k) (hn : n < 256 ^ k)
    (h : leBytes k m = leBytes k n) : m = n := by
  have hnum := congrArg leNat h
  rwa [leNat_leBytes, leNat_leBytes, Nat.mod_eq_of_lt hm, Nat.mod_eq_of_lt hn] at hnum

/-- A BL is a call from `pc` to `t` exactly when its immediate is the
offset. -/
theorem calls_leBytes_iff {pc t : Int} (h4 : 4 ∣ t - pc) {w : Nat} (hw : w < 2 ^ 32) :
    Calls pc t (some (leBytes 4 w)) ↔
      ∃ imm26 : BitVec 26, w = 0x94000000 + imm26.toNat ∧ getTargetOffset pc t = imm26.toInt := by
  unfold Calls insnBytes
  simp only [encode_bl_toNat, Option.some.injEq]
  refine exists_congr fun imm26 => and_congr ⟨fun h => ?_, fun h => by rw [h]⟩ ?_
  · have himm := imm26.isLt
    exact leBytes_inj hw (by omega) h
  · rw [target, getTargetOffset]
    omega

/-- The BL to a hook leads there exactly when it is within 64 MB. -/
theorem newBranchWithLinkInstruction_iff (pc t : Int) (h4 : 4 ∣ t - pc) (hlo : -2 ^ 27 ≤ t - pc)
    (hhi : t - pc < 2 ^ 27) :
    Calls pc t (newBranchWithLinkInstruction pc t) ↔ -2 ^ 26 ≤ t - pc ∧ t - pc < 2 ^ 26 := by
  have hword : callWord (offset32 pc t) < 2 ^ 32 := by
    unfold callWord
    omega
  rw [newBranchWithLinkInstruction_eq, calls_leBytes_iff h4 hword]
  constructor
  · rintro ⟨imm26, hw, himm⟩
    have hlt := imm26.isLt
    rw [BitVec.toInt_eq_toNat_cond] at himm
    unfold callWord offset32 at hw
    unfold getTargetOffset at *
    split at himm <;> omega
  · rintro ⟨hlo', hhi'⟩
    refine ⟨BitVec.ofInt 26 (getTargetOffset pc t), ?_, ?_⟩
    · have hoffset : (offset32 pc t : Int) = (t - pc) / 4 ∧ offset32 pc t < 2 ^ 31 ∨
          (offset32 pc t : Int) = (t - pc) / 4 + 2 ^ 32 ∧ offset32 pc t < 2 ^ 32 := by
        unfold offset32 getTargetOffset
        omega
      rw [BitVec.toNat_ofInt]
      unfold callWord getTargetOffset
      omega
    · rw [BitVec.toInt_ofInt, Int.bmod_eq_of_le]
      · unfold getTargetOffset
        omega
      · unfold getTargetOffset
        omega

/-- The test case of `play_with_bits_a64.py`. -/
theorem newBranchWithLinkInstruction_near :
    Calls 0x4001a0 0x400ec0 (newBranchWithLinkInstruction 0x4001a0 0x400ec0) :=
  (newBranchWithLinkInstruction_iff 0x4001a0 0x400ec0 (by decide) (by decide) (by decide)).mpr
    (by decide)

/-- A hook 64 MB ahead is missed. -/
theorem newBranchWithLinkInstruction_far :
    ¬ ∀ pc t : Int, 4 ∣ t - pc → -2 ^ 27 ≤ t - pc → t - pc < 2 ^ 27 →
      Calls pc t (newBranchWithLinkInstruction pc t) := by
  intro h
  have hcalls := h 0x400000 0x4400000 (by decide) (by decide) (by decide)
  rw [newBranchWithLinkInstruction_eq, calls_leBytes_iff (by decide) (by decide)] at hcalls
  obtain ⟨imm26, hw, himm⟩ := hcalls
  have hlow : imm26 = 0#26 := by
    apply BitVec.eq_of_toNat_eq
    have : callWord (offset32 0x400000 0x4400000) = 0x94000000 := by decide
    simp
    omega
  rw [hlow] at himm
  revert himm
  decide

end Ve

end Oat
