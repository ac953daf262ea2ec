import Oat.VeCondTargets

/-!
# Test-branch targets from instruction bytes

`get_tb_target` puts the 14-bit immediate of a TBZ or TBNZ together from
three slices of the bit array, with two sign bits in front. The third
slice has three bits, and the sign is its first, so unlike its
conditional sibling it reads the sign bit of the field
(`getTbTarget_eq`).
-/

namespace Oat

namespace Ve

open A64

/-- `get_tb_target`, on the address and the bytes of an instruction. -/
def getTbTarget (address : Int) (bytes : List UInt8) : Except PyError Int := do
  let b := frombytes bytes
  let x := slice b 0 3
  let y := slice b 8 16
  let z := slice b 21 24
  match b[21]? with
  | none => .error .indexError
  | some sign =>
      let addr := List.replicate 2 sign ++ z ++ y ++ x
      let newaddr := slice addr 8 16 ++ slice addr 0 8
      let offset ← bytesToLong (tobytes newaddr) .little
      pure (getTargetAddress address offset)

/-- `get_tbz_target`, the first version of it. -/
def getTbzTarget (address : Int) (bytes : List UInt8) : Except PyError Int :=
  getTbTarget address bytes

theorem bitsNat_drop5 (d : UInt8) : bitsNat ((byteBits d).drop 5) = d.toNat % 8 := by
  have hall : ∀ n : Fin 256, bitsNat ((byteBits (UInt8.ofFin n)).drop 5) = n.val % 8 := by
    decide +kernel
  exact hall d.toFin

/-- `b[8:16] + b[0:8]`, read as a little-endian number. -/
theorem bytesToLong_swapped {b : List Bool} (hb : b.length = 16) :
    bytesToLong (tobytes (slice b 8 16 ++ slice b 0 8)) .little =
      .ok (if b.head? = some true then (bitsNat b : Int) - 2 ^ 16 else bitsNat b) := by
  have hx : (slice b 0 8).length = 8 := slice_length b (by omega)
  have hy : (slice b 8 16).length = 8 := slice_length b (by omega)
  have hwhole : slice b 0 8 ++ slice b 8 16 = b := by
    rw [slice_append b (by decide) (by decide) (by omega), slice_all hb]
  have hbytes : (tobytes (slice b 8 16 ++ slice b 0 8)).reverse = tobytes b := by
    rw [← congrArg tobytes hwhole, tobytes_append hy, tobytes_byte hx, tobytes_append hx,
      tobytes_byte hy]
    rfl
  have hpow : (256 : Int) ^ (1 + 1) = 2 ^ 16 := by decide
  have hread := bytesToLongBig_tobytes (k := 1) hb
  rw [bytesToLong]
  simp only [hbytes]
  rw [hread, hpow]

/-- The field as the function reads it: 14 bits, the sign taken from the
third byte. -/
def tbField (d₀ d₁ d₂ : UInt8) : Int :=
  (d₂.toNat % 8 * 2 ^ 11 + d₁.toNat * 2 ^ 3 + d₀.toNat / 32 : Nat)
    - if d₂.toNat.testBit 2 then 2 ^ 14 else 0

theorem getTbTarget_bytes (a : Int) (d₀ d₁ d₂ d₃ : UInt8) :
    getTbTarget a [d₀, d₁, d₂, d₃] = .ok (a + 4 * tbField d₀ d₁ d₂) := by
  have hslices : getTbTarget a [d₀, d₁, d₂, d₃] =
      let addr := List.replicate 2 (d₂.toNat.testBit 2) ++ (byteBits d₂).drop 5 ++ byteBits d₁
        ++ (byteBits d₀).take 3
      (do let offset ← bytesToLong (tobytes (slice addr 8 16 ++ slice addr 0 8)) .little
          pure (getTargetAddress a offset)) := rfl
  have hsign (s : Bool) : bitsNat (List.replicate 2 s) = if s then 3 else 0 := by
    cases s <;> rfl
  have hlen3 : ((byteBits d₀).take 3).length = 3 := rfl
  have hlen5 : ((byteBits d₂).drop 5).length = 3 := rfl
  have hhead (s : Bool) (bits : List Bool) :
      (List.replicate 2 s ++ bits).head? = some true ↔ s = true := by cases s <;> simp
  rw [hslices]
  dsimp only
  rw [bytesToLong_swapped rfl, bitsNat_append, bitsNat_append, bitsNat_append, bitsNat_drop5,
    bitsNat_byteBits, bitsNat_take3, hsign, byteBits_length, hlen3, hlen5, List.append_assoc,
    List.append_assoc]
  simp only [hhead, tbField]
  refine congrArg Except.ok ?_
  rw [getTargetAddress]
  split <;> omega

/-! ## On the instructions -/

/-- A TBZ, or a TBNZ. -/
def testBranch (nonzero : Bool) (bit : Fin 64) (imm14 : BitVec 14) (rt : Fin 32) : Insn :=
  if nonzero then .tbnz bit imm14 rt else .tbz bit imm14 rt

/-- The immediate is in bits 5 to 18. -/
theorem testBranch_field (nonzero : Bool) (bit : Fin 64) (imm14 : BitVec 14) (rt : Fin 32) :
    (testBranch nonzero bit imm14 rt).encode.toNat / 2 ^ 5 % 2 ^ 14 = imm14.toNat := by
  have himm := imm14.isLt
  have hrt := (reg5 rt).isLt
  have hlow := (tbFields bit).2.isLt
  cases nonzero with
  | false =>
      rw [testBranch, if_neg Bool.false_ne_true]
      simp only [Insn.encode, toNat_append_eq, BitVec.toNat_ofNat]
      omega
  | true =>
      rw [testBranch, if_pos rfl]
      simp only [Insn.encode, toNat_append_eq, BitVec.toNat_ofNat]
      omega

theorem getTbTarget_word (a : Int) {w : Nat} {imm14 : BitVec 14}
    (hw : w / 2 ^ 5 % 2 ^ 14 = imm14.toNat) :
    getTbTarget a (leBytes 4 w) = .ok (target a imm14) := by
  have hbytes : leBytes 4 w = [w.toUInt8, (w / 256).toUInt8, (w / 256 / 256).toUInt8,
    (w / 256 / 256 / 256).toUInt8] := rfl
  have hlt := imm14.isLt
  have hbit : (w / 256 / 256 % 256).testBit 2 = decide (2 ^ 13 ≤ imm14.toNat) := by
    rw [← hw, Nat.testBit_eq_decide_div_mod_eq]
    congr 1
    rw [eq_iff_iff]
    omega
  have hfield : tbField w.toUInt8 (w / 256).toUInt8 (w / 256 / 256).toUInt8 = imm14.toInt := by
    simp only [tbField, Nat.toUInt8_eq, UInt8.toNat_ofNat']
    rw [BitVec.toInt_eq_toNat_cond]
    simp only [hbit, decide_eq_true_eq]
    split <;> split <;> omega
  rw [hbytes, getTbTarget_bytes, hfield, target]

/-- `get_tb_target` finds the target of every TBZ and TBNZ, and so does the
version it was copied from. -/
theorem getTbTarget_eq (a : Int) (nonzero : Bool) (bit : Fin 64) (imm14 : BitVec 14)
    (rt : Fin 32) :
    getTbTarget a (insnBytes (testBranch nonzero bit imm14 rt)) = .ok (target a imm14) ∧
      getTbzTarget a (insnBytes (testBranch nonzero bit imm14 rt)) = .ok (target a imm14) := by
  have hread := getTbTarget_word a (testBranch_field nonzero bit imm14 rt)
  exact ⟨hread, hread⟩

end Ve

end Oat
