import Mathlib.Tactic.Ring
import Oat.VeTargets

/-!
# Conditional branch targets from instruction bytes

`get_cond_branch_target` puts the 19-bit immediate of a B.cond, CBZ or
CBNZ together from three slices of the bit array, most significant
first, with five sign bits in front. The sign is taken from bit 23 of
the array, which is bit 11 of the immediate: right exactly when that bit
is the sign (`getCondBranchTarget_iff`).
-/

namespace Oat

namespace Ve

open A64

/-! ## Bits, most significant first -/

/-- `b[i:j]`. -/
def slice (b : List Bool) (i j : Nat) : List Bool := (b.take j).drop i

theorem slice_length (b : List Bool) {i j : Nat} (hj : j ≤ b.length) :
    (slice b i j).length = j - i := by
  rw [slice, List.length_drop, List.length_take, Nat.min_eq_left hj]

theorem slice_append (b : List Bool) {i j k : Nat} (hij : i ≤ j) (hjk : j ≤ k)
    (hk : k ≤ b.length) : slice b i j ++ slice b j k = slice b i k := by
  have hj : i ≤ (b.take j).length := by
    rw [List.length_take]
    omega
  have hsplit : b.take k = b.take j ++ slice b j k := by
    have htake : (b.take k).take j = b.take j := by rw [List.take_take, Nat.min_eq_left hjk]
    rw [slice, ← htake, List.take_append_drop]
  calc slice b i j ++ slice b j k
      = (b.take j ++ slice b j k).drop i := (List.drop_append_of_le_length hj).symm
    _ = slice b i k := by rw [← hsplit, slice]

theorem slice_all {b : List Bool} {n : Nat} (h : b.length = n) : slice b 0 n = b := by
  rw [slice, List.take_of_length_le (by omega), List.drop_zero]

/-- The number a bit array denotes. -/
def bitsNat : List Bool → Nat
  | [] => 0
  | b :: bs => b.toNat * 2 ^ bs.length + bitsNat bs

theorem bitsNat_append (xs ys : List Bool) :
    bitsNat (xs ++ ys) = bitsNat xs * 2 ^ ys.length + bitsNat ys := by
  induction xs with
  | nil => simp [bitsNat]
  | cons b xs ih =>
      rw [List.cons_append, bitsNat, ih, bitsNat, List.length_append, Nat.pow_add]
      ring

theorem bitsNat_lt (bits : List Bool) : bitsNat bits < 2 ^ bits.length := by
  induction bits with
  | nil => simp [bitsNat]
  | cons b bits ih =>
      have hb := b.toNat_le
      have hmul : b.toNat * 2 ^ bits.length ≤ 1 * 2 ^ bits.length := Nat.mul_le_mul_right _ hb
      rw [bitsNat, List.length_cons, Nat.pow_succ]
      omega

theorem bitsNat_byteBits (d : UInt8) : bitsNat (byteBits d) = d.toNat := by
  have hall : ∀ n : Fin 256, bitsNat (byteBits (UInt8.ofFin n)) = n.val := by decide +kernel
  exact hall d.toFin

theorem bitsByte_toNat {bits : List Bool} (h : bits.length = 8) :
    (bitsByte bits).toNat = bitsNat bits := by
  have hlist : ∀ b₀ b₁ b₂ b₃ b₄ b₅ b₆ b₇ : Bool,
      (bitsByte [b₀, b₁, b₂, b₃, b₄, b₅, b₆, b₇]).toNat
        = bitsNat [b₀, b₁, b₂, b₃, b₄, b₅, b₆, b₇] := by decide +kernel
  match bits, h with
  | [b₀, b₁, b₂, b₃, b₄, b₅, b₆, b₇], _ => exact hlist b₀ b₁ b₂ b₃ b₄ b₅ b₆ b₇

theorem tobytes_append {xs ys : List Bool} (hx : xs.length = 8) :
    tobytes (xs ++ ys) = bitsByte xs :: tobytes ys := by
  rw [tobytes, cut_append (by decide) hx]
  rfl

theorem tobytes_byte {xs : List Bool} (hx : xs.length = 8) : tobytes xs = [bitsByte xs] := by
  rw [← List.append_nil xs, tobytes_append hx, List.append_nil, tobytes, cut_nil, List.map_nil]

theorem beNat_tobytes {k : Nat} {b : List Bool} (hb : b.length = 8 * k) :
    beNat (tobytes b) = bitsNat b ∧ (tobytes b).length = k := by
  induction k generalizing b with
  | zero =>
      obtain rfl := List.length_eq_zero_iff.mp hb
      have hnil : tobytes [] = [] := by rw [tobytes, cut_nil, List.map_nil]
      rw [hnil]
      exact ⟨rfl, rfl⟩
  | succ k ih =>
      have hx : (b.take 8).length = 8 := by
        rw [List.length_take]
        omega
      have hrest : (b.drop 8).length = 8 * k := by
        rw [List.length_drop]
        omega
      obtain ⟨hvalue, hlen⟩ := ih hrest
      have hsplit : tobytes b = bitsByte (b.take 8) :: tobytes (b.drop 8) := by
        rw [← tobytes_append hx, List.take_append_drop]
      have hpow : (256 : Nat) ^ k = 2 ^ (8 * k) := by rw [Nat.pow_mul]
      rw [hsplit, beNat_cons, hvalue, hlen, bitsByte_toNat hx, hpow, ← hrest, ← bitsNat_append,
        List.take_append_drop, List.length_cons, hlen]
      exact ⟨rfl, rfl⟩

/-- The bytes of a bit array denote the same number, as two's complement. -/
theorem bytesToLongBig_tobytes {k : Nat} {b : List Bool} (hb : b.length = 8 * (k + 1)) :
    bytesToLongBig (tobytes b) =
      .ok (if b.head? = some true then (bitsNat b : Int) - 256 ^ (k + 1) else bitsNat b) := by
  obtain ⟨hvalue, hlen⟩ := beNat_tobytes hb
  have hx : (b.take 8).length = 8 := by
    rw [List.length_take]
    omega
  have hsplit : tobytes b = bitsByte (b.take 8) :: tobytes (b.drop 8) := by
    rw [← tobytes_append hx, List.take_append_drop]
  rw [hsplit, List.length_cons] at hlen
  have hsign : 128 ≤ (bitsByte (b.take 8)).toNat ↔ b.head? = some true := by
    rw [bitsByte_toNat hx]
    rcases b with _ | ⟨c, b⟩
    · cases hb
    · have htail : (b.take 7).length = 7 := by simpa using hx
      have hlt := bitsNat_lt (b.take 7)
      rw [htail] at hlt
      cases c <;> (simp [bitsNat, htail]; try omega)
  rw [hsplit, bytesToLongBig_eq, ← hsplit, hvalue, hlen]
  simp only [hsign]

/-! ## `get_cond_branch_target` -/

/-- `get_cond_branch_target`, on the address and the bytes of an
instruction. -/
def getCondBranchTarget (address : Int) (bytes : List UInt8) : Except PyError Int := do
  let b := frombytes bytes
  let x := slice b 0 3
  let y := slice b 8 16
  let z := slice b 16 24
  match b[23]? with
  | none => .error .indexError
  | some sign =>
      let addr := List.replicate 5 sign ++ z ++ y ++ x
      let newaddr := slice addr 16 24 ++ slice addr 8 16 ++ slice addr 0 8
      let offset ← bytesToLong (tobytes newaddr) .little
      pure (getTargetAddress address offset)

theorem bitsNat_take3 (d : UInt8) : bitsNat ((byteBits d).take 3) = d.toNat / 32 := by
  have hall : ∀ n : Fin 256, bitsNat ((byteBits (UInt8.ofFin n)).take 3) = n.val / 32 := by
    decide +kernel
  exact hall d.toFin

/-- `b[16:24] + b[8:16] + b[0:8]`, read as a little-endian number. -/
theorem bytesToLong_reversed {b : List Bool} (hb : b.length = 24) :
    bytesToLong (tobytes (slice b 16 24 ++ slice b 8 16 ++ slice b 0 8)) .little =
      .ok (if b.head? = some true then (bitsNat b : Int) - 2 ^ 24 else bitsNat b) := by
  have hx : (slice b 0 8).length = 8 := slice_length b (by omega)
  have hy : (slice b 8 16).length = 8 := slice_length b (by omega)
  have hz : (slice b 16 24).length = 8 := slice_length b (by omega)
  have hwhole : slice b 0 8 ++ slice b 8 16 ++ slice b 16 24 = b := by
    rw [slice_append b (by decide) (by decide) (by omega),
      slice_append b (by decide) (by decide) (by omega), slice_all hb]
  have hbytes : (tobytes (slice b 16 24 ++ slice b 8 16 ++ slice b 0 8)).reverse = tobytes b := by
    rw [← congrArg tobytes hwhole, List.append_assoc, tobytes_append hz, tobytes_append hy,
      tobytes_byte hx, List.append_assoc, tobytes_append hx, tobytes_append hy, tobytes_byte hz]
    rfl
  have hpow : (256 : Int) ^ (2 + 1) = 2 ^ 24 := by decide
  have hread := bytesToLongBig_tobytes (k := 2) hb
  rw [bytesToLong]
  simp only [hbytes]
  rw [hread, hpow]

/-- The field as the function reads it: 19 bits, the sign taken from the
third byte. -/
def condField (d₀ d₁ d₂ : UInt8) : Int :=
  (d₂.toNat * 2 ^ 11 + d₁.toNat * 2 ^ 3 + d₀.toNat / 32 : Nat)
    - if d₂.toNat.testBit 0 then 2 ^ 19 else 0

theorem getCondBranchTarget_bytes (a : Int) (d₀ d₁ d₂ d₃ : UInt8) :
    getCondBranchTarget a [d₀, d₁, d₂, d₃] = .ok (a + 4 * condField d₀ d₁ d₂) := by
  have hslices : getCondBranchTarget a [d₀, d₁, d₂, d₃] =
      let addr := List.replicate 5 (d₂.toNat.testBit 0) ++ byteBits d₂ ++ byteBits d₁
        ++ (byteBits d₀).take 3
      (do let offset ← bytesToLong
            (tobytes (slice addr 16 24 ++ slice addr 8 16 ++ slice addr 0 8)) .little
          pure (getTargetAddress a offset)) := rfl
  have hsign (s : Bool) : bitsNat (List.replicate 5 s) = if s then 31 else 0 := by
    cases s <;> rfl
  have hlen3 : ((byteBits d₀).take 3).length = 3 := rfl
  rw [hslices]
  dsimp only
  rw [bytesToLong_reversed rfl, bitsNat_append, bitsNat_append, bitsNat_append, bitsNat_byteBits,
    bitsNat_byteBits, bitsNat_take3, hsign, byteBits_length, byteBits_length, hlen3]
  have hhead (s : Bool) (bits : List Bool) :
      (List.replicate 5 s ++ bits).head? = some true ↔ s = true := by cases s <;> simp
  rw [List.append_assoc, List.append_assoc]
  simp only [hhead, condField]
  refine congrArg Except.ok ?_
  rw [getTargetAddress]
  split <;> omega

/-! ## On the instructions -/

/-- The instructions with a 19-bit immediate. -/
inductive CondForm where
  | bCond (cond : Cond)
  | cbz (sf : Bool) (rt : Fin 32)
  | cbnz (sf : Bool) (rt : Fin 32)
deriving Repr, DecidableEq

def CondForm.insn (imm19 : BitVec 19) : CondForm → Insn
  | .bCond cond => .bCond cond imm19
  | .cbz sf rt => .cbz sf imm19 rt
  | .cbnz sf rt => .cbnz sf imm19 rt

theorem toNat_append_eq {m n : Nat} (x : BitVec m) (y : BitVec n) :
    (x ++ y).toNat = x.toNat * 2 ^ n + y.toNat := by
  rw [BitVec.toNat_append, ← Nat.shiftLeft_add_eq_or_of_lt y.isLt, Nat.shiftLeft_eq]

/-- The immediate is in bits 5 to 23. -/
theorem CondForm.encode_field (form : CondForm) (imm19 : BitVec 19) :
    (form.insn imm19).encode.toNat / 2 ^ 5 % 2 ^ 19 = imm19.toNat := by
  have himm := imm19.isLt
  cases form with
  | bCond cond =>
      have hcond := cond.code.isLt
      simp only [CondForm.insn, Insn.encode, toNat_append_eq, BitVec.toNat_ofNat]
      omega
  | cbz sf rt =>
      have hrt := (reg5 rt).isLt
      have hsf := (BitVec.ofBool sf).isLt
      simp only [CondForm.insn, Insn.encode, toNat_append_eq, BitVec.toNat_ofNat]
      omega
  | cbnz sf rt =>
      have hrt := (reg5 rt).isLt
      have hsf := (BitVec.ofBool sf).isLt
      simp only [CondForm.insn, Insn.encode, toNat_append_eq, BitVec.toNat_ofNat]
      omega

/-- What the function makes of a word: the 19-bit field, with its bit 11
for a sign. -/
theorem getCondBranchTarget_word (a : Int) {w : Nat} {imm19 : BitVec 19}
    (hw : w / 2 ^ 5 % 2 ^ 19 = imm19.toNat) :
    getCondBranchTarget a (leBytes 4 w) =
      .ok (a + 4 * ((imm19.toNat : Int) - if imm19.getLsbD 11 then 2 ^ 19 else 0)) := by
  have hbytes : leBytes 4 w = [w.toUInt8, (w / 256).toUInt8, (w / 256 / 256).toUInt8,
    (w / 256 / 256 / 256).toUInt8] := rfl
  have hbit : (w / 256 / 256 % 256).testBit 0 = imm19.getLsbD 11 := by
    rw [BitVec.getLsbD, ← hw, Nat.testBit_zero, Nat.testBit_eq_decide_div_mod_eq]
    congr 1
    rw [eq_iff_iff]
    omega
  have hfield : condField w.toUInt8 (w / 256).toUInt8 (w / 256 / 256).toUInt8 =
      (imm19.toNat : Int) - if imm19.getLsbD 11 then 2 ^ 19 else 0 := by
    simp only [condField, Nat.toUInt8_eq, UInt8.toNat_ofNat']
    rw [hbit, ← hw]
    congr 2
    omega
  rw [hbytes, getCondBranchTarget_bytes, hfield]

/-- `get_cond_branch_target` finds the target of a conditional branch
exactly when bit 11 of the immediate is its sign. -/
theorem getCondBranchTarget_iff (a : Int) (form : CondForm) (imm19 : BitVec 19) :
    getCondBranchTarget a (insnBytes (form.insn imm19)) = .ok (target a imm19) ↔
      imm19.getLsbD 11 = imm19.getLsbD 18 := by
  have hlt := imm19.isLt
  have hsign : imm19.toInt = (imm19.toNat : Int) - if imm19.getLsbD 18 then 2 ^ 19 else 0 := by
    rw [BitVec.toInt_eq_msb_cond, BitVec.msb_eq_getLsbD_last]
    split <;> simp
  rw [insnBytes, getCondBranchTarget_word a (form.encode_field imm19), target, hsign,
    Except.ok.injEq]
  constructor
  · intro h
    cases h11 : imm19.getLsbD 11 <;> cases h18 : imm19.getLsbD 18 <;>
      simp only [h11, h18, Bool.false_eq_true, if_true, if_false] at h
    all_goals first | rfl | omega
  · intro h
    rw [h]

/-- A branch 8 KB ahead is taken for one 2 MB back. -/
theorem getCondBranchTarget_far :
    ¬ ∀ (a : Int) (form : CondForm) (imm19 : BitVec 19),
      getCondBranchTarget a (insnBytes (form.insn imm19)) = .ok (target a imm19) := by
  intro h
  have hfar := (getCondBranchTarget_word 0x400000
    (CondForm.encode_field (.bCond .eq) 0x800#19)).symm.trans (h 0x400000 (.bCond .eq) 0x800#19)
  revert hfar
  decide

end Ve

end Oat
