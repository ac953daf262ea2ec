import Oat.VeEncode

/-!
# `long_to_bytes` and `bytes_to_long`

The two conversions undo each other, in both byte orders, up to the type
of the bytes: `long_to_bytes` returns a `str`, whose items are strings,
and `bytes_to_long` masks the first item with a number, so it takes a
`bytearray`. Every caller wraps its bytes in one; with that, the value
read back is the two's complement value (`bytesToLong_longToBytes`), and
the recursion on a negative number makes one further call
(`bytesToLongCalls_eq`).
-/

namespace Oat

namespace Ve

/-! ## The value of bytes -/

/-- The bytes, most significant first. -/
def bigEndian (data : List UInt8) : Endian → List UInt8
  | .little => data.reverse
  | .big => data

/-- The two's complement value of bytes, read in the given order. -/
def twosComplement (data : List UInt8) (endian : Endian) : Int :=
  let n := beNat (bigEndian data endian)
  if 2 * n < 256 ^ data.length then n else (n : Int) - 256 ^ data.length

example : twosComplement [0xfe, 0xff] .little = -2 := by decide
example : twosComplement [0x01, 0x80] .big = 384 := by decide

theorem bytesToLong_bigEndian (data : List UInt8) (endian : Endian) :
    bytesToLong data endian = bytesToLongBig (bigEndian data endian) := by
  cases endian <;> rfl

theorem bigEndian_length (data : List UInt8) (endian : Endian) :
    (bigEndian data endian).length = data.length := by
  cases endian with
  | big => rfl
  | little => exact List.length_reverse

theorem beNat_lt (data : List UInt8) : beNat data < 256 ^ data.length := by
  have hlt := leNat_lt data.reverse
  rwa [List.length_reverse] at hlt

/-- The first byte carries the sign. -/
theorem sign_iff (d : UInt8) (ds : List UInt8) :
    128 ≤ d.toNat ↔ ¬ 2 * beNat (d :: ds) < 256 ^ (d :: ds).length := by
  have hlow := beNat_lt ds
  rw [beNat_cons, List.length_cons, Nat.pow_succ]
  generalize 256 ^ ds.length = p at *
  constructor
  · intro hd
    have hmul : 128 * p ≤ d.toNat * p := Nat.mul_le_mul_right p hd
    omega
  · intro hbig
    by_contra hd
    have hmul : d.toNat * p ≤ 127 * p := Nat.mul_le_mul_right p (by omega)
    omega

/-- `bytes_to_long` reads two's complement, in both orders. -/
theorem bytesToLong_eq {data : List UInt8} (hne : data ≠ []) (endian : Endian) :
    bytesToLong data endian = .ok (twosComplement data endian) := by
  have hlen := bigEndian_length data endian
  rw [bytesToLong_bigEndian, twosComplement, ← hlen]
  cases hbig : bigEndian data endian with
  | nil =>
      rw [hbig, List.length_nil] at hlen
      exact absurd (List.length_eq_zero_iff.mp hlen.symm) hne
  | cons d ds =>
      rw [bytesToLongBig_eq]
      simp only [sign_iff d ds, List.length_cons]
      by_cases hpos : 2 * beNat (d :: ds) < 256 ^ (ds.length + 1)
      · simp [hpos]
      · simp [hpos]

/-! ## The recursion -/

/-- The number of calls of `bytes_to_long`, the first included. -/
def bytesToLongCalls : List UInt8 → Nat
  | [] => 1
  | d :: ds =>
      if 0 < d &&& 0x80 then bytesToLongCalls (~~~d :: ds.map (~~~ ·)) + 1 else 1
termination_by data => (data.headD 0).toNat
decreasing_by
  rename_i hneg
  have hd := (and_0x80_pos d).mp hneg
  simp only [List.headD_cons, complement_toNat]
  omega

/-- The complement of a negative number is not negative. -/
theorem bytesToLongCalls_eq {data : List UInt8} (hne : data ≠ []) (endian : Endian) :
    bytesToLongCalls (bigEndian data endian) = if twosComplement data endian < 0 then 2 else 1 := by
  have hlen := bigEndian_length data endian
  rw [twosComplement, ← hlen]
  cases hbig : bigEndian data endian with
  | nil =>
      rw [hbig, List.length_nil] at hlen
      exact absurd (List.length_eq_zero_iff.mp hlen.symm) hne
  | cons d ds =>
      have hlt := beNat_lt (d :: ds)
      have hneg : ((beNat (d :: ds) : Int) - 256 ^ (d :: ds).length) < 0 := by
        have hcast : (beNat (d :: ds) : Int) < (256 ^ (d :: ds).length : Nat) := by
          exact_mod_cast hlt
        push_cast at hcast
        omega
      by_cases hd : 128 ≤ d.toNat
      · have hcomplement : ¬ 0 < ~~~d &&& 0x80 := by
          rw [and_0x80_pos, complement_toNat]
          omega
        rw [bytesToLongCalls, if_pos ((and_0x80_pos d).mpr hd), bytesToLongCalls,
          if_neg hcomplement]
        simp only [(sign_iff d ds).mp hd, if_false, hneg, if_true]
      · have hsmall := not_not.mp (fun h => hd ((sign_iff d ds).mpr h))
        rw [bytesToLongCalls, if_neg fun h => hd ((and_0x80_pos d).mp h)]
        simp only [hsmall, if_true]
        rw [if_neg (by omega)]

/-! ## The type of the bytes -/

/-- Bytes in Python 2: the items of a `str` are strings, those of a
`bytearray` numbers. -/
inductive PyBytes where
  | str (data : List UInt8)
  | bytearray (data : List UInt8)
deriving Repr, DecidableEq

/-- `bytearray(data)`. -/
def PyBytes.toBytearray : PyBytes → PyBytes
  | .str data => .bytearray data
  | .bytearray data => .bytearray data

/-- `long_to_bytes`; `unhexlify` makes a `str`, and reversing keeps it. -/
def longToStr (value : Int) (width : Nat) (endian : Endian) : Option PyBytes :=
  (longToBytes value width endian).map .str

/-- `bytes_to_long` on either type; the mask of the first item is an error
on a string. -/
def pyBytesToLong : PyBytes → Endian → Except PyError Int
  | .str [], _ => .error .indexError
  | .str (_ :: _), _ => .error .typeError
  | .bytearray data, endian => bytesToLong data endian

/-! ## The round trip -/

/-- The bytes of a number, in both orders. -/
theorem longToBytes_eq (value : Int) (k : Nat) (endian : Endian) :
    longToBytes value (2 * k) endian =
      some (bigEndian (leBytes k (value % 2 ^ (8 * k)).toNat).reverse endian) := by
  have hwidth : 2 * k * 4 = 8 * k := by omega
  cases endian <;>
    simp only [longToBytes, unhexlify_hexDigits, hwidth, Int.add_emod_right, Option.map_some,
      bigEndian]

theorem bigEndian_bigEndian (data : List UInt8) (endian : Endian) :
    bigEndian (bigEndian data endian) endian = data := by
  cases endian with
  | big => rfl
  | little => exact List.reverse_reverse data

/-- A number within the width is its own two's complement value. -/
theorem twosComplement_leBytes {k : Nat} (hk : 0 < k) (endian : Endian) {v : Int}
    (hlo : -2 ^ (8 * k - 1) ≤ v) (hhi : v < 2 ^ (8 * k - 1)) :
    twosComplement (bigEndian (leBytes k (v % 2 ^ (8 * k)).toNat).reverse endian) endian = v := by
  have hhalf : (2 : Int) ^ (8 * k) = 2 * 2 ^ (8 * k - 1) := by
    rw [← pow_succ', show 8 * k - 1 + 1 = 8 * k by omega]
  have hpow : (256 : Nat) ^ k = 2 ^ (8 * k) := by rw [Nat.pow_mul]
  have hcast : ((2 ^ (8 * k) : Nat) : Int) = 2 ^ (8 * k) := by push_cast; rfl
  have hlt : (v % 2 ^ (8 * k)).toNat < 2 ^ (8 * k) := by
    have hmod := Int.emod_lt_of_pos v (show (0 : Int) < 2 ^ (8 * k) from Int.pow_pos (by decide))
    omega
  have hvalue : beNat (leBytes k (v % 2 ^ (8 * k)).toNat).reverse = (v % 2 ^ (8 * k)).toNat := by
    rw [beNat, List.reverse_reverse, leNat_leBytes, hpow, Nat.mod_eq_of_lt hlt]
  have hint : (256 : Int) ^ k = 2 ^ (8 * k) := by exact_mod_cast hpow
  rw [twosComplement, bigEndian_bigEndian, bigEndian_length, List.length_reverse, leBytes_length,
    hvalue, hpow, hint]
  rcases Int.lt_or_le v 0 with hneg | hpos
  · have hmod : v % 2 ^ (8 * k) = v + 2 ^ (8 * k) := by
      rw [← Int.add_emod_right, Int.emod_eq_of_lt (by omega) (by omega)]
    rw [hmod, if_neg (by omega)]
    omega
  · rw [Int.emod_eq_of_lt hpos (by omega), if_pos (by omega)]
    omega

/-- `bytes_to_long(long_to_bytes(v, w, e), e)` is a TypeError. -/
theorem pyBytesToLong_str :
    ¬ ∀ (w : Nat) (e : Endian) (v : Int), 0 < w → 2 ∣ w → -2 ^ (4 * w - 1) ≤ v →
      v < 2 ^ (4 * w - 1) → (longToStr v w e).map (pyBytesToLong · e) = some (.ok v) := by
  intro h
  have hone := h 2 .big 1 (by decide) (by decide) (by decide) (by decide)
  revert hone
  decide

/-- Through a `bytearray`, the two conversions are inverse, and the value
read is two's complement, after at most one further call. -/
theorem bytesToLong_longToBytes (e : Endian) :
    (∀ (w : Nat) (v : Int), 0 < w → 2 ∣ w → -2 ^ (4 * w - 1) ≤ v → v < 2 ^ (4 * w - 1) →
      (longToStr v w e).map (pyBytesToLong ·.toBytearray e) = some (.ok v)) ∧
    ∀ data : List UInt8, data ≠ [] →
      pyBytesToLong (.bytearray data) e = .ok (twosComplement data e) ∧
      bytesToLongCalls (bigEndian data e) = if twosComplement data e < 0 then 2 else 1 := by
  refine ⟨fun w v hw heven hlo hhi => ?_, fun data hne =>
    ⟨bytesToLong_eq hne e, bytesToLongCalls_eq hne e⟩⟩
  obtain ⟨k, rfl⟩ := heven
  have hbits : 4 * (2 * k) - 1 = 8 * k - 1 := by omega
  rw [hbits] at hlo hhi
  have hne : bigEndian (leBytes k (v % 2 ^ (8 * k)).toNat).reverse e ≠ [] := by
    rw [← List.length_pos_iff, bigEndian_length, List.length_reverse, leBytes_length]
    omega
  rw [longToStr, longToBytes_eq, Option.map_some, Option.map_some]
  refine congrArg some ((bytesToLong_eq hne e).trans (congrArg Except.ok ?_))
  exact twosComplement_leBytes (by omega) e hlo hhi

theorem bytesToLong_longToBytes_small :
    (longToStr (-2) 4 .little).map (pyBytesToLong ·.toBytearray .little) = some (.ok (-2)) ∧
      pyBytesToLong (.bytearray [0x80]) .little = .ok (-128) :=
  ⟨(bytesToLong_longToBytes .little).1 4 (-2) (by decide) (by decide) (by decide) (by decide),
    ((bytesToLong_longToBytes .little).2 [0x80] (by decide)).1⟩

end Ve

end Oat
