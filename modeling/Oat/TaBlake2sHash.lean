import Mathlib.Algebra.Group.Nat.Defs
import Oat.TaBlake2s

/-!
# The hash that the streaming interface computes

`digest` is the hash as a function of the whole message: the message is
cut into blocks, a key is a block in front of it, and each block is
compressed with the number of bytes up to its end, the last one with the
flag set and padded with zeros. There is no buffer in it, and no counter
in two halves.

`blake2s_is_digest` says that the code computes this, however a message
comes in.
-/

namespace Oat

namespace Ta

/-! ## The keyed interface -/

def blake2sKeybytes : Nat := 32

def blake2sKeyParam (outlen keylen : Nat) : List UInt8 :=
  [outlen.toUInt8, keylen.toUInt8, 1, 1] ++ List.replicate 28 0

/-- `blake2s_init_param`; `outlen` is the digest length of the block. -/
def blake2sInitParam (outlen keylen : Nat) : Blake2sState :=
  { Blake2sState.zero with
    h := Vector.ofFn fun i : Fin 8 =>
      blake2sIV.get i ^^^ load32 ((blake2sKeyParam outlen keylen).drop (i.val * 4))
    outlen := outlen }

/-- The key in a block of its own. -/
def blake2sKeyBlock (key : List UInt8) : List UInt8 :=
  memcpy (List.replicate blake2sBlockbytes 0) 0 key

/-- `none` is the result -1. -/
def blake2sInitKey (outlen : Nat) (key : List UInt8) : Option Blake2sState :=
  if outlen = 0 ∨ blake2sOutbytes < outlen then none
  else if key.length = 0 ∨ blake2sKeybytes < key.length then none
  else some (blake2sUpdate (blake2sInitParam outlen key.length) (blake2sKeyBlock key))

/-- How `blake2s` begins. -/
def blake2sStart (outlen : Nat) (key : List UInt8) : Option Blake2sState :=
  if outlen = 0 ∨ blake2sOutbytes < outlen then none
  else if blake2sKeybytes < key.length then none
  else if 0 < key.length then blake2sInitKey outlen key
  else some (blake2sInit Blake2sState.zero outlen)

/-- `blake2s`. -/
def blake2sWithKey (outlen : Nat) (inp key : List UInt8) : Option (List UInt8) := do
  let S ← blake2sStart outlen key
  (blake2sFinal (blake2sUpdate S inp) outlen).1

/-! ## The hash -/

/-- The two halves of a count. -/
def halvesOf (n : Nat) : Vector UInt32 2 :=
  Vector.ofFn fun i : Fin 2 => UInt32.ofNat (n / 2 ^ (32 * i.val))

/-- The flags of a block: the first is up in the last block. -/
def flagsOf (last : Bool) : Vector UInt32 2 :=
  Vector.ofFn fun i : Fin 2 => if last = true ∧ i = 0 then 0xFFFFFFFF else 0

/-- The compression of a block that ends with byte `t` of the message. -/
def compressAt (h : Vector UInt32 8) (block : List UInt8) (t : Nat) (last : Bool) :
    Vector UInt32 8 :=
  (blake2sCompress { Blake2sState.zero with
    h := h
    t := halvesOf t
    f := flagsOf last } block).h

/-- Block `i` of the message, filled up with zeros. -/
def blockAt (data : List UInt8) (i : Nat) : List UInt8 :=
  let block := (data.drop (blake2sBlockbytes * i)).take blake2sBlockbytes
  block ++ List.replicate (blake2sBlockbytes - block.length) 0

/-- The last block; the empty message has one block too. -/
def lastBlock (data : List UInt8) : Nat := (data.length - 1) / blake2sBlockbytes

/-- The chaining value before block `n`. -/
def chainAt (h : Vector UInt32 8) (data : List UInt8) (n : Nat) : Vector UInt32 8 :=
  (List.range n).foldl
    (fun h i => compressAt h (blockAt data i) (blake2sBlockbytes * (i + 1)) false) h

/-- The message behind its key. -/
def keyed (key inp : List UInt8) : List UInt8 :=
  if key = [] then inp
  else key ++ List.replicate (blake2sBlockbytes - key.length) 0 ++ inp

def digest (outlen : Nat) (key inp : List UInt8) : List UInt8 :=
  let data := keyed key inp
  let h := chainAt (blake2sInitParam outlen key.length).h data (lastBlock data)
  let h := compressAt h (blockAt data (lastBlock data)) data.length true
  (h.toList.flatMap store32).take outlen

/-! ## The counter -/

theorem halvesOf_eq (n : Nat) :
    halvesOf n = #v[UInt32.ofNat n, UInt32.ofNat (n / 2 ^ 32)] := by
  refine Vector.ext fun i hi => ?_
  obtain rfl | rfl : i = 0 ∨ i = 1 := by omega
  · simp [halvesOf]
  · simp [halvesOf]

theorem increment_halves {S : Blake2sState} {n k : Nat} (h : S.t = halvesOf n) (hk : k ≤ 64) :
    blake2sIncrementCounter S (UInt32.ofNat k) = { S with t := halvesOf (n + k) } := by
  have hlow : UInt32.ofNat n + UInt32.ofNat k = UInt32.ofNat (n + k) := (UInt32.ofNat_add n k).symm
  have hcarry : UInt32.ofNat (n + k) < UInt32.ofNat k ↔ (n + k) / 2 ^ 32 = n / 2 ^ 32 + 1 := by
    rw [UInt32.lt_iff_toNat_lt, UInt32.toNat_ofNat', UInt32.toNat_ofNat']
    omega
  have hstay : ¬ UInt32.ofNat (n + k) < UInt32.ofNat k → (n + k) / 2 ^ 32 = n / 2 ^ 32 := by
    rw [hcarry]
    omega
  have hhigh : (UInt32.ofNat (n / 2 ^ 32) + if UInt32.ofNat (n + k) < UInt32.ofNat k then 1 else 0)
      = UInt32.ofNat ((n + k) / 2 ^ 32) := by
    split
    · rename_i hlt
      rw [hcarry.mp hlt, UInt32.ofNat_add]
      rfl
    · rename_i hlt
      rw [hstay hlt, UInt32.add_zero]
  have hlow' : S.t[0] = UInt32.ofNat n := by rw [h, halvesOf_eq]; rfl
  have hhigh' : S.t[1] = UInt32.ofNat (n / 2 ^ 32) := by rw [h, halvesOf_eq]; rfl
  simp only [blake2sIncrementCounter, halvesOf_eq, hlow', hhigh', hlow, hhigh]

/-! ## From state to state -/

/-- The chain part of a state that has taken in `n` bytes. -/
def chained (h : Vector UInt32 8) (n outlen : Nat) : Blake2sState :=
  { Blake2sState.zero with h := h, t := halvesOf n, outlen := outlen, buf := [] }

theorem blake2sBlock_chained (h : Vector UInt32 8) (n outlen : Nat) (block : List UInt8) :
    blake2sBlock (chained h n outlen) block
      = chained (compressAt h block (n + 64) false) (n + 64) outlen := by
  have hinc : blake2sIncrementCounter (chained h n outlen) 64
      = { chained h n outlen with t := halvesOf (n + 64) } :=
    increment_halves (k := 64) rfl (by decide)
  rw [blake2sBlock, hinc]
  rfl

theorem blockAt_of_full {data : List UInt8} {i : Nat}
    (hi : blake2sBlockbytes * (i + 1) ≤ data.length) :
    blockAt data i = (data.drop (blake2sBlockbytes * i)).take blake2sBlockbytes := by
  have hlen : ((data.drop (blake2sBlockbytes * i)).take blake2sBlockbytes).length
      = blake2sBlockbytes := by
    rw [List.length_take, List.length_drop]
    rw [Nat.mul_succ] at hi
    omega
  simp only [blockAt, hlen, Nat.sub_self, List.replicate_zero, List.append_nil]

theorem foldl_blocks (h : Vector UInt32 8) (outlen : Nat) {data : List UInt8} {n : Nat}
    (hn : blake2sBlockbytes * n ≤ data.length) :
    (List.range n).foldl (fun S i =>
        blake2sBlock S ((data.drop (blake2sBlockbytes * i)).take blake2sBlockbytes))
        (chained h 0 outlen)
      = chained (chainAt h data n) (blake2sBlockbytes * n) outlen := by
  induction n with
  | zero => rfl
  | succ n ih =>
      have hprev : blake2sBlockbytes * n ≤ data.length := by
        rw [Nat.mul_succ] at hn
        omega
      rw [List.range_succ, List.foldl_append, ih hprev, List.foldl_cons, List.foldl_nil,
        blake2sBlock_chained, ← blockAt_of_full hn, chainAt, chainAt, List.range_succ,
        List.foldl_append]
      rfl

/-- The end of a message, whatever the buffer holds behind it. -/
theorem blake2sFinal_chained {S : Blake2sState} {h : Vector UInt32 8} {n outlen : Nat}
    {rest : List UInt8} (hS : S.Wf) (hchain : S.chain = chained h n outlen)
    (hheld : S.held = rest) :
    (blake2sFinal S outlen).1 = some (((compressAt h
        (rest ++ List.replicate (blake2sBlockbytes - rest.length) 0) (n + rest.length)
        true).toList.flatMap
      store32).take outlen) := by
  have hlen : S.buflen = rest.length := by rw [← hheld, hS.held_length]
  have hle : rest.length ≤ 64 := by rw [← hlen]; exact hS.buflen
  obtain ⟨h', t, f, buf, buflen, outlen', lastNode⟩ := S
  simp only [Blake2sState.chain, chained, Blake2sState.zero, Blake2sState.mk.injEq] at hchain
  obtain ⟨rfl, rfl, rfl, -, -, rfl, rfl⟩ := hchain
  simp only [Blake2sState.held] at hheld hlen
  subst hlen
  have hinc := increment_halves (S := ⟨h', halvesOf n, Vector.replicate 2 0, buf, rest.length,
    outlen', 0⟩) rfl hle
  simp only [blake2sFinal, Nat.lt_irrefl, if_false, blake2sIsLastblock, hinc, hheld,
    blake2sSetLastblock]
  rfl

/-! ## What the code computes -/

theorem blake2sInit_eq {outlen : Nat} (hpos : outlen ≠ 0) (hmax : outlen ≤ blake2sOutbytes) :
    blake2sInit Blake2sState.zero outlen = blake2sInitParam outlen 0 := by
  rw [blake2sInit, if_neg (by omega)]
  rfl

/-- The stream that a session starts with, key block and all. -/
theorem stream_eq {outlen keylen : Nat} (inps : List (List UInt8)) :
    (blake2sFinal (inps.foldl blake2sUpdate (blake2sInitParam outlen keylen)) outlen).1
      = some (((compressAt
          (chainAt (blake2sInitParam outlen keylen).h inps.flatten (lastBlock inps.flatten))
          (blockAt inps.flatten (lastBlock inps.flatten)) inps.flatten.length true).toList.flatMap
        store32).take outlen) := by
  have hwf : (blake2sInitParam outlen keylen).Wf := ⟨rfl, Nat.zero_le _⟩
  obtain ⟨hS, hfeed⟩ := blake2sUpdates_spec hwf inps
  have hstart : (blake2sInitParam outlen keylen).chain
      = chained (blake2sInitParam outlen keylen).h 0 outlen := rfl
  have hheld : (blake2sInitParam outlen keylen).held = [] := rfl
  rw [hstart, hheld, List.nil_append, feed_eq_foldl (by decide)] at hfeed
  obtain ⟨hchain, hrest⟩ := Prod.mk.inj hfeed
  generalize inps.flatten = data at hchain hrest ⊢
  have hlast : blake2sBlockbytes * lastBlock data ≤ data.length := by
    simp only [lastBlock, blake2sBlockbytes]
    omega
  have hshort : (data.drop (blake2sBlockbytes * lastBlock data)).length ≤ blake2sBlockbytes := by
    rw [List.length_drop]
    simp only [lastBlock, blake2sBlockbytes]
    omega
  have hblock : blockAt data (lastBlock data) = data.drop (blake2sBlockbytes * lastBlock data)
      ++ List.replicate
        (blake2sBlockbytes - (data.drop (blake2sBlockbytes * lastBlock data)).length) 0 := by
    simp only [blockAt, List.take_of_length_le hshort]
  have htotal : blake2sBlockbytes * lastBlock data
      + (data.drop (blake2sBlockbytes * lastBlock data)).length = data.length := by
    rw [List.length_drop]
    omega
  have hfold := hchain.trans (foldl_blocks (blake2sInitParam outlen keylen).h outlen hlast)
  rw [blake2sFinal_chained hS hfold hrest, hblock, ← lastBlock, htotal]

theorem blake2sKeyBlock_eq (key : List UInt8) :
    blake2sKeyBlock key = key ++ List.replicate (blake2sBlockbytes - key.length) 0 := by
  simp [blake2sKeyBlock, memcpy]

/-- The updates with the key, and without one. -/
theorem blake2sStart_foldl {outlen : Nat} {key : List UInt8} (hpos : outlen ≠ 0)
    (hmax : outlen ≤ blake2sOutbytes) (hkey : key.length ≤ blake2sKeybytes) :
    ∃ (S : Blake2sState) (pre : List (List UInt8)), blake2sStart outlen key = some S ∧ keyed key [] = pre.flatten
      ∧ S = pre.foldl blake2sUpdate (blake2sInitParam outlen key.length) := by
  have hlen : ¬ (outlen = 0 ∨ blake2sOutbytes < outlen) := by omega
  cases key with
  | nil =>
      refine ⟨blake2sInit Blake2sState.zero outlen, [], ?_, rfl, blake2sInit_eq hpos hmax⟩
      simp [blake2sStart, hlen]
  | cons b key =>
      refine ⟨_, [blake2sKeyBlock (b :: key)], ?_, ?_, rfl⟩
      · simpa [blake2sStart, blake2sInitKey, hlen] using hkey
      · simp [keyed, blake2sKeyBlock_eq]

theorem keyed_append (key inp : List UInt8) : keyed key inp = keyed key [] ++ inp := by
  unfold keyed
  split <;> simp

/-- However the message is cut into updates, with a key or without one,
the code computes the hash; in one go too. -/
theorem blake2s_is_digest {outlen : Nat} {key : List UInt8} (hpos : outlen ≠ 0)
    (hmax : outlen ≤ blake2sOutbytes) (hkey : key.length ≤ blake2sKeybytes)
    (inps : List (List UInt8)) :
    (∃ S, blake2sStart outlen key = some S
        ∧ (blake2sFinal (inps.foldl blake2sUpdate S) outlen).1
          = some (digest outlen key inps.flatten))
      ∧ blake2sWithKey outlen inps.flatten key = some (digest outlen key inps.flatten) := by
  obtain ⟨S, pre, hstart, hpre, hS⟩ := blake2sStart_foldl hpos hmax hkey
  have hmany : ∀ chunks : List (List UInt8),
      (blake2sFinal (chunks.foldl blake2sUpdate S) outlen).1
        = some (digest outlen key chunks.flatten) := by
    intro chunks
    rw [hS, ← List.foldl_append, stream_eq, List.flatten_append, ← hpre, ← keyed_append]
    rfl
  refine ⟨⟨S, hstart, hmany inps⟩, ?_⟩
  have hone := hmany [inps.flatten]
  rw [List.flatten_singleton, List.foldl_cons, List.foldl_nil] at hone
  rw [blake2sWithKey, hstart, Option.bind_eq_bind, Option.bind_some, hone]

/-- The hash of the TA is the one without a key. -/
theorem blake2s_eq_digest {outlen : Nat} (hpos : outlen ≠ 0) (hmax : outlen ≤ blake2sOutbytes)
    (inp : List UInt8) : blake2s outlen inp = some (digest outlen [] inp) := by
  have hone := @stream_eq outlen 0 [inp]
  rw [List.flatten_singleton, List.foldl_cons, List.foldl_nil] at hone
  rw [blake2s, blake2sInit_eq hpos hmax]
  exact hone

theorem blake2s_is_digest_keyed :
    blake2sWithKey 32 [1, 2, 3] [7] = some (digest 32 [7] [1, 2, 3]) :=
  (@blake2s_is_digest 32 [7] (by decide) (by decide) (by decide) [[1], [2, 3]]).2

end Ta

end Oat
