import Mathlib.Data.List.FinRange
import Oat.BlockStream

/-!
# BLAKE2s as the measurement TA carries it

`blake2s-ref.c`, unkeyed: the state record, the compression function and
the `init`/`update`/`final` interface. The C arrays of words are
vectors; the 64-byte block buffer and the caller's memory are byte
lists.

`blake2sUpdate` compresses lazily, so its buffer may rest full. The
second half of the file says what the interface computes whatever the
sizes of the updates: `blake2sUpdate_spec` identifies an update with
`feed` on what the state holds back, and `blake2sStream_eq` concludes
that a digest over any sequence of updates is the one-shot digest of
their concatenation.
-/

namespace Oat

namespace Ta

def blake2sBlockbytes : Nat := 64
def blake2sOutbytes : Nat := 32

def blake2sIV : Vector UInt32 8 :=
  #v[0x6A09E667, 0xBB67AE85, 0x3C6EF372, 0xA54FF53A,
     0x510E527F, 0x9B05688C, 0x1F83D9AB, 0x5BE0CD19]

def blake2sSigma : Vector (Vector (Fin 16) 16) 10 :=
  #v[#v[0, 1, 2, 3, 4, 5, 6, 7, 8, 9, 10, 11, 12, 13, 14, 15],
     #v[14, 10, 4, 8, 9, 15, 13, 6, 1, 12, 0, 2, 11, 7, 5, 3],
     #v[11, 8, 12, 0, 5, 2, 15, 13, 10, 14, 3, 6, 7, 1, 9, 4],
     #v[7, 9, 3, 1, 13, 12, 11, 14, 2, 6, 5, 10, 4, 0, 15, 8],
     #v[9, 0, 5, 7, 2, 4, 10, 15, 14, 1, 11, 12, 6, 8, 3, 13],
     #v[2, 12, 6, 10, 0, 11, 8, 3, 4, 13, 7, 5, 15, 14, 1, 9],
     #v[12, 5, 1, 15, 14, 13, 4, 10, 0, 7, 6, 3, 9, 2, 8, 11],
     #v[13, 11, 7, 14, 12, 1, 3, 9, 5, 0, 15, 4, 8, 6, 2, 10],
     #v[6, 15, 14, 9, 11, 3, 0, 8, 12, 2, 13, 7, 1, 4, 10, 5],
     #v[10, 2, 8, 4, 7, 6, 1, 5, 15, 11, 9, 14, 3, 12, 13, 0]]

structure Blake2sState where
  h : Vector UInt32 8
  t : Vector UInt32 2
  f : Vector UInt32 2
  buf : List UInt8
  buflen : Nat
  outlen : Nat
  lastNode : UInt8
deriving Repr, DecidableEq

def Blake2sState.zero : Blake2sState where
  h := Vector.replicate 8 0
  t := Vector.replicate 2 0
  f := Vector.replicate 2 0
  buf := List.replicate blake2sBlockbytes 0
  buflen := 0
  outlen := 0
  lastNode := 0

/-! ## Bytes and words -/

def load32 (src : List UInt8) : UInt32 :=
  (src.getD 0 0).toUInt32 ||| (src.getD 1 0).toUInt32 <<< 8 |||
    (src.getD 2 0).toUInt32 <<< 16 ||| (src.getD 3 0).toUInt32 <<< 24

def store32 (w : UInt32) : List UInt8 :=
  [w.toUInt8, (w >>> 8).toUInt8, (w >>> 16).toUInt8, (w >>> 24).toUInt8]

def rotr32 (w c : UInt32) : UInt32 := (w >>> c) ||| (w <<< (32 - c))

/-- `memcpy(dst + off, src, n)` for a source of `n` bytes. -/
def memcpy (dst : List UInt8) (off : Nat) (src : List UInt8) : List UInt8 :=
  dst.take off ++ src ++ dst.drop (off + src.length)

/-! ## Compression -/

def blake2sG (m : Vector UInt32 16) (r : Fin 10) (i : Fin 8) (a b c d : Fin 16)
    (v : Vector UInt32 16) : Vector UInt32 16 :=
  let v := v.set a (v[a] + v[b] + m[blake2sSigma[r][2 * i.val + 0]])
  let v := v.set d (rotr32 (v[d] ^^^ v[a]) 16)
  let v := v.set c (v[c] + v[d])
  let v := v.set b (rotr32 (v[b] ^^^ v[c]) 12)
  let v := v.set a (v[a] + v[b] + m[blake2sSigma[r][2 * i.val + 1]])
  let v := v.set d (rotr32 (v[d] ^^^ v[a]) 8)
  let v := v.set c (v[c] + v[d])
  v.set b (rotr32 (v[b] ^^^ v[c]) 7)

def blake2sRound (m : Vector UInt32 16) (v : Vector UInt32 16) (r : Fin 10) :
    Vector UInt32 16 :=
  let v := blake2sG m r 0 0 4 8 12 v
  let v := blake2sG m r 1 1 5 9 13 v
  let v := blake2sG m r 2 2 6 10 14 v
  let v := blake2sG m r 3 3 7 11 15 v
  let v := blake2sG m r 4 0 5 10 15 v
  let v := blake2sG m r 5 1 6 11 12 v
  let v := blake2sG m r 6 2 7 8 13 v
  blake2sG m r 7 3 4 9 14 v

def blake2sCompress (S : Blake2sState) (block : List UInt8) : Blake2sState :=
  let m : Vector UInt32 16 := Vector.ofFn fun i => load32 (block.drop (i.val * 4))
  let v : Vector UInt32 16 :=
    #v[S.h[0], S.h[1], S.h[2], S.h[3], S.h[4], S.h[5], S.h[6], S.h[7],
       blake2sIV[0], blake2sIV[1], blake2sIV[2], blake2sIV[3],
       S.t[0] ^^^ blake2sIV[4], S.t[1] ^^^ blake2sIV[5],
       S.f[0] ^^^ blake2sIV[6], S.f[1] ^^^ blake2sIV[7]]
  let v := (List.finRange 10).foldl (blake2sRound m) v
  { S with h := Vector.ofFn fun i : Fin 8 => S.h[i] ^^^ v[i.val] ^^^ v[i.val + 8] }

/-! ## The streaming interface -/

def blake2sIncrementCounter (S : Blake2sState) (inc : UInt32) : Blake2sState :=
  let t0 := S.t[0] + inc
  { S with t := #v[t0, S.t[1] + if t0 < inc then 1 else 0] }

def blake2sIsLastblock (S : Blake2sState) : Bool := S.f[0] != 0

def blake2sSetLastblock (S : Blake2sState) : Blake2sState :=
  { S with f := #v[0xFFFFFFFF, if S.lastNode != 0 then 0xFFFFFFFF else S.f[1]] }

/-- The unkeyed parameter block: `digest_length`, `key_length`,
`fanout`, `depth`, and zeros. -/
def blake2sParam (outlen : Nat) : List UInt8 :=
  [outlen.toUInt8, 0, 1, 1] ++ List.replicate 28 0

/-- `blake2s_init`; an output length outside `1..BLAKE2S_OUTBYTES` is
refused and leaves the state alone. -/
def blake2sInit (S : Blake2sState) (outlen : Nat) : Blake2sState :=
  if outlen = 0 ∨ blake2sOutbytes < outlen then S
  else
    { Blake2sState.zero with
      h := Vector.ofFn fun i : Fin 8 =>
        blake2sIV[i] ^^^ load32 ((blake2sParam outlen).drop (i.val * 4))
      outlen := outlen }

/-- The loop of `blake2s_update` over the whole blocks of the input. -/
def blake2sUpdateLoop (S : Blake2sState) (inp : List UInt8) : Blake2sState × List UInt8 :=
  if _h : blake2sBlockbytes < inp.length then
    let S := blake2sIncrementCounter S 64
    let S := blake2sCompress S (inp.take blake2sBlockbytes)
    blake2sUpdateLoop S (inp.drop blake2sBlockbytes)
  else (S, inp)
termination_by inp.length
decreasing_by
  simp only [List.length_drop, blake2sBlockbytes] at *
  omega

/-- The first part of `blake2s_update`: fill up the buffer and compress
what the input does not end in. -/
def blake2sUpdateBlocks (S : Blake2sState) (inp : List UInt8) : Blake2sState × List UInt8 :=
  let left := S.buflen
  let fill := blake2sBlockbytes - left
  if fill < inp.length then
    let S := { S with buflen := 0, buf := memcpy S.buf left (inp.take fill) }
    let S := blake2sIncrementCounter S 64
    let S := blake2sCompress S S.buf
    blake2sUpdateLoop S (inp.drop fill)
  else (S, inp)

def blake2sUpdate (S : Blake2sState) (inp : List UInt8) : Blake2sState :=
  if 0 < inp.length then
    let r := blake2sUpdateBlocks S inp
    { r.1 with buf := memcpy r.1.buf r.1.buflen r.2, buflen := r.1.buflen + r.2.length }
  else S

/-- `blake2s_final`: the digest, or `none` where the C code returns -1
(and writes nothing). -/
def blake2sFinal (S : Blake2sState) (outlen : Nat) : Option (List UInt8) × Blake2sState :=
  if outlen < S.outlen then (none, S)
  else if blake2sIsLastblock S then (none, S)
  else
    let S := blake2sIncrementCounter S (UInt32.ofNat S.buflen)
    let S := blake2sSetLastblock S
    let S := { S with
      buf := S.buf.take S.buflen ++ List.replicate (blake2sBlockbytes - S.buflen) 0 }
    let S := blake2sCompress S S.buf
    (some ((S.h.toList.flatMap store32).take outlen), S)

/-- `blake2s` without a key: one update between `init` and `final`. -/
def blake2s (outlen : Nat) (inp : List UInt8) : Option (List UInt8) :=
  (blake2sFinal (blake2sUpdate (blake2sInit Blake2sState.zero outlen) inp) outlen).1

/-- The published digest of the three bytes `abc`. -/
example : blake2s 32 [0x61, 0x62, 0x63] = some
    [0x50, 0x8C, 0x5E, 0x8C, 0x32, 0x7C, 0x14, 0xE2, 0xE1, 0xA7, 0x2B, 0xA3, 0x4E, 0xEB, 0x45,
     0x2F, 0x37, 0x45, 0x8B, 0x20, 0x9E, 0xD6, 0x3A, 0x29, 0x4D, 0x99, 0x9B, 0x4C, 0x86, 0x67,
     0x59, 0x82] := by decide +kernel

/-! ## What the interface computes

The state splits into a chain part (everything but the block buffer) and
the bytes held back in the buffer. Bytes of the buffer beyond `buflen`
are stale and read by nobody, so the two parts together are all that a
digest depends on. -/

/-- The chain part: the state with the block buffer taken out. -/
def Blake2sState.chain (S : Blake2sState) : Blake2sState := { S with buf := [], buflen := 0 }

/-- The bytes held back in the block buffer. -/
def Blake2sState.held (S : Blake2sState) : List UInt8 := S.buf.take S.buflen

/-- The block buffer is a 64-byte array filled up to `buflen`. -/
structure Blake2sState.Wf (S : Blake2sState) : Prop where
  buf : S.buf.length = blake2sBlockbytes
  buflen : S.buflen ≤ blake2sBlockbytes

/-- One whole block: advance the counter, compress. -/
def blake2sBlock (S : Blake2sState) (block : List UInt8) : Blake2sState :=
  blake2sCompress (blake2sIncrementCounter S 64) block

theorem Blake2sState.Wf.held_length {S : Blake2sState} (h : S.Wf) :
    S.held.length = S.buflen := by
  rw [Blake2sState.held, List.length_take, h.buf]
  exact Nat.min_eq_left h.buflen

theorem blake2sBlock_chain (S : Blake2sState) (block : List UInt8) :
    (blake2sBlock S block).chain = blake2sBlock S.chain block := rfl

@[simp] theorem blake2sBlock_buf (S : Blake2sState) (block : List UInt8) :
    (blake2sBlock S block).buf = S.buf := rfl

@[simp] theorem blake2sBlock_buflen (S : Blake2sState) (block : List UInt8) :
    (blake2sBlock S block).buflen = S.buflen := rfl

/-- Copying a chunk that fits behind the held-back bytes appends it to
them. -/
theorem memcpy_take {dst src : List UInt8} {off : Nat} (h : off ≤ dst.length) :
    (memcpy dst off src).take (off + src.length) = dst.take off ++ src := by
  have hlen : (dst.take off ++ src).length = off + src.length := by
    rw [List.length_append, List.length_take, Nat.min_eq_left h]
  rw [memcpy, List.take_append_of_le_length (by omega), List.take_of_length_le (by omega)]

theorem memcpy_length {dst src : List UInt8} {off : Nat} (h : off + src.length ≤ dst.length) :
    (memcpy dst off src).length = dst.length := by
  simp only [memcpy, List.length_append, List.length_take, List.length_drop]
  omega

/-- The block loop is `feed` on the chain part, and leaves the block
buffer alone. -/
theorem blake2sUpdateLoop_spec (S : Blake2sState) (inp : List UInt8) :
    ((blake2sUpdateLoop S inp).1.chain, (blake2sUpdateLoop S inp).2)
        = feed blake2sBlock blake2sBlockbytes S.chain inp
      ∧ (blake2sUpdateLoop S inp).1.buf = S.buf
      ∧ (blake2sUpdateLoop S inp).1.buflen = S.buflen := by
  by_cases h : blake2sBlockbytes < inp.length
  · have ih := blake2sUpdateLoop_spec (blake2sBlock S (inp.take blake2sBlockbytes))
      (inp.drop blake2sBlockbytes)
    rw [blake2sUpdateLoop, dif_pos h, feed_step (by decide) h, ← blake2sBlock_chain]
    exact ih
  · rw [blake2sUpdateLoop, dif_neg h, feed_short (by omega)]
    exact ⟨rfl, rfl, rfl⟩
termination_by inp.length
decreasing_by
  simp only [List.length_drop, blake2sBlockbytes] at *
  omega

/-- The state with its buffer filled up from the input, about to be
compressed. -/
def Blake2sState.filled (S : Blake2sState) (inp : List UInt8) : Blake2sState :=
  { S with
    buflen := 0
    buf := memcpy S.buf S.buflen (inp.take (blake2sBlockbytes - S.buflen)) }

theorem blake2sUpdateBlocks_long {S : Blake2sState} {inp : List UInt8}
    (h : blake2sBlockbytes - S.buflen < inp.length) :
    blake2sUpdateBlocks S inp = blake2sUpdateLoop (blake2sBlock (S.filled inp) (S.filled inp).buf)
      (inp.drop (blake2sBlockbytes - S.buflen)) := by
  rw [blake2sUpdateBlocks, if_pos h]
  rfl

/-- Filling up the buffer puts the first block of the whole stream in
it: the held-back bytes and as much of the input as fits. -/
theorem Blake2sState.Wf.filled_buf {S : Blake2sState} (hS : S.Wf) {inp : List UInt8}
    (h : blake2sBlockbytes - S.buflen < inp.length) :
    (S.filled inp).buf = (S.held ++ inp).take blake2sBlockbytes
      ∧ (S.filled inp).buf.length = blake2sBlockbytes := by
  have hheld := hS.held_length
  have hbuflen := hS.buflen
  have hfill : (inp.take (blake2sBlockbytes - S.buflen)).length
      = blake2sBlockbytes - S.buflen := by
    rw [List.length_take]
    omega
  constructor
  · rw [List.take_append, hheld, List.take_of_length_le (by omega), Blake2sState.filled, memcpy,
      hfill, List.drop_eq_nil_of_le (by rw [hS.buf]; omega), List.append_nil]
    rfl
  · exact (memcpy_length (by rw [hfill, hS.buf]; omega)).trans hS.buf

/-- The block phase of an update, on top of what the state holds back.
Either the input still fits the buffer and nothing happens, or the
buffer ends up empty and the input is the rest of the feed. -/
theorem blake2sUpdateBlocks_spec {S : Blake2sState} (hS : S.Wf) (inp : List UInt8) :
    (blake2sUpdateBlocks S inp).1.Wf
      ∧ ((blake2sUpdateBlocks S inp).1.chain,
          (blake2sUpdateBlocks S inp).1.held ++ (blake2sUpdateBlocks S inp).2)
        = feed blake2sBlock blake2sBlockbytes S.chain (S.held ++ inp) := by
  have hheld := hS.held_length
  have hbuflen := hS.buflen
  by_cases h : blake2sBlockbytes - S.buflen < inp.length
  · obtain ⟨hfirst, hsize⟩ := hS.filled_buf h
    have hdrop : (S.held ++ inp).drop blake2sBlockbytes
        = inp.drop (blake2sBlockbytes - S.buflen) := by
      rw [List.drop_append, hheld, List.drop_eq_nil_of_le (by omega), List.nil_append]
    have hlong : blake2sBlockbytes < (S.held ++ inp).length := by
      rw [List.length_append]
      omega
    obtain ⟨hfeed, hbuf, hlen⟩ := blake2sUpdateLoop_spec
      (blake2sBlock (S.filled inp) (S.filled inp).buf)
      (inp.drop (blake2sBlockbytes - S.buflen))
    rw [blake2sBlock_buf] at hbuf
    rw [blake2sBlock_buflen] at hlen
    rw [blake2sUpdateBlocks_long h, feed_step (by decide) hlong, hdrop]
    refine ⟨⟨by rw [hbuf, hsize], hlen.trans_le (Nat.zero_le _)⟩, ?_⟩
    rw [Blake2sState.held, hlen, ← hfirst]
    exact hfeed
  · rw [blake2sUpdateBlocks, if_neg h, feed_short]
    · exact ⟨hS, rfl⟩
    · rw [List.length_append]
      omega

theorem blake2sUpdate_spec {S : Blake2sState} (hS : S.Wf) (inp : List UInt8) :
    (blake2sUpdate S inp).Wf
      ∧ ((blake2sUpdate S inp).chain, (blake2sUpdate S inp).held)
        = feed blake2sBlock blake2sBlockbytes S.chain (S.held ++ inp) := by
  by_cases h : 0 < inp.length
  · obtain ⟨hwf, hfeed⟩ := blake2sUpdateBlocks_spec hS inp
    have hrest := feed_rest_le (f := blake2sBlock) (B := blake2sBlockbytes) (by decide)
      S.chain (S.held ++ inp)
    rw [← hfeed, List.length_append, hwf.held_length] at hrest
    have hheld : (memcpy (blake2sUpdateBlocks S inp).1.buf (blake2sUpdateBlocks S inp).1.buflen
        (blake2sUpdateBlocks S inp).2).take ((blake2sUpdateBlocks S inp).1.buflen
          + (blake2sUpdateBlocks S inp).2.length)
        = (blake2sUpdateBlocks S inp).1.held ++ (blake2sUpdateBlocks S inp).2 :=
      memcpy_take (by rw [hwf.buf]; exact hwf.buflen)
    rw [blake2sUpdate, if_pos h]
    refine ⟨⟨(memcpy_length (by rw [hwf.buf]; exact hrest)).trans hwf.buf, hrest⟩, ?_⟩
    rw [← hfeed]
    exact Prod.ext rfl hheld
  · obtain rfl : inp = [] := List.length_eq_zero_iff.mp (by omega)
    rw [blake2sUpdate, if_neg h, List.append_nil, feed_short (by rw [hS.held_length]; exact hS.buflen)]
    exact ⟨hS, rfl⟩

theorem blake2sInit_wf {S : Blake2sState} (hS : S.Wf) (outlen : Nat) :
    (blake2sInit S outlen).Wf := by
  unfold blake2sInit
  split
  · exact hS
  · exact ⟨rfl, Nat.zero_le _⟩

/-- The state after a sequence of updates is, up to stale buffer bytes,
the state after one update with their concatenation. -/
theorem blake2sUpdates_spec {S : Blake2sState} (hS : S.Wf) (inps : List (List UInt8)) :
    (inps.foldl blake2sUpdate S).Wf
      ∧ ((inps.foldl blake2sUpdate S).chain, (inps.foldl blake2sUpdate S).held)
        = feed blake2sBlock blake2sBlockbytes S.chain (S.held ++ inps.flatten) := by
  induction inps generalizing S with
  | nil =>
      rw [List.flatten_nil, List.append_nil, feed_short (by rw [hS.held_length]; exact hS.buflen)]
      exact ⟨hS, rfl⟩
  | cons inp inps ih =>
      obtain ⟨hwf, hfeed⟩ := blake2sUpdate_spec hS inp
      obtain ⟨hwf', hfeed'⟩ := ih hwf
      refine ⟨hwf', hfeed'.trans ?_⟩
      rw [List.flatten_cons, ← List.append_assoc,
        feed_append (by decide) S.chain (S.held ++ inp), ← hfeed]

/-- A digest depends on the chain part and the held-back bytes only. -/
theorem blake2sFinal_congr {S T : Blake2sState} (hS : S.Wf) (hT : T.Wf)
    (hchain : S.chain = T.chain) (hheld : S.held = T.held) (outlen : Nat) :
    (blake2sFinal S outlen).1 = (blake2sFinal T outlen).1 := by
  have hlen : S.buflen = T.buflen := by rw [← hS.held_length, ← hT.held_length, hheld]
  obtain ⟨h, t, f, buf, buflen, outlenS, lastNode⟩ := S
  obtain ⟨h', t', f', buf', buflen', outlenT, lastNode'⟩ := T
  simp only [Blake2sState.chain, Blake2sState.mk.injEq] at hchain
  simp only [Blake2sState.held] at hheld
  simp only at hlen
  obtain ⟨rfl, rfl, rfl, -, -, rfl, rfl⟩ := hchain
  subst hlen
  by_cases hshort : outlen < outlenS
  · simp [blake2sFinal, hshort]
  · by_cases hlast : f[0] = 0
    · simp [blake2sFinal, blake2sIsLastblock, blake2sIncrementCounter, blake2sSetLastblock,
        blake2sCompress, hshort, hlast, hheld]
    · simp [blake2sFinal, blake2sIsLastblock, hshort, hlast]

/-- **Streaming**: however a message is cut into updates, the digest is
the one-shot digest of the message. The incoming state does not matter,
as `init` overwrites it. -/
theorem blake2sStream_eq {S : Blake2sState} {outlen : Nat}
    (hout : 0 < outlen) (hmax : outlen ≤ blake2sOutbytes) (inps : List (List UInt8)) :
    (blake2sFinal (inps.foldl blake2sUpdate (blake2sInit S outlen)) outlen).1
      = blake2s outlen inps.flatten := by
  have hinit : blake2sInit S outlen = blake2sInit Blake2sState.zero outlen := by
    rw [blake2sInit, blake2sInit, if_neg (by omega), if_neg (by omega)]
  have hwf := blake2sInit_wf (S := Blake2sState.zero) ⟨by decide, by decide⟩ outlen
  obtain ⟨hmany, hfeed⟩ := blake2sUpdates_spec hwf inps
  obtain ⟨hone, hfeed₁⟩ := blake2sUpdate_spec hwf inps.flatten
  have hboth := hfeed.trans hfeed₁.symm
  rw [hinit, blake2s]
  exact blake2sFinal_congr hmany hone (congrArg Prod.fst hboth) (congrArg Prod.snd hboth) outlen

theorem store32_flatMap_length (ws : List UInt32) :
    (ws.flatMap store32).length = 4 * ws.length := by
  induction ws with
  | nil => rfl
  | cons w ws ih =>
      rw [List.flatMap_cons, List.length_append, ih, List.length_cons, Nat.mul_succ, Nat.add_comm]
      rfl

theorem blake2sFinal_length {S : Blake2sState} {outlen : Nat} {out : List UInt8}
    (hmax : outlen ≤ blake2sOutbytes) (h : (blake2sFinal S outlen).1 = some out) :
    out.length = outlen := by
  unfold blake2sFinal at h
  split at h
  · cases h
  · split at h
    · cases h
    · obtain rfl := Option.some.inj h
      rw [List.length_take, store32_flatMap_length, Vector.length_toList]
      exact Nat.min_eq_left hmax

/-- A digest that was never finalised before is delivered. -/
theorem blake2s_delivers (inp : List UInt8) :
    ∃ out, blake2s blake2sOutbytes inp = some out ∧ out.length = blake2sOutbytes := by
  have hwf := blake2sInit_wf (S := Blake2sState.zero) ⟨by decide, by decide⟩ blake2sOutbytes
  obtain ⟨-, hfeed⟩ := blake2sUpdate_spec hwf inp
  -- no block sets the last-block flag or touches the output length
  have hkept := feed_inv (f := blake2sBlock) (B := blake2sBlockbytes)
    (P := fun S => S.f[0] = 0 ∧ S.outlen = blake2sOutbytes) (fun _ _ h => h) (by decide)
    (blake2sInit Blake2sState.zero blake2sOutbytes).chain
    ((blake2sInit Blake2sState.zero blake2sOutbytes).held ++ inp) ⟨rfl, rfl⟩
  rw [← hfeed] at hkept
  obtain ⟨hf, hout⟩ := hkept
  have hf' : (blake2sUpdate (blake2sInit Blake2sState.zero blake2sOutbytes) inp).f[0] = 0 := hf
  have hout' : (blake2sUpdate (blake2sInit Blake2sState.zero blake2sOutbytes) inp).outlen
      = blake2sOutbytes := hout
  have hsome : (blake2s blake2sOutbytes inp).isSome := by
    simp [blake2s, blake2sFinal, blake2sIsLastblock, hf', hout']
  obtain ⟨out, h⟩ := Option.isSome_iff_exists.mp hsome
  exact ⟨out, h, blake2sFinal_length (Nat.le_refl _) h⟩

end Ta

end Oat
