import Mathlib.Data.List.Basic

/-!
# A bounded buffer in front of an append-only record

Items are collected in a buffer of `cap` slots. An item that finds the
buffer full first has the buffer encoded and appended to the record,
then starts the buffer afresh; the end of a session appends what the
buffer still holds. The law the users of this file need is
`pushAll_total`: at any moment, the record followed by the encoded
buffer is the old record followed by the encoding of every item, in
order - the flushes are invisible in it.

Flushing is lazy (on the *next* item), so a full buffer is a legal
resting state: the bound is `pending.length ≤ cap`, and the slot an
item is written to is below `cap` (`push_slot_lt`).
-/

namespace Oat

variable {α β : Type}

/-- The record written so far and the items waiting in the buffer. -/
structure FlushLog (α β : Type) where
  stored : List β
  pending : List α

namespace FlushLog

variable (enc : α → List β) (cap : Nat)

/-- The record once the buffer is written out after it. -/
def total (l : FlushLog α β) : List β := l.stored ++ l.pending.flatMap enc

def flush (l : FlushLog α β) : FlushLog α β := ⟨l.total enc, []⟩

def flushIfFull (l : FlushLog α β) : FlushLog α β :=
  if l.pending.length = cap then l.flush enc else l

def push (l : FlushLog α β) (x : α) : FlushLog α β :=
  let l' := l.flushIfFull enc cap
  ⟨l'.stored, l'.pending ++ [x]⟩

def pushAll (l : FlushLog α β) (xs : List α) : FlushLog α β :=
  xs.foldl (push enc cap) l

variable {enc : α → List β} {cap : Nat}

@[simp] theorem flushIfFull_total (l : FlushLog α β) :
    (l.flushIfFull enc cap).total enc = l.total enc := by
  unfold flushIfFull
  split <;> simp [flush, total]

theorem push_slot_lt {l : FlushLog α β} (hcap : 0 < cap) (h : l.pending.length ≤ cap) :
    (l.flushIfFull enc cap).pending.length < cap := by
  unfold flushIfFull
  split
  · simpa [flush] using hcap
  · omega

/-- After an item the buffer is not empty: the flush is lazy. -/
theorem push_pending_ne_nil (l : FlushLog α β) (x : α) :
    (l.push enc cap x).pending ≠ [] := by
  simp [push]

theorem push_total (l : FlushLog α β) (x : α) :
    (l.push enc cap x).total enc = l.total enc ++ enc x := by
  have h : (l.flushIfFull enc cap).total enc = l.total enc := flushIfFull_total l
  rw [total] at h
  rw [push, total, List.flatMap_append, ← List.append_assoc, h]
  simp

/-- Nothing is lost, duplicated or reordered, however many flushes the
sequence causes. -/
theorem pushAll_total (enc : α → List β) (cap : Nat) (xs : List α) (l : FlushLog α β) :
    (l.pushAll enc cap xs).total enc = l.total enc ++ xs.flatMap enc := by
  induction xs generalizing l with
  | nil => simp [pushAll]
  | cons x xs ih =>
      have hrest : ((l.push enc cap x).pushAll enc cap xs).total enc
          = (l.push enc cap x).total enc ++ xs.flatMap enc := ih (l.push enc cap x)
      rw [push_total] at hrest
      simpa [pushAll] using hrest

theorem pushAll_append (l : FlushLog α β) (xs ys : List α) :
    l.pushAll enc cap (xs ++ ys) = (l.pushAll enc cap xs).pushAll enc cap ys := by
  simp [pushAll, List.foldl_append]

/-- A log that has accepted an item since the buffer was empty still
holds one: the buffer is empty only if nothing was accepted. -/
theorem pushAll_pending_eq_nil {l : FlushLog α β} (hl : l.pending = []) (xs : List α) :
    (l.pushAll enc cap xs).pending = [] ↔ xs = [] := by
  constructor
  · intro h
    rcases List.eq_nil_or_concat xs with rfl | ⟨ys, y, rfl⟩
    · rfl
    · rw [List.concat_eq_append, pushAll_append] at h
      exact absurd h (push_pending_ne_nil _ y)
  · rintro rfl
    exact hl

end FlushLog

/-! ## A record that may fail to grow -/

/-- What may become of a record `r` when `c` was to be appended: it grows
by no more than the length of `c`, and by that much only if it is
`r ++ c`. -/
structure Grew (r c r' : List β) : Prop where
  le : r'.length ≤ r.length + c.length
  full : r.length + c.length ≤ r'.length → r' = r ++ c

/-- A loss is never made up for: the record is a `t` that is at least as
long as what it should have become exactly when `t` is that, and the
append went right. -/
theorem Grew.eq_iff {r c r' t : List β} (h : Grew r c r')
    (ht : r.length + c.length ≤ t.length) : r' = t ↔ r ++ c = t ∧ r' = r ++ c := by
  constructor
  · rintro rfl
    exact ⟨(h.full ht).symm, h.full ht⟩
  · rintro ⟨rfl, h'⟩
    exact h'

end Oat
