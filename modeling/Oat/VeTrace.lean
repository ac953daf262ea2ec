import Oat.FoldRun
import Oat.TextLines

/-!
# `ExecutionTrace`: the conditional trace as the verify engine reads it

The class of `verify_engine` that opens a trace file, keeps its first
line, and hands out one symbol per conditional branch. A Python string is
a byte string here, as it is in Python 2.

`next_branch` prints the symbol it is about to look at, so past the end
of the trace it raises; and a symbol that is neither `'y'` nor `'n'` is
answered with `'e'` and stays where it is.
-/

namespace Oat

namespace Ve

inductive PyError where
  | assertionError
  | indexError
  | nameError
  | typeError
  | valueError
deriving Repr, DecidableEq

/-- What `next_branch` returns: `'y'`, `'n'` or `'e'`. -/
inductive NextBranch where
  | y
  | n
  | e
deriving Repr, DecidableEq

def symY : UInt8 := 'y'.toUInt8
def symN : UInt8 := 'n'.toUInt8

/-- `get_trace`, on the contents of the file. -/
def getTrace (file : List UInt8) : Except PyError (List UInt8) :=
  match readlines file with
  | [] => .error .assertionError
  | line :: _ => .ok (strip line)

structure ExecutionTrace where
  idx : Nat
  trace : List UInt8
deriving Repr, DecidableEq

namespace ExecutionTrace

def init (file : List UInt8) : Except PyError ExecutionTrace := do
  let trace ← getTrace file
  pure ⟨0, trace⟩

def nextBranch (t : ExecutionTrace) : Except PyError (NextBranch × ExecutionTrace) :=
  match t.trace[t.idx]? with
  | none => .error .indexError -- raised by the `print`
  | some symbol =>
      if t.idx < t.trace.length then
        if symbol = symY then .ok (.y, { t with idx := t.idx + 1 })
        else if symbol = symN then .ok (.n, { t with idx := t.idx + 1 })
        else .ok (.e, t)
      else .ok (.e, t)

def nextBranches : Nat → ExecutionTrace → Except PyError (List NextBranch × ExecutionTrace)
  | 0, t => .ok ([], t)
  | n + 1, t => do
      let (b, t) ← t.nextBranch
      let (bs, t) ← nextBranches n t
      pure (b :: bs, t)

theorem nextBranches_succ_ok {n : Nat} {t t' : ExecutionTrace} {bs : List NextBranch}
    (h : t.nextBranches (n + 1) = .ok (bs, t')) :
    ∃ b t₁ bs₁, t.nextBranch = .ok (b, t₁) ∧ t₁.nextBranches n = .ok (bs₁, t')
      ∧ bs = b :: bs₁ := by
  obtain ⟨⟨b, t₁⟩, hb, hrest⟩ := bind_eq_ok.mp h
  obtain ⟨⟨bs₁, t₂⟩, hbs, hret⟩ := bind_eq_ok.mp hrest
  obtain ⟨rfl, rfl⟩ := Prod.mk.injEq .. |>.mp (Except.ok.inj hret)
  exact ⟨b, t₁, bs₁, hb, hbs, rfl⟩

/-- What `next_branch` makes of a symbol. -/
def classify (symbol : UInt8) : NextBranch :=
  if symbol = symY then .y else if symbol = symN then .n else .e

theorem nextBranch_end {t : ExecutionTrace} (h : t.trace[t.idx]? = none) :
    t.nextBranch = .error .indexError := by
  rw [nextBranch, h]

/-- A symbol is answered by its class; only `'y'` and `'n'` are consumed. -/
theorem nextBranch_symbol {t : ExecutionTrace} {symbol : UInt8}
    (h : t.trace[t.idx]? = some symbol) :
    t.nextBranch = .ok (classify symbol,
      { t with idx := if classify symbol = .e then t.idx else t.idx + 1 }) := by
  have hlt : t.idx < t.trace.length := (List.getElem?_eq_some_iff.mp h).1
  simp only [nextBranch, h, if_pos hlt, classify]
  split
  · rfl
  · split <;> rfl

end ExecutionTrace

end Ve

end Oat
