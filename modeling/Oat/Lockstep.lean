import Mathlib.Data.List.Basic
import Mathlib.Data.List.Infix
import Mathlib.Logic.Function.Iterate

/-!
# Two runs seen through what they put out

A run is a sequence of states, and every state puts out a finite list.
Two runs put out the same sequence when each finite piece of one is a
piece of the other, whatever the speeds: a run may be silent for as long
as it likes. `lockstep` is the rule that turns such an equality back
into a relation that holds state by state, for machines whose related
states put out equally many items. `SameSequence.of_stutter` goes the
other way, where one machine may take several steps for one of the other.
-/

namespace Oat

variable {σ τ α : Type}

/-- What the first `n` states put out. -/
def outUpTo (out : Nat → List α) (n : Nat) : List α := (List.range n).flatMap out

@[simp] theorem outUpTo_zero (out : Nat → List α) : outUpTo out 0 = [] := rfl

theorem outUpTo_succ (out : Nat → List α) (n : Nat) :
    outUpTo out (n + 1) = outUpTo out n ++ out n := by
  simp [outUpTo, List.range_succ]

theorem outUpTo_mono (out : Nat → List α) {m n : Nat} (h : m ≤ n) :
    outUpTo out m <+: outUpTo out n := by
  induction h with
  | refl => exact List.prefix_refl _
  | step _ ih => exact ih.trans (by rw [outUpTo_succ]; exact List.prefix_append ..)

theorem outUpTo_congr {o₁ o₂ : Nat → List α} (h : ∀ n, o₁ n = o₂ n) (n : Nat) :
    outUpTo o₁ n = outUpTo o₂ n := by
  rw [funext h]

/-- A run that falls silent has put out everything by then. -/
theorem outUpTo_silent {out : Nat → List α} {N : Nat} (h : ∀ n, N ≤ n → out n = []) (n : Nat) :
    outUpTo out n <+: outUpTo out N := by
  rcases Nat.le_total n N with hn | hn
  · exact outUpTo_mono out hn
  · induction hn with
    | refl => exact List.prefix_refl _
    | step hle ih =>
        rw [outUpTo_succ, h _ hle, List.append_nil]
        exact ih

def SameSequence (o₁ o₂ : Nat → List α) : Prop :=
  (∀ n, ∃ m, outUpTo o₁ n <+: outUpTo o₂ m) ∧ ∀ n, ∃ m, outUpTo o₂ n <+: outUpTo o₁ m

theorem SameSequence.of_eq {o₁ o₂ : Nat → List α} (h : ∀ n, o₁ n = o₂ n) : SameSequence o₁ o₂ :=
  ⟨fun n => ⟨n, by rw [outUpTo_congr h]⟩, fun n => ⟨n, by rw [outUpTo_congr h]⟩⟩

theorem SameSequence.symm {o₁ o₂ : Nat → List α} (h : SameSequence o₁ o₂) : SameSequence o₂ o₁ :=
  ⟨h.2, h.1⟩

theorem SameSequence.trans {o₁ o₂ o₃ : Nat → List α} (h₁ : SameSequence o₁ o₂)
    (h₂ : SameSequence o₂ o₃) : SameSequence o₁ o₃ := by
  constructor
  · intro n
    obtain ⟨m, hm⟩ := h₁.1 n
    obtain ⟨k, hk⟩ := h₂.1 m
    exact ⟨k, hm.trans hk⟩
  · intro n
    obtain ⟨m, hm⟩ := h₂.2 n
    obtain ⟨k, hk⟩ := h₁.2 m
    exact ⟨k, hm.trans hk⟩

/-- Pieces of the same sequence that are equally long are equal. -/
theorem SameSequence.outUpTo_eq {o₁ o₂ : Nat → List α} (h : SameSequence o₁ o₂) {n : Nat}
    (hlen : (outUpTo o₁ n).length = (outUpTo o₂ n).length) : outUpTo o₁ n = outUpTo o₂ n := by
  obtain ⟨m, hm⟩ := h.1 n
  have h1 : outUpTo o₁ n <+: outUpTo o₂ (max m n) :=
    hm.trans (outUpTo_mono o₂ (Nat.le_max_left m n))
  have h2 : outUpTo o₂ n <+: outUpTo o₂ (max m n) := outUpTo_mono o₂ (Nat.le_max_right m n)
  exact (List.prefix_of_prefix_length_le h1 h2 (Nat.le_of_eq hlen)).eq_of_length hlen

section Lockstep

variable {s₁ : Nat → σ} {s₂ : Nat → τ} {out₁ : σ → List α} {out₂ : τ → List α}
  {R : σ → τ → Prop}

/-- If related states put out equally many items, and go on to related
states whenever these items agree, then runs with the same output are
related all along. -/
theorem lockstep (h0 : R (s₁ 0) (s₂ 0))
    (hlen : ∀ a b, R a b → (out₁ a).length = (out₂ b).length)
    (hstep : ∀ n, R (s₁ n) (s₂ n) → out₁ (s₁ n) = out₂ (s₂ n) → R (s₁ (n + 1)) (s₂ (n + 1)))
    (hsame : SameSequence (fun n => out₁ (s₁ n)) (fun n => out₂ (s₂ n))) (n : Nat) :
    R (s₁ n) (s₂ n) := by
  have key : ∀ n, R (s₁ n) (s₂ n) ∧
      outUpTo (fun n => out₁ (s₁ n)) n = outUpTo (fun n => out₂ (s₂ n)) n := by
    intro n
    induction n with
    | zero => exact ⟨h0, rfl⟩
    | succ n ih =>
        obtain ⟨hR, hpast⟩ := ih
        have hlen' : (outUpTo (fun n => out₁ (s₁ n)) (n + 1)).length
            = (outUpTo (fun n => out₂ (s₂ n)) (n + 1)).length := by
          rw [outUpTo_succ, outUpTo_succ, List.length_append, List.length_append, hpast,
            hlen _ _ hR]
        have hall := hsame.outUpTo_eq hlen'
        refine ⟨hstep n hR ?_, hall⟩
        rw [outUpTo_succ, outUpTo_succ, hpast] at hall
        exact List.append_cancel_left hall
  exact (key n).1

end Lockstep

section Stutter

variable {step₁ : σ → σ} {step₂ : τ → τ} {out₁ : σ → List α} {out₂ : τ → List α}
  {R : σ → τ → Prop}

theorem outUpTo_iterate_add (step : τ → τ) (out : τ → List α) (b : τ) (j k : Nat) :
    outUpTo (fun n => out (step^[n] b)) (j + k) =
      outUpTo (fun n => out (step^[n] b)) j ++
        outUpTo (fun n => out (step^[n] (step^[j] b))) k := by
  induction k with
  | zero => simp
  | succ k ih =>
      rw [← Nat.add_assoc, outUpTo_succ, ih, outUpTo_succ, List.append_assoc, Nat.add_comm j k,
        Function.iterate_add_apply]

/-- If the second machine can always follow a step of the first in one
step or more, with the same output on the way, the two runs put out the
same sequence. -/
theorem SameSequence.of_stutter {a : σ} {b : τ} (h0 : R a b)
    (hstep : ∀ a b, R a b → ∃ k, R (step₁ a) (step₂^[k + 1] b) ∧
      outUpTo (fun n => out₂ (step₂^[n] b)) (k + 1) = out₁ a) :
    SameSequence (fun n => out₁ (step₁^[n] a)) (fun n => out₂ (step₂^[n] b)) := by
  have key : ∀ n, ∃ j, n ≤ j ∧ R (step₁^[n] a) (step₂^[j] b) ∧
      outUpTo (fun n => out₁ (step₁^[n] a)) n = outUpTo (fun n => out₂ (step₂^[n] b)) j := by
    intro n
    induction n with
    | zero => exact ⟨0, Nat.le_refl 0, h0, rfl⟩
    | succ n ih =>
        obtain ⟨j, hj, hR, hout⟩ := ih
        obtain ⟨k, hR', hout'⟩ := hstep _ _ hR
        refine ⟨j + (k + 1), by omega, ?_, ?_⟩
        · rw [Function.iterate_succ_apply', Nat.add_comm j, Function.iterate_add_apply]
          exact hR'
        · rw [outUpTo_succ, hout, outUpTo_iterate_add, hout']
  constructor
  · intro n
    obtain ⟨j, -, -, hout⟩ := key n
    exact ⟨j, hout ▸ List.prefix_rfl⟩
  · intro n
    obtain ⟨j, hj, -, hout⟩ := key n
    exact ⟨n, hout ▸ outUpTo_mono _ hj⟩

end Stutter

end Oat
