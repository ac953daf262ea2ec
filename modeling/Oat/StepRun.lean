import Mathlib.Logic.Function.Iterate
import Mathlib.Data.List.Basic

/-!
# Runs of a machine

A deterministic machine is a step function on configurations, and its
run is the sequence of iterates; a machine that has stopped steps to
itself. `Reaches` composes stretches of a run, `run_inv` is the
induction rule for what every step keeps, and `trail` is the list of
configurations a run has left, for statements about what a run has done
so far.
-/

namespace Oat

variable {σ : Type} {step : σ → σ}

def Reaches (step : σ → σ) (a b : σ) : Prop := ∃ n, step^[n] a = b

namespace Reaches

theorem refl (a : σ) : Reaches step a a := ⟨0, rfl⟩

theorem head {a b : σ} (h : Reaches step (step a) b) : Reaches step a b := by
  obtain ⟨n, hn⟩ := h
  exact ⟨n + 1, hn⟩

theorem single (a : σ) : Reaches step a (step a) := ⟨1, rfl⟩

theorem trans {a b c : σ} (h₁ : Reaches step a b) (h₂ : Reaches step b c) : Reaches step a c := by
  obtain ⟨m, rfl⟩ := h₁
  obtain ⟨n, rfl⟩ := h₂
  exact ⟨n + m, Function.iterate_add_apply step n m a⟩

end Reaches

/-- What holds at the start and is kept by every step holds all along. -/
theorem run_inv {I : σ → Prop} {a : σ} (h0 : I a) (hstep : ∀ s, I s → I (step s)) (n : Nat) :
    I (step^[n] a) := by
  induction n with
  | zero => exact h0
  | succ n ih =>
      rw [Function.iterate_succ_apply']
      exact hstep _ ih

theorem run_settles {P : σ → Prop} {a : σ} {N : Nat} (hfix : step (step^[N] a) = step^[N] a)
    (h : ∀ k ≤ N, P (step^[k] a)) (n : Nat) : P (step^[n] a) := by
  rcases Nat.le_total n N with hn | hn
  · exact h n hn
  · obtain ⟨m, rfl⟩ := Nat.exists_eq_add_of_le' hn
    rw [Function.iterate_add_apply, Function.iterate_fixed hfix]
    exact h N (Nat.le_refl N)

/-- A run that gets on, by a measure, as long as it has not come to `P`,
comes to `P`. -/
theorem reaches_of_measure {β : Type} {r : β → β → Prop} (hwf : WellFounded r) (m : σ → β)
    {I P : σ → Prop}
    (hstep : ∀ s, I s → ∃ s', Reaches step s s' ∧ (P s' ∨ (I s' ∧ r (m s') (m s)))) :
    ∀ s, I s → ∃ s', Reaches step s s' ∧ P s' := by
  suffices h : ∀ b s, m s = b → I s → ∃ s', Reaches step s s' ∧ P s' from
    fun s hs => h (m s) s rfl hs
  intro b
  induction b using hwf.induction with
  | _ b ih =>
      rintro s rfl hs
      obtain ⟨s₁, hreach, hP | ⟨hs₁, hless⟩⟩ := hstep s hs
      · exact ⟨s₁, hreach, hP⟩
      · obtain ⟨s₂, hreach₂, hP⟩ := ih (m s₁) hless s₁ rfl hs₁
        exact ⟨s₂, hreach.trans hreach₂, hP⟩

/-! ## What a run has left behind -/

/-- The first `n` configurations of the run. -/
def trail (step : σ → σ) (a : σ) (n : Nat) : List σ := (List.range n).map fun k => step^[k] a

@[simp] theorem trail_zero (a : σ) : trail step a 0 = [] := rfl

theorem trail_succ (a : σ) (n : Nat) : trail step a (n + 1) = trail step a n ++ [step^[n] a] := by
  simp [trail, List.range_succ]

/-- The induction rule for an invariant that speaks of the history. -/
theorem trail_inv {I : List σ → σ → Prop} {a : σ} (h0 : I [] a)
    (hstep : ∀ past s, I past s → I (past ++ [s]) (step s)) (n : Nat) :
    I (trail step a n) (step^[n] a) := by
  induction n with
  | zero => exact h0
  | succ n ih =>
      rw [trail_succ, Function.iterate_succ_apply']
      exact hstep _ _ ih

end Oat
