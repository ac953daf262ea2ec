import Mathlib.Logic.Relation
import Mathlib.Order.Preorder.Finite
import Mathlib.Order.WellFounded

/-!
# Control flow with a stack of returns

Control points with the moves they allow: a jump, a call that puts a
return on the stack, and the return to the one put there last. A point
at which a condition `P` holds is a stop. If each cycle of the control
flow meets a stop (`CyclesMeet`), and the points are finitely many, then
the control flow between stops is well-founded, on any stack
(`CyclesMeet.wellFounded`): an infinite path is infinitely often as low
as it will ever be again, twice of these at the same point, and what
lies between is a cycle.
-/

namespace Oat

inductive Move (α : Type*) where
  | jump (q : α)
  | call (q r : α)
  | ret
deriving DecidableEq

namespace CallGraph

variable {α : Type*} (moves : α → Move α → Prop) (P : α → Prop)

/-- The move of a control point with a stack. -/
inductive Step : α × List α → α × List α → Prop where
  | jump {p q st} : moves p (.jump q) → Step (p, st) (q, st)
  | call {p q r st} : moves p (.call q r) → Step (p, st) (q, r :: st)
  | ret {p r st} : moves p .ret → Step (p, r :: st) (r, st)

/-- A move from a point that is no stop. -/
def Runs (c c' : α × List α) : Prop := Step moves c c' ∧ ¬ P c.1

/-- Each path that comes back to where it began has met a stop. It may
have left calls pending, but returns from its own calls only. -/
def CyclesMeet : Prop := ∀ p w, ¬ Relation.TransGen (Runs moves P) (p, []) (p, w)

variable {moves P}

theorem Step.source {c c' : α × List α} (h : Step moves c c') : ∃ m, moves c.1 m := by
  cases h with
  | jump hm => exact ⟨_, hm⟩
  | call hm => exact ⟨_, hm⟩
  | ret hm => exact ⟨_, hm⟩

/-- A move that stays above `st` does not look at it. -/
theorem Runs.above {p : α} {w st : List α} {c' : α × List α} (h : Runs moves P (p, w ++ st) c')
    (hheight : st.length ≤ c'.2.length) :
    ∃ w', c'.2 = w' ++ st ∧ Runs moves P (p, w) (c'.1, w') := by
  obtain ⟨hstep, hP⟩ := h
  generalize hc : (p, w ++ st) = c at hstep
  cases hstep with
  | jump hm =>
      obtain ⟨rfl, rfl⟩ := Prod.mk.inj hc
      exact ⟨w, rfl, .jump hm, hP⟩
  | call hm =>
      obtain ⟨rfl, rfl⟩ := Prod.mk.inj hc
      exact ⟨_ :: w, rfl, .call hm, hP⟩
  | ret hm =>
      obtain ⟨rfl, hst⟩ := Prod.mk.inj hc
      cases w with
      | nil =>
          -- a return from below would be lower
          rw [List.nil_append] at hst
          rw [hst, List.length_cons] at hheight
          exact absurd hheight (Nat.not_succ_le_self _)
      | cons r w =>
          obtain ⟨rfl, rfl⟩ := List.cons.inj hst
          exact ⟨w, rfl, .ret hm, hP⟩

/-- A point that leads to itself is a return to itself. -/
theorem CyclesMeet.self (hcycles : CyclesMeet moves P) {p : α} {st st' : List α}
    (h : Runs moves P (p, st) (p, st')) : moves p .ret ∧ st.head? = some p := by
  obtain ⟨hstep, hP⟩ := h
  cases hstep with
  | jump hm => exact absurd (.single ⟨.jump hm, hP⟩) (hcycles p [])
  | @call _ _ r _ hm => exact absurd (.single ⟨.call hm, hP⟩) (hcycles p [r])
  | ret hm => exact ⟨hm, rfl⟩

/-- A path that stays above a stack, with the stack taken off. -/
theorem path_above {f : ℕ → α × List α} (hf : ∀ n, Runs moves P (f n) (f (n + 1))) {n : ℕ}
    (hlow : ∀ m, n ≤ m → (f n).2.length ≤ (f m).2.length) (k : ℕ) :
    ∃ w, (f (n + k + 1)).2 = w ++ (f n).2
      ∧ Relation.TransGen (Runs moves P) ((f n).1, []) ((f (n + k + 1)).1, w) := by
  induction k with
  | zero =>
      have hrun : Runs moves P ((f n).1, [] ++ (f n).2) (f (n + 1)) := hf n
      obtain ⟨w, hw, hrun⟩ := hrun.above (hlow (n + 1) (Nat.le_succ n))
      exact ⟨w, hw, .single hrun⟩
  | succ k ih =>
      obtain ⟨w, hw, hpath⟩ := ih
      have hrun : Runs moves P ((f (n + k + 1)).1, w ++ (f n).2) (f (n + k + 1 + 1)) := by
        rw [← hw]
        exact hf (n + k + 1)
      obtain ⟨w', hw', hrun⟩ := hrun.above (hlow _ (by omega))
      exact ⟨w', hw', hpath.tail hrun⟩

/-- A sequence of heights is infinitely often as low as it will ever be
again. -/
theorem lows_infinite (height : ℕ → ℕ) : {n | ∀ m, n ≤ m → height n ≤ height m}.Infinite := by
  refine Set.infinite_of_forall_exists_gt fun n => ?_
  -- the lowest one after `n`
  obtain ⟨m, hm, hmin⟩ :=
    exists_minimalFor_of_wellFoundedLT (fun m => n < m) height ⟨n + 1, Nat.lt_succ_self n⟩
  refine ⟨m, fun k hk => ?_, hm⟩
  by_contra hlt
  exact hlt (hmin (Nat.lt_of_lt_of_le hm hk) (Nat.le_of_not_le hlt))

/-- Between stops, control flow ends. -/
theorem CyclesMeet.wellFounded (hcycles : CyclesMeet moves P)
    (hfinite : {p | ∃ m, moves p m}.Finite) :
    WellFounded fun c' c => Runs moves P c c' := by
  refine ⟨fun c => ?_⟩
  by_contra hacc
  obtain ⟨f, -, hf⟩ := not_acc_iff_exists_descending_chain.mp hacc
  have hlows := lows_infinite fun n => (f n).2.length
  obtain ⟨n, hn, m, -, hnm, hsame⟩ := hlows.exists_lt_map_eq_of_mapsTo
    (f := fun n => (f n).1) (fun n _ => (hf n).1.source) hfinite
  obtain ⟨k, rfl⟩ := Nat.exists_eq_add_of_lt hnm
  obtain ⟨w, -, hpath⟩ := path_above hf hn k
  rw [← hsame] at hpath
  exact hcycles _ _ hpath

end CallGraph

end Oat
