import Mathlib.Data.List.Basic
import Mathlib.Data.List.Pairwise

/-!
# Overwriting parts of a list

`overwrite xs off ws` has `ws` in place of what `xs` has at `off`, and
`overwriteAll` does a list of such writes. Within bounds they keep the
length; a place that no write covers stays (`overwriteAll_getElem?`), and
writes that do not overlap are all to be read back
(`window_overwriteAll`).
-/

namespace Oat

variable {α : Type}

/-! ## One write -/

/-- The `n` elements at `off`, if they are there. -/
def window (xs : List α) (off n : Nat) : Option (List α) :=
  if off + n ≤ xs.length then some ((xs.drop off).take n) else none

def overwrite (xs : List α) (off : Nat) (ws : List α) : List α :=
  xs.take off ++ ws ++ xs.drop (off + ws.length)

theorem window_length {xs ws : List α} {off n : Nat} (h : window xs off n = some ws) :
    off + n ≤ xs.length ∧ ws.length = n := by
  unfold window at h
  split at h
  · obtain rfl := Option.some.inj h
    refine ⟨by assumption, ?_⟩
    rw [List.length_take, List.length_drop]
    omega
  · cases h

theorem window_getElem? {xs ws : List α} {off n : Nat} (h : window xs off n = some ws) {k : Nat}
    (hk : k < n) : xs[off + k]? = ws[k]? := by
  unfold window at h
  split at h
  · obtain rfl := Option.some.inj h
    rw [List.getElem?_take_of_lt hk, List.getElem?_drop]
  · cases h

/-- A window is what its places hold. -/
theorem window_congr {xs ys : List α} {off n : Nat} (hlen : xs.length = ys.length)
    (h : ∀ k, off ≤ k → k < off + n → xs[k]? = ys[k]?) : window xs off n = window ys off n := by
  unfold window
  rw [hlen]
  refine if_congr Iff.rfl (congrArg some (List.ext_getElem? fun k => ?_)) rfl
  by_cases hk : k < n
  · rw [List.getElem?_take_of_lt hk, List.getElem?_take_of_lt hk, List.getElem?_drop,
      List.getElem?_drop]
    exact h _ (by omega) (by omega)
  · rw [List.getElem?_take_eq_none (by omega), List.getElem?_take_eq_none (by omega)]

theorem window_drop (xs : List α) {m off n : Nat} (hm : m ≤ off) (hn : 0 < n) :
    window (xs.drop m) (off - m) n = window xs off n := by
  unfold window
  rw [List.drop_drop, List.length_drop, Nat.add_sub_cancel' hm]
  exact if_congr (by omega) rfl rfl

theorem overwrite_length {xs ws : List α} {off : Nat} (h : off + ws.length ≤ xs.length) :
    (overwrite xs off ws).length = xs.length := by
  simp only [overwrite, List.length_append, List.length_take, List.length_drop]
  omega

theorem overwrite_getElem? {xs ws : List α} {off : Nat} (h : off + ws.length ≤ xs.length)
    (k : Nat) : (overwrite xs off ws)[k]? =
      if off ≤ k ∧ k < off + ws.length then ws[k - off]? else xs[k]? := by
  have htake : (xs.take off).length = off := by
    rw [List.length_take]
    omega
  rw [overwrite, List.append_assoc]
  by_cases hlt : k < off
  · rw [List.getElem?_append_left (by omega), List.getElem?_take_of_lt hlt,
      if_neg (by omega)]
  · rw [List.getElem?_append_right (by omega), htake]
    by_cases hin : k < off + ws.length
    · rw [List.getElem?_append_left (by omega), if_pos ⟨by omega, hin⟩]
    · rw [List.getElem?_append_right (by omega), List.getElem?_drop, if_neg (by omega)]
      congr 1
      omega

/-! ## A list of writes -/

def overwriteAll (xs : List α) (ops : List (Nat × List α)) : List α :=
  ops.foldl (fun xs op => overwrite xs op.1 op.2) xs

theorem overwriteAll_append (xs : List α) (ops : List (Nat × List α)) (off : Nat) (ws : List α) :
    overwriteAll xs (ops ++ [(off, ws)]) = overwrite (overwriteAll xs ops) off ws := by
  rw [overwriteAll, List.foldl_append]
  rfl

theorem overwriteAll_length {xs : List α} {ops : List (Nat × List α)}
    (h : ∀ op ∈ ops, op.1 + op.2.length ≤ xs.length) :
    (overwriteAll xs ops).length = xs.length := by
  induction ops generalizing xs with
  | nil => rfl
  | cons op ops ih =>
      have hop := overwrite_length (h op List.mem_cons_self)
      refine (ih fun op' hop' => ?_).trans hop
      rw [hop]
      exact h op' (List.mem_cons_of_mem _ hop')

/-- What no write covers stays. -/
theorem overwriteAll_getElem? {xs : List α} {ops : List (Nat × List α)}
    (h : ∀ op ∈ ops, op.1 + op.2.length ≤ xs.length) {k : Nat}
    (hk : ∀ op ∈ ops, ¬ (op.1 ≤ k ∧ k < op.1 + op.2.length)) :
    (overwriteAll xs ops)[k]? = xs[k]? := by
  induction ops generalizing xs with
  | nil => rfl
  | cons op ops ih =>
      have hop := h op List.mem_cons_self
      refine (ih (fun op' hop' => ?_) fun op' hop' => hk op' (List.mem_cons_of_mem _ hop')).trans ?_
      · rw [overwrite_length hop]
        exact h op' (List.mem_cons_of_mem _ hop')
      · rw [overwrite_getElem? hop, if_neg (hk op List.mem_cons_self)]

/-- Writes in increasing order, each ending before the next begins, are
all to be read back. -/
theorem window_overwriteAll {xs : List α} {ops : List (Nat × List α)}
    (h : ∀ op ∈ ops, op.1 + op.2.length ≤ xs.length)
    (hspaced : ops.Pairwise fun p q => p.1 + p.2.length ≤ q.1) {op : Nat × List α}
    (hop : op ∈ ops) : window (overwriteAll xs ops) op.1 op.2.length = some op.2 := by
  induction ops generalizing xs with
  | nil => cases hop
  | cons op' ops ih =>
      obtain ⟨hfirst, hrest⟩ := List.pairwise_cons.mp hspaced
      have hop' := h op' List.mem_cons_self
      have hbounds : ∀ q ∈ ops, q.1 + q.2.length ≤ (overwrite xs op'.1 op'.2).length := by
        intro q hq
        rw [overwrite_length hop']
        exact h q (List.mem_cons_of_mem _ hq)
      rcases List.mem_cons.mp hop with rfl | hop
      · have hlen : op.1 + op.2.length ≤ (overwriteAll xs (op :: ops)).length := by
          rw [overwriteAll_length h]
          exact hop'
        rw [window, if_pos hlen]
        refine congrArg some (List.ext_getElem? fun k => ?_)
        by_cases hk : k < op.2.length
        · rw [List.getElem?_take_of_lt hk, List.getElem?_drop]
          refine (overwriteAll_getElem? hbounds fun q hq => ?_).trans ?_
          · have := hfirst q hq
            omega
          · rw [overwrite_getElem? hop', if_pos ⟨by omega, by omega⟩, Nat.add_sub_cancel_left]
        · rw [List.getElem?_take_eq_none (by omega), List.getElem?_eq_none (by omega)]
      · exact ih hbounds hrest hop

end Oat
