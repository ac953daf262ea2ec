import Mathlib.Data.List.Basic

/-!
# Streaming a block function

A hash over fixed-size blocks takes in a stream of symbols block by
block. The *lazy* discipline keeps the last block back, even a full one,
because it must be processed differently: a block is compressed only
when at least one more symbol follows it. `feed f B s xs` is that
discipline as a function of the whole stream: the state after the blocks
that can be compressed, and the held-back rest.

`feed_append` is the law that makes an incremental interface agree
with a one-shot one: feeding `xs ++ ys` is feeding `ys` on top of
what feeding `xs` has held back, wherever the seam falls in a block.
-/

namespace Oat

variable {σ β : Type}

/-- Compress every block of `B` symbols that more symbols follow. -/
def feed (f : σ → List β → σ) (B : Nat) (s : σ) (xs : List β) : σ × List β :=
  if _h : 0 < B ∧ B < xs.length then feed f B (f s (xs.take B)) (xs.drop B) else (s, xs)
termination_by xs.length
decreasing_by
  simp only [List.length_drop]
  omega

variable {f : σ → List β → σ} {B : Nat}

theorem feed_short {s : σ} {xs : List β} (h : xs.length ≤ B) :
    feed f B s xs = (s, xs) := by
  rw [feed, dif_neg (by omega)]

theorem feed_step {s : σ} {xs : List β} (hB : 0 < B) (h : B < xs.length) :
    feed f B s xs = feed f B (f s (xs.take B)) (xs.drop B) := by
  rw [feed, dif_pos ⟨hB, h⟩]

/-- What is held back never exceeds one block. -/
theorem feed_rest_le (hB : 0 < B) (s : σ) (xs : List β) :
    (feed f B s xs).2.length ≤ B := by
  by_cases h : B < xs.length
  · rw [feed_step hB h]
    exact feed_rest_le hB _ _
  · rw [feed_short (by omega)]
    simpa using h
termination_by xs.length
decreasing_by
  simp only [List.length_drop]
  omega

/-- What every block keeps, a stream keeps. -/
theorem feed_inv {P : σ → Prop} (hf : ∀ s block, P s → P (f s block)) (hB : 0 < B) (s : σ)
    (xs : List β) (hs : P s) : P (feed f B s xs).1 := by
  by_cases h : B < xs.length
  · rw [feed_step hB h]
    exact feed_inv hf hB _ _ (hf s _ hs)
  · rw [feed_short (by omega)]
    exact hs
termination_by xs.length
decreasing_by
  simp only [List.length_drop]
  omega

/-- Streaming: the seam between two chunks leaves no trace. -/
theorem feed_append (hB : 0 < B) (s : σ) (xs ys : List β) :
    feed f B s (xs ++ ys) = feed f B (feed f B s xs).1 ((feed f B s xs).2 ++ ys) := by
  by_cases h : B < xs.length
  · have hlong : B < (xs ++ ys).length := by
      rw [List.length_append]
      omega
    rw [feed_step hB hlong, feed_step hB h,
      List.take_append_of_le_length (Nat.le_of_lt h),
      List.drop_append_of_le_length (Nat.le_of_lt h)]
    exact feed_append hB _ _ ys
  · have hshort : xs.length ≤ B := by omega
    rw [feed_short hshort]
termination_by xs.length
decreasing_by
  simp only [List.length_drop]
  omega

/-- Block by block: all blocks but the last, which is held back. -/
theorem feed_eq_foldl (hB : 0 < B) (s : σ) (xs : List β) :
    feed f B s xs = ((List.range ((xs.length - 1) / B)).foldl
        (fun s i => f s ((xs.drop (B * i)).take B)) s,
      xs.drop (B * ((xs.length - 1) / B))) := by
  by_cases h : B < xs.length
  · have hlen : (xs.drop B).length = xs.length - B := List.length_drop
    have hcount : (xs.length - 1) / B = ((xs.drop B).length - 1) / B + 1 := by
      rw [hlen, ← Nat.add_div_right _ hB]
      congr 1
      omega
    have hdrop : ∀ i, xs.drop (B * (i + 1)) = (xs.drop B).drop (B * i) := by
      intro i
      rw [List.drop_drop, Nat.mul_succ, Nat.add_comm]
    rw [feed_step hB h, feed_eq_foldl hB, hcount, List.range_succ_eq_map, List.foldl_cons,
      List.foldl_map, hdrop]
    simp only [Nat.succ_eq_add_one, hdrop, Nat.mul_zero, List.drop_zero]
  · have hcount : (xs.length - 1) / B = 0 := Nat.div_eq_of_lt (by omega)
    rw [feed_short (by omega), hcount]
    simp
termination_by xs.length
decreasing_by
  simp only [List.length_drop]
  omega

end Oat
