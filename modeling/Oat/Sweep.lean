import Mathlib.Data.List.Basic
import Mathlib.Data.List.Nodup
import Mathlib.Data.List.Pairwise
import Mathlib.Data.List.Induction

/-!
# Sets in order of insertion, and one sweep over them

`setInsert` adds at the end, and only what is not there (the set-vector
of a compiler). A `sweep` goes over a list of keys once and adds each
key that depends on a member of the set so far, so that what it adds
counts for the keys after it and not for those before it.

`sweep_closed_iff` says when one pass is as good as repeating it until
nothing changes: each key of the closure that is not there from the
start has a dependency that is, or one of the closure that comes earlier.
-/

namespace Oat

variable {α : Type} [DecidableEq α]

/-! ## Set vectors -/

def setInsert (s : List α) (a : α) : List α := if a ∈ s then s else s ++ [a]

def setInsertAll (s l : List α) : List α := l.foldl setInsert s

@[simp] theorem mem_setInsert {s : List α} {a x : α} : x ∈ setInsert s a ↔ x ∈ s ∨ x = a := by
  unfold setInsert
  split
  · rename_i ha
    exact ⟨.inl, fun h => h.elim id fun h => h ▸ ha⟩
  · simp

@[simp] theorem mem_setInsertAll {s l : List α} {x : α} :
    x ∈ setInsertAll s l ↔ x ∈ s ∨ x ∈ l := by
  induction l generalizing s with
  | nil => simp [setInsertAll]
  | cons a l ih =>
      have h := ih (s := setInsert s a)
      simp only [setInsertAll, List.foldl_cons, mem_setInsert] at h ⊢
      rw [h, List.mem_cons, or_assoc]

/-! ## Closure and sweep -/

section Sweep

variable (deps : α → List α)

/-- What a set of seeds grows to along the dependencies of the keys. -/
inductive Closure (seeds keys : List α) : α → Prop where
  | seed {a : α} : a ∈ seeds → Closure seeds keys a
  | dep {k d : α} : k ∈ keys → d ∈ deps k → Closure seeds keys d → Closure seeds keys k

def sweepKey (s : List α) (k : α) : List α :=
  if (deps k).any (· ∈ s) then setInsert s k else s

def sweep (seeds keys : List α) : List α := keys.foldl (sweepKey deps) seeds

variable {deps}

theorem mem_sweepKey {s : List α} {k a : α} :
    a ∈ sweepKey deps s k ↔ a ∈ s ∨ a = k ∧ ∃ d ∈ deps k, d ∈ s := by
  unfold sweepKey
  split
  · rename_i h
    simp only [List.any_eq_true, decide_eq_true_eq] at h
    simp [h]
  · rename_i h
    simp only [List.any_eq_true, decide_eq_true_eq, not_exists, not_and] at h
    exact ⟨.inl, fun ha => ha.elim id fun ⟨_, d, hd, hds⟩ => absurd hds (h d hd)⟩

theorem mem_sweep_of_mem {seeds keys : List α} {a : α} (h : a ∈ seeds) :
    a ∈ sweep deps seeds keys := by
  induction keys generalizing seeds with
  | nil => exact h
  | cons k keys ih => exact ih (mem_sweepKey.mpr (.inl h))

theorem mem_or_mem_keys {seeds keys : List α} {a : α} (h : a ∈ sweep deps seeds keys) :
    a ∈ seeds ∨ a ∈ keys := by
  induction keys generalizing seeds with
  | nil => exact .inl h
  | cons k keys ih =>
      rcases ih h with hs | hk
      · rcases mem_sweepKey.mp hs with hs | ⟨rfl, -⟩
        · exact .inl hs
        · exact .inr (List.mem_cons_self ..)
      · exact .inr (List.mem_cons_of_mem _ hk)

theorem sweep_append (seeds ks₁ ks₂ : List α) :
    sweep deps seeds (ks₁ ++ ks₂) = sweep deps (sweep deps seeds ks₁) ks₂ :=
  List.foldl_append

/-- A key is decided at its turn, by what is there then. -/
theorem mem_sweep_split {seeds ks₁ ks₂ : List α} {k : α} (h₁ : k ∉ ks₁) (h₂ : k ∉ ks₂) :
    k ∈ sweep deps seeds (ks₁ ++ k :: ks₂) ↔
      k ∈ seeds ∨ ∃ d ∈ deps k, d ∈ sweep deps seeds ks₁ := by
  rw [sweep_append]
  constructor
  · intro h
    have hsplit : k ∈ sweep deps (sweepKey deps (sweep deps seeds ks₁) k) ks₂ := h
    rcases mem_or_mem_keys hsplit with h | h
    · rcases mem_sweepKey.mp h with h | ⟨-, hd⟩
      · exact .inl ((mem_or_mem_keys h).resolve_right h₁)
      · exact .inr hd
    · exact absurd h h₂
  · rintro (h | hd)
    · exact mem_sweep_of_mem (mem_sweep_of_mem h)
    · have hk : k ∈ sweepKey deps (sweep deps seeds ks₁) k := mem_sweepKey.mpr (.inr ⟨rfl, hd⟩)
      have hrest : k ∈ sweep deps (sweepKey deps (sweep deps seeds ks₁) k) ks₂ :=
        mem_sweep_of_mem hk
      exact hrest

theorem closure_of_mem_sweep {seeds keys : List α} :
    ∀ a ∈ sweep deps seeds keys, Closure deps seeds keys a := by
  have key : ∀ ks₁ ks₂ : List α, keys = ks₁ ++ ks₂ → ∀ a ∈ sweep deps seeds ks₁,
      Closure deps seeds keys a := by
    intro ks₁
    induction ks₁ using List.reverseRecOn with
    | nil => exact fun _ _ a ha => .seed ha
    | append_singleton ks k ih =>
        intro ks₂ hks a ha
        have ih := ih (k :: ks₂) (by simpa using hks)
        rw [sweep_append] at ha
        rcases mem_sweepKey.mp ha with ha | ⟨rfl, d, hd, hds⟩
        · exact ih a ha
        · exact .dep (by rw [hks]; simp) hd (ih d hds)
  exact key keys [] (List.append_nil _).symm

section Ranked

variable {rank : α → Nat} {seeds keys : List α}
  (hsorted : keys.Pairwise fun a b => rank a < rank b)

include hsorted

/-- In terms of the final set: only smaller keys count. -/
theorem mem_sweep_iff {k : α} (hk : k ∈ keys) :
    k ∈ sweep deps seeds keys ↔
      k ∈ seeds ∨ ∃ d ∈ deps k, d ∈ seeds ∨
        (d ∈ keys ∧ d ∈ sweep deps seeds keys ∧ rank d < rank k) := by
  obtain ⟨ks₁, ks₂, rfl⟩ := List.append_of_mem hk
  obtain ⟨hs₁, hs₂, hlt⟩ := List.pairwise_append.mp hsorted
  have hlt₁ : ∀ d ∈ ks₁, rank d < rank k := fun d hd => hlt d hd k (List.mem_cons_self ..)
  have hlt₂ : ∀ d ∈ ks₂, rank k < rank d := (List.pairwise_cons.mp hs₂).1
  have h₁ : k ∉ ks₁ := fun h => Nat.lt_irrefl _ (hlt₁ k h)
  have h₂ : k ∉ ks₂ := fun h => Nat.lt_irrefl _ (hlt₂ k h)
  rw [mem_sweep_split h₁ h₂]
  refine or_congr_right (exists_congr fun d => and_congr_right fun _ => ?_)
  constructor
  · intro hd
    rcases mem_or_mem_keys hd with h | h
    · exact .inl h
    · refine .inr ⟨List.mem_append_left _ h, ?_, hlt₁ d h⟩
      rw [sweep_append]
      exact mem_sweep_of_mem hd
  · rintro (h | ⟨hdk, hd, hrank⟩)
    · exact mem_sweep_of_mem h
    · -- a smaller key has had its turn
      have hd₁ : d ∈ ks₁ := by
        rcases List.mem_append.mp hdk with h | h
        · exact h
        · rcases List.mem_cons.mp h with rfl | h
          · exact absurd hrank (Nat.lt_irrefl _)
          · exact absurd (hlt₂ d h) (Nat.lt_asymm hrank)
      rw [sweep_append] at hd
      rcases mem_or_mem_keys hd with h | h
      · exact h
      · rcases List.mem_cons.mp h with rfl | h
        · exact absurd hrank (Nat.lt_irrefl _)
        · exact absurd (hlt₂ d h) (Nat.lt_asymm hrank)

variable (deps seeds) in
theorem sweep_closed_iff :
    (∀ a, Closure deps seeds keys a → a ∈ sweep deps seeds keys) ↔
      ∀ k, k ∉ seeds → Closure deps seeds keys k →
        ∃ d ∈ deps k, d ∈ seeds ∨ (Closure deps seeds keys d ∧ rank d < rank k) := by
  constructor
  · intro h k hk hc
    have hkeys : k ∈ keys := (mem_or_mem_keys (h k hc)).resolve_left hk
    obtain ⟨d, hd, hs⟩ := ((mem_sweep_iff hsorted hkeys).mp (h k hc)).resolve_left hk
    exact ⟨d, hd, hs.imp_right fun hs => ⟨closure_of_mem_sweep d hs.2.1, hs.2.2⟩⟩
  · intro h a
    induction hr : rank a using Nat.strongRecOn generalizing a with
    | ind r ih =>
        intro hc
        by_cases hseed : a ∈ seeds
        · exact mem_sweep_of_mem hseed
        have hkeys : a ∈ keys := by
          cases hc with
          | seed hs => exact absurd hs hseed
          | dep hk _ _ => exact hk
        obtain ⟨d, hd, hs⟩ := h a hseed hc
        refine (mem_sweep_iff hsorted hkeys).mpr (.inr ⟨d, hd, ?_⟩)
        rcases hs with hs | ⟨hcd, hlt⟩
        · exact .inl hs
        · have hmem := ih (rank d) (hr ▸ hlt) d rfl hcd
          rcases mem_or_mem_keys hmem with hs | hdk
          · exact .inl hs
          · exact .inr ⟨hdk, hmem, hlt⟩

end Ranked

end Sweep

end Oat
