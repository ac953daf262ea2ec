import Mathlib.Data.Set.Insert
import Mathlib.Logic.Function.Basic
import Mathlib.Tactic.Tauto

/-!
# Sets that keys may share

A map from keys to references of sets. Two keys with the same reference
share its set: what is added in place for one is there for the other.

`merge` is how a result flows from one key to another: it is added to the
set there, or the set itself is shared where there is none.
`merged_here_iff` and `merged_elsewhere_iff` say when that reaches the one
key it is for and no other of a kind.
-/

namespace Oat

structure SharedSets (K α : Type*) where
  ref : K → Option Nat
  set : Nat → Set α

namespace SharedSets

variable {K α : Type*}

def contents (s : SharedSets K α) (k : K) : Set α := {x | ∃ r, s.ref k = some r ∧ x ∈ s.set r}

def Shares (s : SharedSets K α) (k k' : K) : Prop := ∃ r, s.ref k = some r ∧ s.ref k' = some r

/-- Add to a set in place. -/
def addTo (s : SharedSets K α) (r : Nat) (l : Set α) : SharedSets K α :=
  { s with set := Function.update s.set r (s.set r ∪ l) }

def merge [DecidableEq K] (s : SharedSets K α) (src dst : K) : SharedSets K α :=
  match s.ref src, s.ref dst with
  | some a, some b => s.addTo b (s.set a)
  | some a, none => { s with ref := Function.update s.ref dst (some a) }
  | none, _ => s

variable {s : SharedSets K α}

theorem contents_of_ref {k : K} {r : Nat} (h : s.ref k = some r) : s.contents k = s.set r := by
  ext x
  simp [contents, h]

theorem contents_of_none {k : K} (h : s.ref k = none) : s.contents k = ∅ := by
  ext x
  simp [contents, h]

theorem Shares.contents_eq {k k' : K} (h : s.Shares k k') : s.contents k = s.contents k' := by
  obtain ⟨r, hk, hk'⟩ := h
  rw [contents_of_ref hk, contents_of_ref hk']

/-- Each key with this set gets what is added. -/
theorem contents_addTo {dst : K} {r : Nat} (hr : s.ref dst = some r) (l : Set α) (k : K) :
    (s.addTo r l).contents k = s.contents k ∪ {x | s.Shares k dst ∧ x ∈ l} := by
  ext x
  simp only [contents, addTo, Shares, hr, Set.mem_union, Set.mem_ofPred_eq, Option.some.injEq]
  constructor
  · rintro ⟨r', hk, hx⟩
    by_cases heq : r' = r
    · subst heq
      rw [Function.update_self] at hx
      rcases hx with hx | hx
      · exact .inl ⟨r', hk, hx⟩
      · exact .inr ⟨⟨r', hk, rfl⟩, hx⟩
    · rw [Function.update_of_ne heq] at hx
      exact .inl ⟨r', hk, hx⟩
  · rintro (⟨r', hk, hx⟩ | ⟨⟨r', hk, rfl⟩, hx⟩)
    · refine ⟨r', hk, ?_⟩
      by_cases heq : r' = r
      · subst heq
        rw [Function.update_self]
        exact .inl hx
      · rwa [Function.update_of_ne heq]
    · refine ⟨_, hk, ?_⟩
      rw [Function.update_self]
      exact .inr hx

variable [DecidableEq K]

theorem contents_merge (src dst k : K) :
    (s.merge src dst).contents k =
      s.contents k ∪ {x | (k = dst ∨ s.Shares k dst) ∧ x ∈ s.contents src} := by
  unfold merge
  cases hsrc : s.ref src with
  | none => simp [contents_of_none hsrc]
  | some a =>
      rw [contents_of_ref hsrc]
      cases hdst : s.ref dst with
      | some b =>
          dsimp only
          rw [contents_addTo hdst]
          congr 1
          ext x
          have hself : k = dst → s.Shares k dst := by
            rintro rfl
            exact ⟨b, hdst, hdst⟩
          simp only [Set.mem_ofPred_eq]
          tauto
      | none =>
          have hno : ¬ s.Shares k dst := fun ⟨_, _, h⟩ => by simp [hdst] at h
          ext x
          by_cases hk : k = dst
          · subst hk
            simp [contents, hdst]
          · simp [contents, hk, hno]

/-- What `src` had has come to `c`, and to none of the others. -/
structure MergedInto (s s' : SharedSets K α) (src c : K) (others : Set K) : Prop where
  into : s'.contents c = s.contents c ∪ s.contents src
  rest : ∀ o ∈ others, s'.contents o = s.contents o

/-- A key that shares the set gets it too. -/
theorem merged_here_iff {others : Set K} {src c : K} (hc : c ∉ others) :
    MergedInto s (s.merge src c) src c others ↔
      ∀ o ∈ others, s.Shares o c → s.contents src ⊆ s.contents c := by
  constructor
  · intro h o ho hshares x hx
    have hrest := h.rest o ho
    rw [contents_merge] at hrest
    rw [← hshares.contents_eq, ← hrest]
    exact .inr ⟨.inr hshares, hx⟩
  · intro h
    refine ⟨?_, fun o ho => ?_⟩
    · rw [contents_merge]
      simp
    · rw [contents_merge, Set.union_eq_left]
      rintro x ⟨rfl | hshares, hx⟩
      · exact absurd ho hc
      · rw [hshares.contents_eq]
        exact h o ho hshares hx

/-- Merged into another key, it must be there already, and in `c`. -/
theorem merged_elsewhere_iff {others : Set K} {src dst c : K} (hdst : dst ∈ others) (hne : c ≠ dst) :
    MergedInto s (s.merge src dst) src c others ↔
      s.contents src ⊆ s.contents c ∧ s.contents src ⊆ s.contents dst := by
  constructor
  · intro h
    have hdst : s.contents src ⊆ s.contents dst := by
      intro x hx
      rw [← h.rest dst hdst, contents_merge]
      exact .inr ⟨.inl rfl, hx⟩
    refine ⟨fun x hx => ?_, hdst⟩
    have hinto : x ∈ (s.merge src dst).contents c := by
      rw [h.into]
      exact .inr hx
    rw [contents_merge] at hinto
    rcases hinto with hinto | ⟨heq | hshares, -⟩
    · exact hinto
    · exact absurd heq hne
    · rw [hshares.contents_eq]
      exact hdst hx
  · rintro ⟨hc, hdst⟩
    have hsame : ∀ k, (s.merge src dst).contents k = s.contents k := by
      intro k
      rw [contents_merge, Set.union_eq_left]
      rintro x ⟨rfl | hshares, hx⟩
      · exact hdst hx
      · rw [hshares.contents_eq]
        exact hdst hx
    refine ⟨?_, fun o _ => hsame o⟩
    rw [hsame c, Set.union_eq_left.mpr hc]

end SharedSets

end Oat
