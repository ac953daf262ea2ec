import Mathlib.Data.Finset.Card
import Mathlib.Data.List.Nodup
import Mathlib.Data.Nat.Find
import Mathlib.Data.Nat.ModEq
import Mathlib.Logic.Function.Basic

/-!
# Linear probing

A table of `n` slots. A value goes into the first free slot from its home
on, and a search for it ends at the first slot that was never used. A
slot whose value was removed is free, but marked, so that the search
goes on behind it.

`Stores` is what the table is for: the values in it, each with its home,
and each within reach. Both operations keep it (`Stores.insert`,
`Stores.remove`), as long as the values in the table are different ones.
-/

namespace Oat

namespace Probing

/-- The `c`th slot from the home on. -/
def slot (n home c : Nat) : Nat := (home + c) % n

/-- The first step from `c` on at which the search stops, `left` steps
further at most. -/
def probe (stop : Nat → Bool) : (left c : Nat) → Option Nat
  | 0, c => if stop c then some c else none
  | left + 1, c => if stop c then some c else probe stop left (c + 1)

theorem probe_eq_some {stop : Nat → Bool} {left c c₀ : Nat} (hlow : c ≤ c₀)
    (hhigh : c₀ ≤ c + left) (hstop : stop c₀ = true)
    (hfirst : ∀ d, c ≤ d → d < c₀ → stop d = false) : probe stop left c = some c₀ := by
  induction left generalizing c with
  | zero =>
      obtain rfl : c = c₀ := by omega
      exact if_pos hstop
  | succ left ih =>
      rw [probe]
      rcases Nat.eq_or_lt_of_le hlow with rfl | hlt
      · exact if_pos hstop
      · rw [if_neg (by rw [hfirst c le_rfl hlt]; exact Bool.false_ne_true)]
        exact ih hlt (by omega) fun d hd => hfirst d (by omega)

theorem probe_some {stop : Nat → Bool} {left c c₀ : Nat} (h : probe stop left c = some c₀) :
    c ≤ c₀ ∧ stop c₀ = true ∧ ∀ d, c ≤ d → d < c₀ → stop d = false := by
  induction left generalizing c with
  | zero =>
      rw [probe] at h
      split at h
      · cases h
        exact ⟨le_rfl, ‹_›, fun d hd hlt => absurd hlt (by omega)⟩
      · cases h
  | succ left ih =>
      rw [probe] at h
      split at h
      · cases h
        exact ⟨le_rfl, ‹_›, fun d hd hlt => absurd hlt (by omega)⟩
      · rename_i hc
        obtain ⟨hle, hstop, hfirst⟩ := ih h
        refine ⟨by omega, hstop, fun d hd hlt => ?_⟩
        rcases Nat.eq_or_lt_of_le hd with rfl | hd
        · exact Bool.eq_false_iff.mpr hc
        · exact hfirst d hd hlt

theorem slot_lt {n home c : Nat} (h : c < n) : slot n home c < n :=
  Nat.mod_lt _ (by omega)

theorem slot_inj {n home c d : Nat} (hc : c < n) (hd : d < n) (h : slot n home c = slot n home d) :
    c = d := by
  have hmod : Nat.ModEq n c d := Nat.ModEq.add_left_cancel' home h
  rwa [Nat.ModEq, Nat.mod_eq_of_lt hc, Nat.mod_eq_of_lt hd] at hmod

/-- Every slot comes up. -/
theorem exists_slot {n i : Nat} (home : Nat) (hi : i < n) : ∃ c < n, slot n home c = i := by
  refine ⟨(i + (n - home % n)) % n, Nat.mod_lt _ (by omega), ?_⟩
  have hhome := Nat.mod_lt home (show 0 < n by omega)
  rw [slot, Nat.add_mod_mod, ← Nat.mod_add_mod, ← Nat.add_assoc, Nat.add_comm _ i, Nat.add_assoc,
    Nat.add_sub_cancel' hhome.le, Nat.add_mod_right, Nat.mod_eq_of_lt hi]

/-- The search from `home` gets to the value. -/
def Within {α : Type} (vacant : α) (n : Nat) (t : Nat → α) (home : Nat) (a : α) : Prop :=
  ∃ c < n, t (slot n home c) = a ∧ ∀ d < c, t (slot n home d) ≠ vacant

/-- The values of the table, with their homes. -/
structure Stores {α : Type} (vacant removed : α) (n : Nat) (t : Nat → α) (es : List (Nat × α)) :
    Prop where
  value : ∀ e ∈ es, e.2 ≠ vacant ∧ e.2 ≠ removed
  nodup : (es.map Prod.snd).Nodup
  reached : ∀ e ∈ es, Within vacant n t e.1 e.2
  held : ∀ i < n, t i = vacant ∨ t i = removed ∨ t i ∈ es.map Prod.snd
  once : ∀ i < n, ∀ j < n, t i = t j → t i = vacant ∨ t i = removed ∨ i = j

section Stores

variable {α : Type} {vacant removed a : α} {n home : Nat} {t : Nat → α} {es : List (Nat × α)}

theorem stores_empty (vacant removed : α) (n : Nat) :
    Stores vacant removed n (fun _ => vacant) [] :=
  ⟨by simp, List.nodup_nil, by simp, fun _ _ => .inl rfl, fun _ _ _ _ _ => .inl rfl⟩

theorem Stores.length_le (h : Stores vacant removed n t es) : es.length ≤ n := by
  classical
  have hsub : (es.map Prod.snd).toFinset ⊆ (Finset.range n).image t := by
    intro b hb
    obtain ⟨e, he, rfl⟩ := List.mem_map.mp (List.mem_toFinset.mp hb)
    obtain ⟨c, hc, hat, -⟩ := h.reached e he
    exact Finset.mem_image.mpr ⟨slot n e.1 c, Finset.mem_range.mpr (slot_lt hc), hat⟩
  have hcard := (Finset.card_le_card hsub).trans Finset.card_image_le
  rwa [List.toFinset_card_of_nodup h.nodup, List.length_map, Finset.card_range] at hcard

/-- With fewer values than slots, some slot is free. -/
theorem Stores.exists_free (h : Stores vacant removed n t es) (hroom : es.length < n)
    (home : Nat) : ∃ c < n, t (slot n home c) = vacant ∨ t (slot n home c) = removed := by
  classical
  by_contra hfull
  push Not at hfull
  have htaken : ∀ i < n, t i ≠ vacant ∧ t i ≠ removed := by
    intro i hi
    obtain ⟨c, hc, rfl⟩ := exists_slot home hi
    exact hfull c hc
  have hcard : (Finset.range n).card ≤ (es.map Prod.snd).toFinset.card := by
    refine Finset.card_le_card_of_injOn t (fun i hi => ?_) fun i hi j hj heq => ?_
    · obtain ⟨hv, hr⟩ := htaken i (Finset.mem_range.mp hi)
      rcases h.held i (Finset.mem_range.mp hi) with h₁ | h₁ | h₁
      · exact absurd h₁ hv
      · exact absurd h₁ hr
      · exact List.mem_toFinset.mpr h₁
    · obtain ⟨hv, hr⟩ := htaken i (Finset.mem_range.mp hi)
      rcases h.once i (Finset.mem_range.mp hi) j (Finset.mem_range.mp hj) heq with h₁ | h₁ | h₁
      · exact absurd h₁ hv
      · exact absurd h₁ hr
      · exact h₁
  rw [Finset.card_range] at hcard
  have hle := (es.map Prod.snd).toFinset_card_le
  rw [List.length_map] at hle
  omega

/-- Where the search for a free slot ends. -/
theorem Stores.first_free (h : Stores vacant removed n t es) (hroom : es.length < n)
    (home : Nat) : ∃ c < n, (t (slot n home c) = vacant ∨ t (slot n home c) = removed) ∧
      ∀ d < c, t (slot n home d) ≠ vacant ∧ t (slot n home d) ≠ removed := by
  classical
  have hex := h.exists_free hroom home
  obtain ⟨hc, hfree⟩ := Nat.find_spec hex
  refine ⟨Nat.find hex, hc, hfree, fun d hd => ?_⟩
  have hmin := Nat.find_min hex hd
  exact not_or.mp fun heq => hmin ⟨by omega, heq⟩

/-- A new value, in the first free slot. -/
theorem Stores.insert (h : Stores vacant removed n t es) {c : Nat} (hc : c < n)
    (hfree : t (slot n home c) = vacant ∨ t (slot n home c) = removed)
    (hfirst : ∀ d < c, t (slot n home d) ≠ vacant) (hv : a ≠ vacant) (hr : a ≠ removed)
    (hnew : a ∉ es.map Prod.snd) :
    Stores vacant removed n (Function.update t (slot n home c) a) ((home, a) :: es) := by
  have hother : ∀ {i}, t i ≠ vacant → t i ≠ removed → i ≠ slot n home c := by
    rintro i h₁ h₂ rfl
    rcases hfree with hfree | hfree
    · exact h₁ hfree
    · exact h₂ hfree
  have hne : ∀ j < n, t j ≠ a := by
    rintro j hj rfl
    rcases h.held j hj with h₁ | h₁ | h₁
    · exact hv h₁
    · exact hr h₁
    · exact hnew h₁
  refine ⟨?_, List.nodup_cons.mpr ⟨hnew, h.nodup⟩, ?_, fun i hi => ?_, fun i hi j hj heq => ?_⟩
  · rintro e he
    rcases List.mem_cons.mp he with rfl | he
    · exact ⟨hv, hr⟩
    · exact h.value e he
  · intro e he
    rcases List.mem_cons.mp he with rfl | he
    · refine ⟨c, hc, Function.update_self .., fun d hd => ?_⟩
      rw [Function.update_of_ne fun heq => absurd (slot_inj (by omega) hc heq) (by omega)]
      exact hfirst d hd
    · obtain ⟨ce, hce, hat, hbefore⟩ := h.reached e he
      obtain ⟨h₁, h₂⟩ := h.value e he
      refine ⟨ce, hce, ?_, fun d hd => ?_⟩
      · rwa [Function.update_of_ne (hother (hat ▸ h₁) (hat ▸ h₂))]
      · by_cases heq : slot n e.1 d = slot n home c
        · rw [heq, Function.update_self]
          exact hv
        · rw [Function.update_of_ne heq]
          exact hbefore d hd
  · by_cases heq : i = slot n home c
    · rw [heq, Function.update_self]
      exact .inr (.inr List.mem_cons_self)
    · rw [Function.update_of_ne heq]
      exact (h.held i hi).imp_right fun h₁ => h₁.imp_right (List.mem_cons_of_mem _)
  · by_cases hi' : i = slot n home c
    · by_cases hj' : j = slot n home c
      · exact .inr (.inr (hi'.trans hj'.symm))
      · rw [hi', Function.update_self, Function.update_of_ne hj'] at heq
        exact absurd heq.symm (hne j hj)
    · rw [Function.update_of_ne hi'] at heq ⊢
      by_cases hj' : j = slot n home c
      · rw [hj', Function.update_self] at heq
        exact absurd heq (hne i hi)
      · rw [Function.update_of_ne hj'] at heq
        exact h.once i hi j hj heq

/-- Where the search for a value of the table ends. -/
theorem Stores.first (h : Stores vacant removed n t es) (he : (home, a) ∈ es) :
    ∃ c < n, t (slot n home c) = a ∧
      ∀ d < c, t (slot n home d) ≠ vacant ∧ t (slot n home d) ≠ a := by
  obtain ⟨c, hc, hat, hbefore⟩ := h.reached _ he
  obtain ⟨hv, hr⟩ := h.value _ he
  refine ⟨c, hc, hat, fun d hd => ⟨hbefore d hd, fun heq => ?_⟩⟩
  rcases h.once _ (slot_lt (by omega)) _ (slot_lt hc) (heq.trans hat.symm) with h₁ | h₁ | h₁
  · exact hv (heq.symm.trans h₁)
  · exact hr (heq.symm.trans h₁)
  · exact absurd (slot_inj (by omega) hc h₁) (by omega)

/-- What was found is marked as removed. -/
theorem Stores.remove [DecidableEq α] (h : Stores vacant removed n t es)
    (hmark : removed ≠ vacant) (he : (home, a) ∈ es) {c : Nat} (hc : c < n)
    (hat : t (slot n home c) = a) :
    Stores vacant removed n (Function.update t (slot n home c) removed) (es.erase (home, a)) := by
  have hrest : ∀ e ∈ es.erase (home, a), e ∈ es ∧ e.2 ≠ a := by
    intro e hmem
    have hes := List.mem_of_mem_erase hmem
    refine ⟨hes, fun heq => ?_⟩
    have hsame : e = (home, a) := List.inj_on_of_nodup_map h.nodup hes he heq
    exact (List.Nodup.mem_erase_iff (h.nodup.of_map _)).mp hmem |>.1 hsame
  refine ⟨fun e hmem => h.value e (hrest e hmem).1,
    h.nodup.sublist (List.erase_sublist.map _), fun e hmem => ?_, fun i hi => ?_,
    fun i hi j hj heq => ?_⟩
  · obtain ⟨hes, hne⟩ := hrest e hmem
    obtain ⟨ce, hce, hvalue, hbefore⟩ := h.reached e hes
    refine ⟨ce, hce, ?_, fun d hd => ?_⟩
    · rw [Function.update_of_ne]
      · exact hvalue
      · rintro heq
        exact hne (hvalue.symm.trans (heq ▸ hat))
    · by_cases heq : slot n e.1 d = slot n home c
      · rw [heq, Function.update_self]
        exact hmark
      · rw [Function.update_of_ne heq]
        exact hbefore d hd
  · by_cases heq : i = slot n home c
    · rw [heq, Function.update_self]
      exact .inr (.inl rfl)
    · rw [Function.update_of_ne heq]
      rcases h.held i hi with h₁ | h₁ | h₁
      · exact .inl h₁
      · exact .inr (.inl h₁)
      · obtain ⟨e, hes, hvalue⟩ := List.mem_map.mp h₁
        by_cases hsame : e = (home, a)
        · subst hsame
          obtain ⟨hv, hr⟩ := h.value _ he
          rcases h.once i hi _ (slot_lt hc) (hvalue.symm.trans hat.symm) with h₂ | h₂ | h₂
          · exact absurd (hvalue.trans h₂) hv
          · exact absurd (hvalue.trans h₂) hr
          · exact absurd h₂ heq
        · exact .inr (.inr (List.mem_map.mpr ⟨e, (List.mem_erase_of_ne hsame).mpr hes, hvalue⟩))
  · by_cases hi' : i = slot n home c
    · rw [hi', Function.update_self]
      exact .inr (.inl rfl)
    · by_cases hj' : j = slot n home c
      · rw [hj', Function.update_self] at heq
        exact .inr (.inl heq)
      · rw [Function.update_of_ne hi', Function.update_of_ne hj'] at heq
        rw [Function.update_of_ne hi']
        exact h.once i hi j hj heq

end Stores

end Probing

end Oat
