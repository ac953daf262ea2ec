import Mathlib.Data.Fintype.Card
import Mathlib.Data.Set.Finite.Lattice

/-!
# Recursion along parts

A recursion that goes from a value to each of its parts, with a bound on
its depth. Some bound is enough exactly when the value is accessible
(`ends_iff_acc`), and where only finitely many values can be reached,
exactly when none of these leads back to itself (`ends_iff_no_cycle`).
-/

namespace Oat

namespace Descent

/-- One bound does for finitely many values. -/
theorem exists_bound_all {α : Type*} {P : Nat → α → Prop} {l : List α}
    (h : ∀ a ∈ l, ∃ n, ∀ k, n ≤ k → P k a) : ∃ n, ∀ k, n ≤ k → ∀ a ∈ l, P k a := by
  induction l with
  | nil => exact ⟨0, fun _ _ a ha => nomatch ha⟩
  | cons a l ih =>
      obtain ⟨n, hn⟩ := h a (List.mem_cons_self ..)
      obtain ⟨k, hk⟩ := ih fun b hb => h b (List.mem_cons_of_mem _ hb)
      refine ⟨max n k, fun j hj b hb => ?_⟩
      rcases List.mem_cons.mp hb with rfl | hb
      · exact hn j (Nat.le_trans (Nat.le_max_left ..) hj)
      · exact hk j (Nat.le_trans (Nat.le_max_right ..) hj) b hb

variable {α : Type*} (parts : α → List α)

def Leads (a b : α) : Prop := b ∈ parts a

/-- Whether the recursion on a value ends within a depth. -/
def ends : Nat → α → Bool
  | 0, _ => false
  | n + 1, a => (parts a).all (ends n)

variable {parts}

theorem ends_succ {n : Nat} {a : α} :
    ends parts (n + 1) a = true ↔ ∀ b ∈ parts a, ends parts n b = true := by
  rw [ends, List.all_eq_true]

theorem ends_mono {n k : Nat} (h : n ≤ k) {a : α} (ha : ends parts n a = true) :
    ends parts k a = true := by
  induction n generalizing k a with
  | zero => cases ha
  | succ n ih =>
      obtain ⟨k, rfl⟩ : ∃ k', k = k' + 1 := ⟨k - 1, by omega⟩
      rw [ends_succ] at ha ⊢
      exact fun b hb => ih (Nat.le_of_succ_le_succ h) (ha b hb)

theorem ends_iff_acc {a : α} :
    (∃ n, ends parts n a = true) ↔ Acc (fun b a => Leads parts a b) a := by
  constructor
  · rintro ⟨n, hn⟩
    induction n generalizing a with
    | zero => cases hn
    | succ n ih => exact ⟨a, fun b hb => ih (ends_succ.mp hn b hb)⟩
  · intro h
    induction h with
    | intro a _ ih =>
        obtain ⟨n, hn⟩ := exists_bound_all (P := fun n b => ends parts n b = true) fun b hb =>
          (ih b hb).imp fun _ hb _ hle => ends_mono hle hb
        exact ⟨n + 1, ends_succ.mpr (hn n (Nat.le_refl n))⟩

theorem acc_not_cycle {a : α} (h : Acc (fun b a => Leads parts a b) a) :
    ¬ Relation.TransGen (Leads parts) a a := by
  induction h with
  | intro a _ ih =>
      intro hcycle
      obtain ⟨b, hab, hba⟩ := Relation.TransGen.head'_iff.mp hcycle
      exact ih b hab (Relation.TransGen.tail' hba hab)

theorem acc_of_reach {a b : α} (h : Acc (fun b a => Leads parts a b) a)
    (hreach : Relation.ReflTransGen (Leads parts) a b) : Acc (fun b a => Leads parts a b) b := by
  induction hreach with
  | refl => exact h
  | tail _ hstep ih => exact ih.inv hstep

/-- All that can be reached is in a finite set that is closed. -/
theorem acc_of_no_cycle {a : α} {s : Set α} (hs : s.Finite) (ha : a ∈ s)
    (hclosed : ∀ b ∈ s, ∀ c ∈ parts b, c ∈ s)
    (h : ∀ b, Relation.ReflTransGen (Leads parts) a b → ¬ Relation.TransGen (Leads parts) b b) :
    Acc (fun b a => Leads parts a b) a := by
  let reached := {b // b ∈ s ∧ Relation.ReflTransGen (Leads parts) a b}
  have : Finite reached := hs.subset fun b hb => hb.1
  let below : reached → reached → Prop := fun b c => Relation.TransGen (Leads parts) c.1 b.1
  have : IsTrans reached below := ⟨fun _ _ _ h₁ h₂ => h₂.trans h₁⟩
  have : Std.Irrefl below := ⟨fun b hb => h b.1 b.2.2 hb⟩
  have hwf : WellFounded below := Finite.wellFounded_of_trans_of_irrefl below
  suffices hacc : ∀ b : reached, Acc (fun b a => Leads parts a b) b.1 from
    hacc ⟨a, ha, .refl⟩
  intro b
  induction b using hwf.induction with
  | h b ih =>
      refine ⟨b.1, fun c hc => ?_⟩
      exact ih ⟨c, hclosed b.1 b.2.1 c hc, b.2.2.tail hc⟩ (.single hc)

theorem ends_iff_no_cycle {a : α} {s : Set α} (hs : s.Finite) (ha : a ∈ s)
    (hclosed : ∀ b ∈ s, ∀ c ∈ parts b, c ∈ s) :
    (∃ n, ends parts n a = true) ↔
      ∀ b, Relation.ReflTransGen (Leads parts) a b → ¬ Relation.TransGen (Leads parts) b b := by
  rw [ends_iff_acc]
  exact ⟨fun h b hb => acc_not_cycle (acc_of_reach h hb), acc_of_no_cycle hs ha hclosed⟩

theorem forall_reach_iff {P : α → Prop} {a : α} :
    (∀ b, Relation.ReflTransGen (Leads parts) a b → P b) ↔
      P a ∧ ∀ b ∈ parts a, ∀ c, Relation.ReflTransGen (Leads parts) b c → P c := by
  constructor
  · exact fun h => ⟨h a .refl, fun b hb c hc => h c (.head hb hc)⟩
  · rintro ⟨ha, hparts⟩ b hb
    rcases Relation.ReflTransGen.cases_head hb with rfl | ⟨c, hac, hcb⟩
    · exact ha
    · exact hparts c hac b hcb

/-- What a value reaches along parts that get smaller is finite. -/
theorem finite_reach {size : α → Nat} (hsize : ∀ a, ∀ b ∈ parts a, size b < size a) (a : α) :
    {b | Relation.ReflTransGen (Leads parts) a b}.Finite := by
  induction hn : size a using Nat.strong_induction_on generalizing a with
  | h n ih =>
      have hunion : {b | Relation.ReflTransGen (Leads parts) a b} ⊆
          {a} ∪ ⋃ c ∈ {c | c ∈ parts a}, {b | Relation.ReflTransGen (Leads parts) c b} := by
        intro b hb
        rcases Relation.ReflTransGen.cases_head hb with rfl | ⟨c, hac, hcb⟩
        · exact .inl rfl
        · exact .inr (Set.mem_biUnion hac hcb)
      refine Set.Finite.subset (.union (Set.finite_singleton a) ?_) hunion
      exact Set.Finite.biUnion (List.finite_toSet _) fun c hc => ih (size c) (hn ▸ hsize a c hc) c rfl

/-- Where a measure falls except from certain values, a cycle passes
through one of these. -/
theorem cycle_through {P : α → Prop} {size : α → Nat}
    (hsize : ∀ a, ¬ P a → ∀ b ∈ parts a, size b < size a) {a : α}
    (h : Relation.TransGen (Leads parts) a a) :
    ∃ b, P b ∧ Relation.ReflTransGen (Leads parts) a b ∧ Relation.TransGen (Leads parts) b b := by
  have hpath : ∀ b, Relation.TransGen (Leads parts) a b →
      (∃ c, P c ∧ Relation.ReflTransGen (Leads parts) a c ∧ Relation.TransGen (Leads parts) c b) ∨
        size b < size a := by
    intro b hb
    induction hb with
    | single hab =>
        by_cases ha : P a
        · exact .inl ⟨a, ha, .refl, .single hab⟩
        · exact .inr (hsize a ha _ hab)
    | @tail b c hab hbc ih =>
        rcases ih with ⟨d, hd, had, hdb⟩ | hlt
        · exact .inl ⟨d, hd, had, hdb.tail hbc⟩
        · by_cases hb : P b
          · exact .inl ⟨b, hb, hab.to_reflTransGen, .single hbc⟩
          · exact .inr (Nat.lt_trans (hsize b hb c hbc) hlt)
  rcases hpath a h with ⟨b, hb, hab, hba⟩ | hlt
  · exact ⟨b, hb, hab, hba.trans_left hab⟩
  · exact absurd hlt (Nat.lt_irrefl _)

end Descent

end Oat
