import Mathlib.Data.List.Basic

/-!
# Walking a linked list whose head grows

A walk over an intrusive list holds a pointer to the current node, and
the body of the loop may put new nodes in at the head. In terms of lists
the pointer is the number of nodes from the current one to the end,
which pushing at the head does not change.

The rules are for bodies that may fail and that go up in a preorder `R`
under which the list only grows at its head. A finished walk has called
the body on each node that was there at the start (`forEach_visits`),
and a failed one failed in such a call (`forEach_fails`).
-/

namespace Oat

variable {σ α : Type} (list : σ → List α) (body : α → σ → Option σ)

/-- `k` is the number of nodes still to come. -/
def walk : Nat → σ → Option σ
  | 0, s => some s
  | k + 1, s =>
      match (list s).reverse[k]? with
      | some a => (body a s).bind (walk k)
      | none => some s

def forEach (s : σ) : Option σ := walk list body (list s).length s

variable {list body} {R : σ → σ → Prop}

/-- The nodes at the end of a list stay where they are. -/
theorem reverse_getElem?_of_suffix {l l' : List α} (h : l <:+ l') {k : Nat} (hk : k < l.length) :
    l'.reverse[k]? = l.reverse[k]? := by
  obtain ⟨new, rfl⟩ := h
  rw [List.reverse_append, List.getElem?_append_left (by simpa using hk)]

section Rules

variable (hrefl : ∀ s, R s s) (htrans : ∀ a b c, R a b → R b c → R a c)
  (hlist : ∀ s s', R s s' → list s <:+ list s')

include hrefl htrans

theorem walk_mono (hbody : ∀ a s s', body a s = some s' → R s s') (k : Nat) (s s' : σ)
    (h : walk list body k s = some s') : R s s' := by
  induction k generalizing s with
  | zero =>
      cases h
      exact hrefl _
  | succ k ih =>
      unfold walk at h
      split at h
      · obtain ⟨s₁, h₁, h₂⟩ := Option.bind_eq_some_iff.mp h
        exact htrans _ _ _ (hbody _ _ _ h₁) (ih s₁ h₂)
      · cases h
        exact hrefl _

include hlist

theorem walk_visits (hbody : ∀ a s s', body a s = some s' → R s s') (s₀ : σ) (k : Nat)
    (hk : k ≤ (list s₀).length) (s s' : σ) (hs : R s₀ s) (h : walk list body k s = some s') :
    ∀ j < k, ∃ a, (list s₀).reverse[j]? = some a ∧
      ∃ s₁ s₂, R s₀ s₁ ∧ body a s₁ = some s₂ ∧ R s₂ s' := by
  induction k generalizing s with
  | zero => exact fun j hj => absurd hj (Nat.not_lt_zero j)
  | succ k ih =>
      have hget := reverse_getElem?_of_suffix (hlist _ _ hs) hk
      have hlt : k < (list s₀).reverse.length := by rw [List.length_reverse]; exact hk
      unfold walk at h
      rw [hget, List.getElem?_eq_getElem hlt] at h
      obtain ⟨s₁, h₁, h₂⟩ := Option.bind_eq_some_iff.mp h
      have hs₁ := hbody _ _ _ h₁
      intro j hj
      rcases Nat.lt_succ_iff_lt_or_eq.mp hj with hj | rfl
      · exact ih (Nat.le_of_succ_le hk) s₁ (htrans _ _ _ hs hs₁) h₂ j hj
      · exact ⟨_, List.getElem?_eq_getElem hlt, s, s₁, hs, h₁,
          walk_mono hrefl htrans hbody _ _ _ h₂⟩

theorem forEach_visits (hbody : ∀ a s s', body a s = some s' → R s s') {s s' : σ}
    (h : forEach list body s = some s') {a : α} (ha : a ∈ list s) :
    ∃ s₁ s₂, R s s₁ ∧ body a s₁ = some s₂ ∧ R s₂ s' := by
  obtain ⟨j, hj, rfl⟩ := List.mem_iff_getElem.mp (List.mem_reverse.mpr ha)
  obtain ⟨a', ha', hs⟩ := walk_visits hrefl htrans hlist hbody s _ (Nat.le_refl _) s s' (hrefl s) h j
    (by simpa using hj)
  rw [List.getElem?_eq_getElem hj] at ha'
  cases ha'
  exact hs

omit hrefl in
theorem walk_fails (hbody : ∀ a s s', body a s = some s' → R s s') (s₀ : σ) (k : Nat)
    (hk : k ≤ (list s₀).length) (s : σ) (hs : R s₀ s) (h : walk list body k s = none) :
    ∃ a ∈ list s₀, ∃ s₁, R s₀ s₁ ∧ body a s₁ = none := by
  induction k generalizing s with
  | zero => cases h
  | succ k ih =>
      have hget := reverse_getElem?_of_suffix (hlist _ _ hs) hk
      have hlt : k < (list s₀).reverse.length := by rw [List.length_reverse]; exact hk
      unfold walk at h
      rw [hget, List.getElem?_eq_getElem hlt] at h
      dsimp only at h
      cases hb : body (list s₀).reverse[k] s with
      | none => exact ⟨_, List.mem_reverse.mp (List.getElem_mem hlt), s, hs, hb⟩
      | some s₁ =>
          rw [hb] at h
          exact ih (Nat.le_of_succ_le hk) s₁ (htrans _ _ _ hs (hbody _ _ _ hb)) h

theorem forEach_fails (hbody : ∀ a s s', body a s = some s' → R s s') {s : σ}
    (h : forEach list body s = none) : ∃ a ∈ list s, ∃ s₁, R s s₁ ∧ body a s₁ = none :=
  walk_fails htrans hlist hbody s _ (Nat.le_refl _) s (hrefl s) h

end Rules

/-- What each call keeps. -/
theorem forEach_inv {P : σ → Prop} (hbody : ∀ a s s', P s → body a s = some s' → P s') {s s' : σ}
    (hs : P s) (h : forEach list body s = some s') : P s' := by
  have key : ∀ (k : Nat) (s : σ), P s → walk list body k s = some s' → P s' := by
    intro k
    induction k with
    | zero =>
        intro s hs h
        cases h
        exact hs
    | succ k ih =>
        intro s hs h
        unfold walk at h
        split at h
        · obtain ⟨s₁, h₁, h₂⟩ := Option.bind_eq_some_iff.mp h
          exact ih s₁ (hbody _ _ _ hs h₁) h₂
        · cases h
          exact hs
  exact key _ s hs h

end Oat
