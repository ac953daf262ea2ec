import Mathlib.Data.List.Basic
import Mathlib.Data.List.Nodup

/-!
# Orders of discovery

A walk starts at the root of a graph and follows its edges. In an order
of discovery each node but the root has a predecessor in front of it, as
in the order in which a depth-first search comes to the nodes.

There is then a walk to each node through nodes in front of it only
(`Discovery.walk`), so that what every walk meets before a node is in
front of the node in the order too.
-/

namespace Oat

/-- A point in a concatenation is a point in one of its parts. -/
theorem flatMap_split {α β : Type} {f : α → List β} {l : List α} {pre post : List β} {x : β}
    (h : l.flatMap f = pre ++ x :: post) :
    ∃ front a back pre' post', l = front ++ a :: back ∧ f a = pre' ++ x :: post' ∧
      pre = front.flatMap f ++ pre' := by
  induction l generalizing pre with
  | nil => exact absurd h (by simp)
  | cons a l ih =>
      rw [List.flatMap_cons] at h
      rcases List.append_eq_append_iff.mp h with ⟨c, rfl, hrest⟩ | ⟨c, ha, hrest⟩
      · obtain ⟨front, a', back, pre', post', rfl, ha', rfl⟩ := ih hrest
        exact ⟨a :: front, a', back, pre', post', rfl, ha', by simp⟩
      · cases c with
        | nil =>
            rw [List.append_nil] at ha
            have hrest' : l.flatMap f = [] ++ x :: post := hrest.symm
            obtain ⟨front, a', back, pre', post', rfl, ha', hnil⟩ := ih hrest'
            refine ⟨a :: front, a', back, pre', post', rfl, ha', ?_⟩
            rw [List.flatMap_cons, List.append_assoc, ← hnil, List.append_nil, ha]
        | cons y c =>
            obtain ⟨rfl, -⟩ := List.cons_eq_cons.mp hrest
            exact ⟨[], a, l, pre, c, rfl, ha, rfl⟩

variable {α : Type} {succ : α → List α} {root : α}

inductive Walk (succ : α → List α) (root : α) : List α → Prop where
  | root : Walk succ root [root]
  | step {w : List α} {a b : α} : Walk succ root (w ++ [a]) → b ∈ succ a →
      Walk succ root (w ++ [a] ++ [b])

structure Discovery (succ : α → List α) (root : α) (order : List α) : Prop where
  nodup : order.Nodup
  found : ∀ front b back, order = front ++ b :: back → b = root ∨ ∃ a ∈ front, b ∈ succ a
  mem_root : root ∈ order
  closed : ∀ a ∈ order, ∀ b ∈ succ a, b ∈ order

theorem Walk.mem_order {order : List α} (h : Discovery succ root order) {w : List α}
    (hw : Walk succ root w) : ∀ a ∈ w, a ∈ order := by
  induction hw with
  | root =>
      intro a ha
      obtain rfl := List.mem_singleton.mp ha
      exact h.mem_root
  | @step w a b _ hab ih =>
      intro c hc
      rcases List.mem_append.mp hc with hc | hc
      · exact ih c hc
      · obtain rfl := List.mem_singleton.mp hc
        exact h.closed a (ih a (by simp)) c hab

theorem Walk.exists_head {w : List α} (hw : Walk succ root w) : ∃ rest, w = root :: rest := by
  induction hw with
  | root => exact ⟨[], rfl⟩
  | @step w a b _ _ ih =>
      obtain ⟨rest, hrest⟩ := ih
      exact ⟨rest ++ [b], by rw [hrest]; rfl⟩

/-- By induction on the number of nodes in front. -/
theorem Discovery.walk {order : List α} (h : Discovery succ root order) {front back : List α}
    {b : α} (hsplit : order = front ++ b :: back) :
    ∃ w, Walk succ root (w ++ [b]) ∧ ∀ a ∈ w, a ∈ front := by
  induction hn : front.length using Nat.strongRecOn generalizing front b back with
  | _ n ih =>
      rcases h.found front b back hsplit with rfl | ⟨a, ha, hab⟩
      · exact ⟨[], .root, fun _ hm => nomatch hm⟩
      · obtain ⟨front', mid, rfl⟩ := List.append_of_mem ha
        have hlt : front'.length < n := by
          rw [← hn, List.length_append, List.length_cons]
          omega
        have hsplit' : order = front' ++ a :: (mid ++ b :: back) := by
          rw [hsplit, List.append_assoc, List.cons_append]
        obtain ⟨w, hw, hmem⟩ := ih _ hlt hsplit' rfl
        refine ⟨w ++ [a], .step hw hab, fun c hc => ?_⟩
        rcases List.mem_append.mp hc with hc | hc
        · exact List.mem_append_left _ (hmem c hc)
        · obtain rfl := List.mem_singleton.mp hc
          simp

end Oat
