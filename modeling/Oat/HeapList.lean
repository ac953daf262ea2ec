import Mathlib.Data.List.Basic
import Mathlib.Data.List.Perm.Subperm

/-!
# Linked lists in a heap

A heap is a list of cells and a pointer an index into it, `none` for
NULL. `ListAt next heap ptr chain` says that the list from `ptr` on ends,
and that `chain` are its cells in order. The heap and the pointer
determine the chain, so that it visits no cell twice and is no longer
than the heap (`ListAt.length_le`): the fuel of a walk.

A list is not touched by what is allocated after it (`ListAt.append`),
nor by a write that leaves the links alone (`ListAt.congr`).
-/

namespace Oat

variable {ν : Type} {next : ν → Option Nat}

inductive ListAt (next : ν → Option Nat) (heap : List ν) : Option Nat → List Nat → Prop where
  | nil : ListAt next heap none []
  | cons {ptr : Nat} {cell : ν} {chain : List Nat} (hget : heap[ptr]? = some cell)
      (hrest : ListAt next heap (next cell) chain) : ListAt next heap (some ptr) (ptr :: chain)

namespace ListAt

variable {heap : List ν} {ptr : Option Nat} {chain : List Nat}

theorem unique (h : ListAt next heap ptr chain) {chain' : List Nat}
    (h' : ListAt next heap ptr chain') : chain = chain' := by
  induction h generalizing chain' with
  | nil =>
      cases h'
      rfl
  | cons hget hrest ih =>
      cases h' with
      | cons hget' hrest' =>
          rw [hget] at hget'
          obtain rfl := Option.some.inj hget'
          rw [ih hrest']

theorem cell (h : ListAt next heap ptr chain) {q : Nat} (hq : q ∈ chain) :
    ∃ cell, heap[q]? = some cell := by
  induction h with
  | nil => cases hq
  | cons hget hrest ih =>
      rcases List.mem_cons.mp hq with rfl | hq
      · exact ⟨_, hget⟩
      · exact ih hq

/-- The list from a cell of the chain on is the rest of it. -/
theorem suffix (h : ListAt next heap ptr chain) {q : Nat} (hq : q ∈ chain) :
    ∃ rest, ListAt next heap (some q) rest ∧ rest.length ≤ chain.length := by
  induction h with
  | nil => cases hq
  | cons hget hrest ih =>
      rcases List.mem_cons.mp hq with rfl | hq
      · exact ⟨_, .cons hget hrest, Nat.le_refl _⟩
      · obtain ⟨rest, hlist, hlen⟩ := ih hq
        exact ⟨rest, hlist, Nat.le_succ_of_le hlen⟩

/-- A list that ends does not come back to a cell. -/
theorem nodup (h : ListAt next heap ptr chain) : chain.Nodup := by
  induction h with
  | nil => exact List.nodup_nil
  | cons hget hrest ih =>
      refine List.nodup_cons.mpr ⟨fun hmem => ?_, ih⟩
      obtain ⟨rest, hlist, hlen⟩ := hrest.suffix hmem
      obtain rfl := hlist.unique (.cons hget hrest)
      exact Nat.not_succ_le_self _ hlen

theorem length_le (h : ListAt next heap ptr chain) : chain.length ≤ heap.length := by
  have hsub : chain ⊆ List.range heap.length := fun q hq => by
    obtain ⟨cell, hcell⟩ := h.cell hq
    exact List.mem_range.mpr (List.getElem?_eq_some_iff.mp hcell).1
  have hle := (h.nodup.subperm hsub).length_le
  rwa [List.length_range] at hle

/-- Cells may change, as long as the links stay. -/
theorem congr {heap' : List ν} (h : ListAt next heap ptr chain)
    (hlinks : ∀ q ∈ chain, (heap'[q]?).map next = (heap[q]?).map next) :
    ListAt next heap' ptr chain := by
  induction h with
  | nil => exact .nil
  | @cons ptr cell chain hget hrest ih =>
      have hlink := hlinks ptr List.mem_cons_self
      rw [hget, Option.map_some] at hlink
      obtain ⟨cell', hget', hnext⟩ := Option.map_eq_some_iff.mp hlink
      refine .cons hget' ?_
      rw [hnext]
      exact ih fun q hq => hlinks q (List.mem_cons_of_mem _ hq)

theorem append (h : ListAt next heap ptr chain) (new : List ν) :
    ListAt next (heap ++ new) ptr chain :=
  h.congr fun q hq => by
    obtain ⟨cell, hcell⟩ := h.cell hq
    rw [List.getElem?_append_left (List.getElem?_eq_some_iff.mp hcell).1]

end ListAt

end Oat
