import Oat.Probing
import Oat.SbMetadata

/-!
# The free map of SoftBoundCETS

The builds with temporal checks keep the address of each heap block in a
table, at the place of its key or behind it. `free` takes it out again,
and aborts when it does not find it: so a block is not freed twice, nor
an address that was never allocated.

The address is what is compared, not the key, and the search goes on
over the entries of other blocks. `addToFreeMap_stores` and
`checkRemove_stores` are the operations on a table of live blocks,
`checkRemove_unallocated` the free of anything else.
-/

namespace Oat

namespace Sb

/-! ## The code -/

def nFreeMapEntries : Nat := 32 * 1024 * 1024

abbrev FreeMap := Nat → BitVec 64

/-- `(ptr_key + counter) % __SOFTBOUNDCETS_N_FREE_MAP_ENTRIES`. -/
def freeMapIndex (ptrKey : BitVec 64) (counter : Nat) : Nat :=
  (ptrKey + BitVec.ofNat 64 counter).toNat % nFreeMapEntries

/-- The loop that both functions have: the counter at which it stops. -/
def freeMapLoop (stop : BitVec 64 → Bool) (ptrKey : BitVec 64) (t : FreeMap) : Option Nat :=
  Probing.probe (fun counter => stop (t (freeMapIndex ptrKey counter))) nFreeMapEntries 0

/-- A tag of 0 was never used, one of 2 is that of a block that was freed. -/
def addToFreeMap (ptrKey ptr : BitVec 64) (t : FreeMap) : Except Fault FreeMap :=
  if ptr = 0 then .error .assertion
  else
    match freeMapLoop (fun tag => tag == 0 || tag == 2) ptrKey t with
    | some counter => .ok (Function.update t (freeMapIndex ptrKey counter) ptr)
    | none => .error .abort

def checkRemoveFromFreeMap (ptrKey ptr : BitVec 64) (t : FreeMap) : Except Fault FreeMap :=
  match freeMapLoop (fun tag => tag == 0 || tag == ptr) ptrKey t with
  | some counter =>
      if t (freeMapIndex ptrKey counter) = 0 then .error .abort
      else .ok (Function.update t (freeMapIndex ptrKey counter) 2)
  | none => .error .abort

/-! ## On a table of live blocks -/

/-- The table of the blocks, each by its key and its address. -/
abbrev FreeMap.Stores (t : FreeMap) (blocks : List (Nat × BitVec 64)) : Prop :=
  Probing.Stores 0 2 nFreeMapEntries t blocks

/-- The number of entries divides `2 ^ 64`. -/
theorem freeMapIndex_eq (ptrKey : BitVec 64) (counter : Nat) :
    freeMapIndex ptrKey counter = Probing.slot nFreeMapEntries ptrKey.toNat counter := by
  have hdvd : nFreeMapEntries ∣ 2 ^ 64 := ⟨2 ^ 39, rfl⟩
  rw [freeMapIndex, Probing.slot, BitVec.toNat_add, BitVec.toNat_ofNat, Nat.add_mod_mod,
    Nat.mod_mod_of_dvd _ hdvd]

section Stores

variable {t : FreeMap} {blocks : List (Nat × BitVec 64)} {ptrKey ptr : BitVec 64}

/-- A new block gets in, if there are fewer than the table has entries. -/
theorem addToFreeMap_stores (h : t.Stores blocks) (hroom : blocks.length < nFreeMapEntries)
    (hnull : ptr ≠ 0) (hmark : ptr ≠ 2) (hnew : ptr ∉ blocks.map Prod.snd) :
    ∃ t', addToFreeMap ptrKey ptr t = .ok t' ∧ t'.Stores ((ptrKey.toNat, ptr) :: blocks) := by
  obtain ⟨c, hc, hfree, hfirst⟩ := h.first_free hroom ptrKey.toNat
  have hloop : freeMapLoop (fun tag => tag == 0 || tag == 2) ptrKey t = some c := by
    refine Probing.probe_eq_some (Nat.zero_le c) (by omega) ?_ fun d _ hd => ?_
    · simpa only [freeMapIndex_eq, Bool.or_eq_true, beq_iff_eq] using hfree
    · simpa only [freeMapIndex_eq, Bool.or_eq_false_iff, beq_eq_false_iff_ne] using hfirst d hd
  refine ⟨_, by rw [addToFreeMap, if_neg hnull, hloop], ?_⟩
  rw [freeMapIndex_eq]
  exact h.insert hc hfree (fun d hd => (hfirst d hd).1) hnull hmark hnew

/-- A block of the table gets out. -/
theorem checkRemove_stores (h : t.Stores blocks) (hmem : (ptrKey.toNat, ptr) ∈ blocks) :
    ∃ t', checkRemoveFromFreeMap ptrKey ptr t = .ok t' ∧
      t'.Stores (blocks.erase (ptrKey.toNat, ptr)) := by
  obtain ⟨c, hc, hat, hfirst⟩ := h.first hmem
  have hnull := (h.value _ hmem).1
  have hloop : freeMapLoop (fun tag => tag == 0 || tag == ptr) ptrKey t = some c := by
    refine Probing.probe_eq_some (Nat.zero_le c) (by omega) ?_ fun d _ hd => ?_
    · simp only [freeMapIndex_eq, hat, beq_self_eq_true, Bool.or_true]
    · simpa only [freeMapIndex_eq, Bool.or_eq_false_iff, beq_eq_false_iff_ne] using hfirst d hd
  refine ⟨_, ?_, h.remove (by simp) hmem hc hat⟩
  simp only [checkRemoveFromFreeMap, hloop]
  rw [freeMapIndex_eq, hat, if_neg hnull]

/-- What is not the address of a block is never found. -/
theorem checkRemove_unallocated (h : t.Stores blocks) (hmark : ptr ≠ 2)
    (hnone : ptr ∉ blocks.map Prod.snd) (ptrKey : BitVec 64) :
    checkRemoveFromFreeMap ptrKey ptr t = .error .abort := by
  rw [checkRemoveFromFreeMap]
  split
  · rename_i c hloop
    have hstop := (Probing.probe_some hloop).2.1
    rw [Bool.or_eq_true, beq_iff_eq, beq_iff_eq] at hstop
    refine if_pos (hstop.elim id ?_)
    rintro rfl
    rcases h.held _ (Nat.mod_lt _ (by decide : 0 < nFreeMapEntries)) with h₁ | h₁ | h₁
    · exact h₁
    · exact absurd h₁ hmark
    · exact absurd h₁ hnone
  · rfl

end Stores

end Sb

end Oat
