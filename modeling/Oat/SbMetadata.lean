import Mathlib.Data.Nat.Bitwise
import Oat.FoldRun
import Oat.LazyTable

/-!
# The metadata space of SoftBoundCETS

For each aligned word of memory the runtime keeps the base and the bound
of the pointer that is stored there (`softboundcets.h`, the spatial
build). The space is a table in two levels: address bits 25 and up are
the index of a secondary table, bits 3 to 24 that of its entry. A
secondary table is mapped, all zero, when an entry of it is first needed.

`copy_metadata` goes with a copy of memory. It has two paths: entry by
entry when one of the two blocks crosses into another secondary table,
and else one `memcpy`. `copyMetadata_iff` says when the entries of the
destination are those of the source afterwards, and which blocks
`memcpy` is given although they overlap; `metadata_run` says what the
space holds after a run.
-/

namespace Oat

namespace Sb

/-! ## The code -/

/-- `__softboundcets_trie_entry_t`. -/
structure TrieEntry where
  base : BitVec 64
  bound : BitVec 64
deriving Repr, DecidableEq

instance : Zero TrieEntry := ⟨⟨0, 0⟩⟩

abbrev Trie := LazyTable TrieEntry

/-- An access outside a table or through `NULL`, a `memcpy` between areas
that overlap, an assertion that fails, `__softboundcets_abort`: none has a
result. -/
inductive Fault where
  | outside
  | null
  | overlap
  | assertion
  | abort
deriving Repr, DecidableEq

def primaryTableEntries : Nat := 2 ^ 23
def secondaryTableEntries : Nat := 2 ^ 22

def primaryIndex (ptr : BitVec 64) : Nat := (ptr >>> 25).toNat
def secondaryIndex (ptr : BitVec 64) : Nat := ((ptr >>> 3) &&& 0x3fffff).toNat

def metadataStore (addrOfPtr : BitVec 64) (entry : TrieEntry) (t : Trie) : Except Fault Trie :=
  let primary := primaryIndex addrOfPtr
  if primaryTableEntries ≤ primary then .error .outside
  else .ok ((t.ensure primary).write primary (secondaryIndex addrOfPtr) entry)

/-- Where there is no secondary table both fields are 0. -/
def metadataLoad (addrOfPtr : BitVec 64) (t : Trie) : Except Fault TrieEntry :=
  let primary := primaryIndex addrOfPtr
  if primaryTableEntries ≤ primary then .error .outside
  else
    match t.pages primary with
    | none => .ok ⟨0, 0⟩
    | some secondary => .ok (secondary (secondaryIndex addrOfPtr))

/-- The place of a pointer in a vector of pointers. The index is an `int`,
and so is its product, which then becomes a `size_t`. -/
def vectorAddr (addrOfPtr : BitVec 64) (index : BitVec 32) : BitVec 64 :=
  addrOfPtr + (index * 8).signExtend 64

def metadataStoreVector (addrOfPtr : BitVec 64) (entry : TrieEntry) (index : BitVec 32) (t : Trie) :
    Except Fault Trie :=
  metadataStore (vectorAddr addrOfPtr index) entry t

def metadataLoadVector (addrOfPtr : BitVec 64) (index : BitVec 32) (t : Trie) :
    Except Fault TrieEntry :=
  metadataLoad (vectorAddr addrOfPtr index) t

/-- The body of the loop, at a byte offset. -/
def copyEntry (dest src : BitVec 64) (t : Trie) (index : BitVec 64) : Except Fault Trie :=
  let fromPindex := primaryIndex (src + index)
  let toPindex := primaryIndex (dest + index)
  if primaryTableEntries ≤ fromPindex ∨ primaryTableEntries ≤ toPindex then .error .outside
  else
    let t := (t.ensure fromPindex).ensure toPindex
    .ok (t.write toPindex (secondaryIndex (dest + index))
      (t.read fromPindex (secondaryIndex (src + index))))

/-- The values of `index`: each eighth offset below the size. -/
def copyIndices (size : BitVec 64) : List (BitVec 64) :=
  (List.range ((size.toNat + 7) / 8)).map fun k => BitVec.ofNat 64 (8 * k)

def copyLoop (dest src size : BitVec 64) (t : Trie) : Except Fault Trie :=
  foldRun (copyEntry dest src) t (copyIndices size)

/-- `memcpy` on entries of 16 bytes. -/
def memcpyEntries (dest src bytes : BitVec 64) (t : Trie) : Except Fault Trie :=
  let n := bytes.toNat / 16
  let destIndex := secondaryIndex dest
  let fromIndex := secondaryIndex src
  if secondaryTableEntries < destIndex + n ∨ secondaryTableEntries < fromIndex + n then
    .error .outside
  else if primaryIndex dest = primaryIndex src ∧ destIndex < fromIndex + n ∧
      fromIndex < destIndex + n then
    .error .overlap
  else .ok (t.copyCells (primaryIndex dest) destIndex (primaryIndex src) fromIndex n)

/-- One of the blocks does not end in the secondary table it begins in. -/
def crosses (dest src size : BitVec 64) : Prop :=
  primaryIndex src ≠ primaryIndex (src + size) ∨ primaryIndex dest ≠ primaryIndex (dest + size)

instance (dest src size : BitVec 64) : Decidable (crosses dest src size) := by
  unfold crosses
  infer_instance

def copyMetadata (dest src size : BitVec 64) (t : Trie) : Except Fault Trie :=
  if src % 8 ≠ 0 then .ok t
  else if crosses dest src size then copyLoop dest src size t
  else if primaryTableEntries ≤ primaryIndex dest ∨ primaryTableEntries ≤ primaryIndex src then
    .error .outside
  else
    match t.pages (primaryIndex src) with
    | none => .ok t
    | some _ => memcpyEntries dest src (16#64 * (size >>> 3)) (t.ensure (primaryIndex dest))

/-! ## Words -/

/-- The word of memory an address is in. -/
def word (a : BitVec 64) : Nat := a.toNat / 8

/-- An entry for each word. -/
def shadow (t : Trie) : Nat → TrieEntry := t.view secondaryTableEntries

/-- The addresses the primary table is made for. -/
def Canonical (a : BitVec 64) : Prop := a.toNat < 2 ^ 48

theorem primaryIndex_eq (a : BitVec 64) : primaryIndex a = word a / secondaryTableEntries := by
  simp only [primaryIndex, word, secondaryTableEntries, BitVec.toNat_ushiftRight,
    Nat.shiftRight_eq_div_pow]
  omega

theorem secondaryIndex_eq (a : BitVec 64) : secondaryIndex a = word a % secondaryTableEntries := by
  have hmask : (0x3fffff#64).toNat = 2 ^ 22 - 1 := rfl
  have hshift : (a >>> 3).toNat = a.toNat / 8 := by
    rw [BitVec.toNat_ushiftRight, Nat.shiftRight_eq_div_pow]
  show ((a >>> 3) &&& 0x3fffff#64).toNat = _
  rw [BitVec.toNat_and, hmask, Nat.and_two_pow_sub_one_eq_mod, hshift]
  rfl

theorem secondaryTableEntries_pos : 0 < secondaryTableEntries := by decide

theorem primaryIndex_lt {a : BitVec 64} (h : Canonical a) : primaryIndex a < primaryTableEntries := by
  rw [primaryIndex_eq]
  simp only [Canonical, word, secondaryTableEntries, primaryTableEntries] at *
  omega

/-- The address of a pointer of a vector, with the index as a number. -/
def elementAddr (addrOfPtr : BitVec 64) (index : Int) : BitVec 64 :=
  addrOfPtr + BitVec.ofInt 64 (8 * index)

/-- The product of the index with 8 is an `int`. -/
def IndexInRange (index : BitVec 32) : Prop := -2 ^ 28 ≤ index.toInt ∧ index.toInt < 2 ^ 28

theorem vectorAddr_eq {index : BitVec 32} (h : IndexInRange index) (a : BitVec 64) :
    vectorAddr a index = elementAddr a index.toInt := by
  obtain ⟨hlow, hhigh⟩ := h
  have height : BitVec.toInt (8 : BitVec 32) = 8 := rfl
  have hproduct : (index * 8).toInt = 8 * index.toInt := by
    rw [BitVec.toInt_mul, height, Int.mul_comm]
    exact Int.bmod_eq_of_le (by omega) (by omega)
  rw [vectorAddr, BitVec.signExtend, hproduct, elementAddr]

theorem word_add {a b : BitVec 64} {k : Nat} (hb : b.toNat = 8 * k)
    (hroom : a.toNat + b.toNat < 2 ^ 64) : word (a + b) = word a + k := by
  have hsum : (a + b).toNat = a.toNat + b.toNat := by
    rw [BitVec.toNat_add]
    exact Nat.mod_eq_of_lt hroom
  simp only [word, hsum, hb]
  omega

section Access

variable {a : BitVec 64} (t : Trie)

theorem metadataLoad_eq (ha : Canonical a) : metadataLoad a t = .ok (shadow t (word a)) := by
  have hlt := primaryIndex_lt ha
  unfold metadataLoad
  rw [if_neg (by omega), shadow, LazyTable.view, ← primaryIndex_eq, ← secondaryIndex_eq,
    LazyTable.read]
  cases t.pages (primaryIndex a) <;> rfl

theorem metadataStore_eq (ha : Canonical a) (e : TrieEntry) :
    ∃ t', metadataStore a e t = .ok t' ∧ shadow t' = Function.update (shadow t) (word a) e := by
  have hlt := primaryIndex_lt ha
  have hcell : secondaryIndex a < secondaryTableEntries := by
    rw [secondaryIndex_eq]
    exact Nat.mod_lt _ secondaryTableEntries_pos
  have hflat : primaryIndex a * secondaryTableEntries + secondaryIndex a = word a := by
    rw [primaryIndex_eq, secondaryIndex_eq, Nat.mul_comm]
    exact Nat.div_add_mod ..
  refine ⟨_, if_neg (by omega), ?_⟩
  rw [shadow, LazyTable.view_write (LazyTable.ensure_isSome _ _) hcell, hflat,
    LazyTable.view_ensure]
  rfl

end Access

/-! ## `copy_metadata` -/

/-- The words a block of memory takes up when it begins at a word. -/
def words (size : BitVec 64) : Nat := (size.toNat + 7) / 8

section Copy

variable {dest src size : BitVec 64}

theorem copyEntry_eq {k : Nat} (hdest : dest.toNat + 8 * k < 2 ^ 48)
    (hsrc : src.toNat + 8 * k < 2 ^ 48) (t : Trie) :
    copyEntry dest src t (BitVec.ofNat 64 (8 * k)) =
      .ok (t.copyCell secondaryTableEntries (word dest + k) (word src + k)) := by
  have hk : (BitVec.ofNat 64 (8 * k)).toNat = 8 * k := by
    rw [BitVec.toNat_ofNat]
    exact Nat.mod_eq_of_lt (by omega)
  have hat : ∀ a : BitVec 64, a.toNat + 8 * k < 2 ^ 48 →
      word (a + BitVec.ofNat 64 (8 * k)) = word a + k ∧ Canonical (a + BitVec.ofNat 64 (8 * k)) := by
    intro a ha
    refine ⟨word_add hk (by omega), ?_⟩
    rw [Canonical, BitVec.toNat_add, hk]
    omega
  obtain ⟨hword, hcanon⟩ := hat dest hdest
  obtain ⟨hword', hcanon'⟩ := hat src hsrc
  have hlt := primaryIndex_lt hcanon
  have hlt' := primaryIndex_lt hcanon'
  unfold copyEntry
  rw [if_neg (by omega)]
  simp only [primaryIndex_eq, secondaryIndex_eq, hword, hword', LazyTable.copyCell,
    LazyTable.read_ensure]

theorem copyLoop_eq (hdest : dest.toNat + size.toNat < 2 ^ 48)
    (hsrc : src.toNat + size.toNat < 2 ^ 48) (t : Trie) :
    copyLoop dest src size t =
      .ok (t.copyEach secondaryTableEntries (word dest) (word src) (words size)) := by
  have key : ∀ n, 8 * n < size.toNat + 8 →
      foldRun (copyEntry dest src) t ((List.range n).map fun k => BitVec.ofNat 64 (8 * k)) =
        .ok (t.copyEach secondaryTableEntries (word dest) (word src) n) := by
    intro n hn
    induction n with
    | zero => rfl
    | succ n ih =>
        rw [List.range_succ, List.map_append, foldRun_append_ok]
        refine ⟨_, ih (by omega), foldRun_cons_ok.mpr ⟨_, copyEntry_eq (by omega) (by omega) _, ?_⟩⟩
        simp [LazyTable.copyEach, List.range_succ]
  exact key _ (by omega)

/-- A block that does not cross has its entries side by side. -/
theorem fits_of_not_crosses {a : BitVec 64} (ha : a.toNat + size.toNat < 2 ^ 48)
    (h : primaryIndex a = primaryIndex (a + size)) :
    secondaryIndex a + size.toNat / 8 ≤ secondaryTableEntries := by
  have hsum : (a + size).toNat = a.toNat + size.toNat := by
    rw [BitVec.toNat_add]
    exact Nat.mod_eq_of_lt (by omega)
  rw [primaryIndex_eq, primaryIndex_eq] at h
  rw [secondaryIndex_eq]
  simp only [word, hsum, secondaryTableEntries] at *
  omega

/-- The number of entries that `memcpy` is given: the whole words. -/
theorem memcpy_count (h : size.toNat < 2 ^ 48) :
    (16#64 * (size >>> 3)).toNat / 16 = size.toNat / 8 := by
  have hshift : (size >>> 3).toNat = size.toNat / 8 := by
    rw [BitVec.toNat_ushiftRight, Nat.shiftRight_eq_div_pow]
  have hsixteen : (16#64).toNat = 16 := rfl
  rw [BitVec.toNat_mul, hshift, hsixteen, Nat.mod_eq_of_lt (by omega)]
  omega

/-- The two blocks have no word in common. -/
def Apart (dest src size : BitVec 64) : Prop :=
  word dest + words size ≤ word src ∨ word src + words size ≤ word dest

theorem memcpyEntries_eq (hdest : dest.toNat + size.toNat < 2 ^ 48)
    (hsrc : src.toNat + size.toNat < 2 ^ 48) (hapart : Apart dest src size)
    (hcross : ¬ crosses dest src size) (t : Trie) (hpage : (t.pages (primaryIndex dest)).isSome) :
    ∃ t', memcpyEntries dest src (16#64 * (size >>> 3)) t = .ok t' ∧
      shadow t' = moved (shadow t) (word dest) (word src) (size.toNat / 8) := by
  rw [crosses, not_or, not_not, not_not] at hcross
  have hfit := fits_of_not_crosses hdest hcross.2
  have hfit' := fits_of_not_crosses hsrc hcross.1
  have hn := memcpy_count (show size.toNat < 2 ^ 48 by omega)
  have hapart' : ¬ (primaryIndex dest = primaryIndex src ∧
      secondaryIndex dest < secondaryIndex src + size.toNat / 8 ∧
      secondaryIndex src < secondaryIndex dest + size.toNat / 8) := by
    rintro ⟨hpage, hlt, hlt'⟩
    simp only [Apart, words, primaryIndex_eq, secondaryIndex_eq] at *
    have hd := Nat.div_add_mod (word dest) secondaryTableEntries
    have hs := Nat.div_add_mod (word src) secondaryTableEntries
    rw [hpage] at hd
    omega
  refine ⟨t.copyCells (primaryIndex dest) (secondaryIndex dest) (primaryIndex src)
    (secondaryIndex src) (size.toNat / 8), ?_, ?_⟩
  · unfold memcpyEntries
    simp only [hn]
    rw [if_neg (by omega), if_neg hapart']
  · simp only [primaryIndex_eq, secondaryIndex_eq] at hpage hfit hfit' ⊢
    exact LazyTable.view_copyCells hpage hfit hfit'

/-- Without the last word, if that is not whole. -/
theorem moved_floor_iff {f : Nat → TrieEntry} (hapart : Apart dest src size) :
    moved f (word dest) (word src) (size.toNat / 8) = moved f (word dest) (word src) (words size) ↔
      (size.toNat % 8 = 0 ∨ f (word dest + size.toNat / 8) = f (word src + size.toNat / 8)) ∨
        ∀ k < words size, f (word dest + k) = f (word src + k) := by
  by_cases hwhole : size.toNat % 8 = 0
  · have hwords : words size = size.toNat / 8 := by
      simp only [words]
      omega
    simp [hwhole, hwords]
  · have hwords : words size = size.toNat / 8 + 1 := by
      simp only [words]
      omega
    have hlast : (∀ k < words size, f (word dest + k) = f (word src + k)) →
        f (word dest + size.toNat / 8) = f (word src + size.toNat / 8) := fun h => h _ (by omega)
    simp only [hwhole, false_or, or_iff_left_of_imp hlast]
    simp only [Apart, hwords] at hapart ⊢
    rw [← moved_succ (by omega), eq_comm, Function.update_eq_self_iff, moved_of_outside (by omega),
      moved_of_outside (by omega), eq_comm]

/-- Where `copy_metadata` gets to the entry of each word of the source:
the loop does, and the `memcpy` if the source has a secondary table,
except for a word at the end that is not whole. Else the entry has to be
there already. -/
def Reaches (dest src size : BitVec 64) (t : Trie) : Prop :=
  (src % 8 = 0 ∧ (crosses dest src size ∨ ((t.pages (primaryIndex src)).isSome ∧
    (size.toNat % 8 = 0 ∨
      shadow t (word dest + size.toNat / 8) = shadow t (word src + size.toNat / 8))))) ∨
  ∀ k < words size, shadow t (word dest + k) = shadow t (word src + k)

theorem copyMetadata_apart (t : Trie) (hdest : dest.toNat + size.toNat < 2 ^ 48)
    (hsrc : src.toNat + size.toNat < 2 ^ 48) (hapart : Apart dest src size) :
    ∃ t', copyMetadata dest src size t = .ok t' ∧
      (shadow t' = moved (shadow t) (word dest) (word src) (words size) ↔
        Reaches dest src size t) := by
  have hself : shadow t = moved (shadow t) (word dest) (word src) (words size) ↔
      ∀ k < words size, shadow t (word dest + k) = shadow t (word src + k) :=
    eq_comm.trans moved_eq_self_iff
  unfold copyMetadata Reaches
  by_cases halign : src % 8 = 0
  swap
  · refine ⟨t, if_pos halign, hself.trans ?_⟩
    simp only [halign, false_and, false_or]
  rw [if_neg (not_not.mpr halign)]
  by_cases hcross : crosses dest src size
  · rw [if_pos hcross]
    refine ⟨_, copyLoop_eq hdest hsrc t, ?_⟩
    simp only [halign, hcross, true_and, true_or, iff_true]
    exact LazyTable.view_copyEach secondaryTableEntries_pos (hapart.imp_left fun h => by omega)
  · have hlt := primaryIndex_lt (a := dest) (by simp only [Canonical]; omega)
    have hlt' := primaryIndex_lt (a := src) (by simp only [Canonical]; omega)
    rw [if_neg hcross, if_neg (by omega)]
    cases hpage : t.pages (primaryIndex src) with
    | none =>
        refine ⟨t, rfl, hself.trans ?_⟩
        simp [hcross]
    | some page =>
        obtain ⟨t', ht', hview⟩ := memcpyEntries_eq hdest hsrc hapart hcross
          (t.ensure (primaryIndex dest)) (LazyTable.ensure_isSome _ _)
        have hview' : shadow t' = moved (shadow t) (word dest) (word src) (size.toNat / 8) := by
          rw [hview, shadow, LazyTable.view_ensure]
          rfl
        refine ⟨t', ht', ?_⟩
        simp only [halign, hcross, Option.isSome_some, true_and, false_or]
        rw [hview']
        exact moved_floor_iff hapart

/-- Blocks with a whole word in common, as `memmove` may bring them along,
are given to `memcpy` all the same. -/
theorem copyMetadata_overlap {t : Trie} (hdest : dest.toNat + size.toNat < 2 ^ 48)
    (hsrc : src.toNat + size.toNat < 2 ^ 48) (halign : src % 8 = 0)
    (hcross : ¬ crosses dest src size) (hpage : (t.pages (primaryIndex src)).isSome)
    (hlt : word dest < word src + size.toNat / 8) (hlt' : word src < word dest + size.toNat / 8) :
    copyMetadata dest src size t = .error .overlap := by
  have hcanon := primaryIndex_lt (a := dest) (by simp only [Canonical]; omega)
  have hcanon' := primaryIndex_lt (a := src) (by simp only [Canonical]; omega)
  obtain ⟨page, hpage⟩ := Option.isSome_iff_exists.mp hpage
  unfold copyMetadata
  rw [if_neg (not_not.mpr halign), if_neg hcross, if_neg (by omega)]
  simp only [hpage]
  rw [crosses, not_or, not_not, not_not] at hcross
  have hfit := fits_of_not_crosses hdest hcross.2
  have hfit' := fits_of_not_crosses hsrc hcross.1
  -- each block is in one secondary table, and so both are in the same one
  have hshared : primaryIndex dest = primaryIndex src ∧
      secondaryIndex dest < secondaryIndex src + size.toNat / 8 ∧
      secondaryIndex src < secondaryIndex dest + size.toNat / 8 := by
    simp only [primaryIndex_eq, secondaryIndex_eq, secondaryTableEntries] at hfit hfit' ⊢
    omega
  unfold memcpyEntries
  simp only [memcpy_count (show size.toNat < 2 ^ 48 by omega)]
  rw [if_neg (by omega), if_pos hshared]

/-- Between blocks that are apart, the entries of the destination become
those of the source exactly when each of them is reached. -/
theorem copyMetadata_iff (t : Trie) (hdest : dest.toNat + size.toNat < 2 ^ 48)
    (hsrc : src.toNat + size.toNat < 2 ^ 48) :
    (Apart dest src size → ∃ t', copyMetadata dest src size t = .ok t' ∧
      (shadow t' = moved (shadow t) (word dest) (word src) (words size) ↔
        Reaches dest src size t)) ∧
    (src % 8 = 0 → ¬ crosses dest src size → (t.pages (primaryIndex src)).isSome →
      word dest < word src + size.toNat / 8 → word src < word dest + size.toNat / 8 →
      copyMetadata dest src size t = .error .overlap) :=
  ⟨copyMetadata_apart t hdest hsrc, copyMetadata_overlap hdest hsrc⟩

/-- A pointer stored at `0x1000`. -/
def pointerAt : Trie := (LazyTable.empty.ensure 0).write 0 0x200 ⟨0x5000, 0x5010⟩

/-- Memory without a secondary table leaves what was there; two pointers
cannot be moved by one. -/
theorem copyMetadata_iff_stale :
    (∃ t', copyMetadata 0x1000 0x8000000 8 pointerAt = .ok t' ∧
      shadow t' ≠ moved (shadow pointerAt) (word 0x1000) (word 0x8000000) (words 8)) ∧
    copyMetadata 0x1008 0x1000 16 pointerAt = .error .overlap := by
  have hoverlap := (@copyMetadata_iff 0x1008 0x1000 16 pointerAt (by decide) (by decide)).2
  refine ⟨?_, hoverlap rfl (by decide) rfl (by decide) (by decide)⟩
  obtain ⟨t', ht', hiff⟩ := (@copyMetadata_iff 0x1000 0x8000000 8 pointerAt
    (by decide) (by decide)).1 (.inl (by decide))
  refine ⟨t', ht', fun h => ?_⟩
  rcases hiff.mp h with ⟨-, hcross | ⟨hpage, -⟩⟩ | hsame
  · exact absurd hcross (by decide)
  · exact absurd hpage (by decide)
  · have hzero : (⟨0x5000, 0x5010⟩ : TrieEntry) = ⟨0, 0⟩ := hsame 0 (by decide)
    exact absurd hzero (by decide)

end Copy

/-! ## Runs -/

inductive MetaOp where
  | store (addrOfPtr : BitVec 64) (entry : TrieEntry)
  | storeVector (addrOfPtr : BitVec 64) (entry : TrieEntry) (index : BitVec 32)
  | copy (dest src size : BitVec 64)
deriving Repr, DecidableEq

def execOp (t : Trie) : MetaOp → Except Fault Trie
  | .store addrOfPtr entry => metadataStore addrOfPtr entry t
  | .storeVector addrOfPtr entry index => metadataStoreVector addrOfPtr entry index t
  | .copy dest src size => copyMetadata dest src size t

/-- What an operation is for: an entry of its own for each word. -/
def MetaOp.apply (f : Nat → TrieEntry) : MetaOp → Nat → TrieEntry
  | .store addrOfPtr entry => Function.update f (word addrOfPtr) entry
  | .storeVector addrOfPtr entry index =>
      Function.update f (word (elementAddr addrOfPtr index.toInt)) entry
  | .copy dest src size => moved f (word dest) (word src) (words size)

/-- The entries after a run. -/
def entriesAfter (ops : List MetaOp) : Nat → TrieEntry := ops.foldl MetaOp.apply fun _ => 0

/-- The addresses are those of a program, the product of an index is an
`int`, and the two ranges of a copy have no word in common. -/
def MetaOp.InRange : MetaOp → Prop
  | .store addrOfPtr _ => Canonical addrOfPtr
  | .storeVector addrOfPtr _ index =>
      IndexInRange index ∧ Canonical (elementAddr addrOfPtr index.toInt)
  | .copy dest src size =>
      dest.toNat + size.toNat < 2 ^ 48 ∧ src.toNat + size.toNat < 2 ^ 48 ∧ Apart dest src size

def CopyReaches (t : Trie) : MetaOp → Prop
  | .copy dest src size => Reaches dest src size t
  | _ => True

theorem execOp_spec {op : MetaOp} (h : op.InRange) (t : Trie) :
    ∃ t', execOp t op = .ok t' ∧ (CopyReaches t op → shadow t' = op.apply (shadow t)) := by
  cases op with
  | store a e =>
      obtain ⟨t', ht', hview⟩ := metadataStore_eq t h e
      exact ⟨t', ht', fun _ => hview⟩
  | storeVector a e index =>
      obtain ⟨hindex, ha⟩ := h
      obtain ⟨t', ht', hview⟩ := metadataStore_eq t ha e
      rw [← vectorAddr_eq hindex] at ht'
      exact ⟨t', ht', fun _ => hview⟩
  | copy dest src size =>
      obtain ⟨hdest, hsrc, hapart⟩ := h
      obtain ⟨t', ht', hiff⟩ := copyMetadata_apart t hdest hsrc hapart
      exact ⟨t', ht', hiff.mpr⟩

/-- A run in which each copy gets to its entries leaves what the
operations are for: each load, of an address or of an element of a
vector, comes back with the entry that was stored for the word, or copied
there, last. -/
theorem metadata_run (ops : List MetaOp) (hrange : ∀ op ∈ ops, op.InRange) :
    ∃ t, foldRun execOp .empty ops = .ok t ∧ (EachStep execOp CopyReaches .empty ops →
      (∀ a, Canonical a → metadataLoad a t = .ok (entriesAfter ops (word a))) ∧
      ∀ a index, IndexInRange index → Canonical (elementAddr a index.toInt) →
        metadataLoadVector a index t =
          .ok (entriesAfter ops (word (elementAddr a index.toInt)))) := by
  have key : ∀ t f, shadow t = f → ∃ t', foldRun execOp t ops = .ok t' ∧
      (EachStep execOp CopyReaches t ops → shadow t' = ops.foldl MetaOp.apply f) := by
    induction ops with
    | nil => exact fun t f h => ⟨t, rfl, fun _ => h⟩
    | cons op ops ih =>
        rintro t _ rfl
        obtain ⟨t₁, h₁, hview⟩ := execOp_spec (hrange op (List.mem_cons_self ..)) t
        obtain ⟨t', h', hrest⟩ := ih (fun o ho => hrange o (List.mem_cons_of_mem _ ho)) t₁ _ rfl
        refine ⟨t', foldRun_cons_ok.mpr ⟨t₁, h₁, h'⟩, fun heach => ?_⟩
        obtain ⟨hop, hops⟩ := eachStep_cons.mp heach
        rw [hrest (hops t₁ h₁), hview hop]
        rfl
  obtain ⟨t, ht, hview⟩ := key .empty _ rfl
  refine ⟨t, ht, fun heach => ?_⟩
  have hload : ∀ a, Canonical a → metadataLoad a t = .ok (entriesAfter ops (word a)) := by
    intro a ha
    rw [metadataLoad_eq t ha, hview heach]
    rfl
  refine ⟨hload, fun a index hindex ha => ?_⟩
  rw [metadataLoadVector, vectorAddr_eq hindex]
  exact hload _ ha

/-! ## Where entries come from -/

def MetaOp.entry? : MetaOp → Option TrieEntry
  | .store _ entry => some entry
  | .storeVector _ entry _ => some entry
  | .copy _ _ _ => none

/-- The entries a run stores. -/
def storedEntries (ops : List MetaOp) : List TrieEntry := ops.filterMap MetaOp.entry?

section Provenance

variable {P : TrieEntry → Prop}

theorem copyEntry_all {dest src index : BitVec 64} {t t' : Trie} (h : copyEntry dest src t index = .ok t')
    (hall : ∀ i k, P (t.read i k)) : ∀ i k, P (t'.read i k) := by
  unfold copyEntry at h
  dsimp only at h
  split at h
  · cases h
  · cases h
    exact LazyTable.write_all (by simpa using hall) (by simpa using hall _ _)

theorem copyMetadata_all {dest src size : BitVec 64} {t t' : Trie}
    (h : copyMetadata dest src size t = .ok t') (hall : ∀ i k, P (t.read i k)) :
    ∀ i k, P (t'.read i k) := by
  unfold copyMetadata at h
  split at h
  · cases h
    exact hall
  · split at h
    · exact foldRun_inv (I := fun _ (t : Trie) => ∀ i k, P (t.read i k)) hall
        (fun _ _ _ _ hI hstep => copyEntry_all hstep hI) h
    · split at h
      · cases h
      · split at h
        · cases h
          exact hall
        · unfold memcpyEntries at h
          dsimp only at h
          split at h
          · cases h
          · split at h
            · cases h
            · cases h
              exact LazyTable.copyCells_all (by simpa using hall)

theorem execOp_all {op : MetaOp} {t t' : Trie} (h : execOp t op = .ok t')
    (hop : ∀ e, op.entry? = some e → P e) (hall : ∀ i k, P (t.read i k)) :
    ∀ i k, P (t'.read i k) := by
  have hstore : ∀ a e, P e → metadataStore a e t = .ok t' → ∀ i k, P (t'.read i k) := by
    intro a e he h
    unfold metadataStore at h
    dsimp only at h
    split at h
    · cases h
    · cases h
      exact LazyTable.write_all (by simpa using hall) he
  cases op with
  | store a e => exact hstore a e (hop e rfl) h
  | storeVector a e index => exact hstore _ e (hop e rfl) h
  | copy dest src size => exact copyMetadata_all h hall

end Provenance

/-- In every run, what is loaded was stored by the run for some pointer,
or is null. -/
theorem metadata_provenance {ops : List MetaOp} {t : Trie} (h : foldRun execOp .empty ops = .ok t)
    {a : BitVec 64} {e : TrieEntry} (hload : metadataLoad a t = .ok e) :
    e = 0 ∨ e ∈ storedEntries ops := by
  have hall : ∀ i k, t.read i k = 0 ∨ t.read i k ∈ storedEntries ops := by
    refine foldRun_inv (I := fun pre (t : Trie) => ∀ i k, t.read i k = 0 ∨
      t.read i k ∈ storedEntries pre) (fun i k => .inl rfl) ?_ h
    intro pre op t₁ t₂ hI hop
    have hnew : ∀ x, x ∈ storedEntries pre ∨ op.entry? = some x → x ∈ storedEntries (pre ++ [op]) := by
      intro x hx
      rw [storedEntries, List.filterMap_append, List.mem_append]
      rcases hx with hx | hx
      · exact .inl hx
      · exact .inr (by simp [hx])
    refine execOp_all (P := fun x => x = 0 ∨ x ∈ storedEntries (pre ++ [op])) hop
      (fun x hx => .inr (hnew x (.inr hx))) fun i k => ?_
    exact (hI i k).imp_right fun hmem => hnew _ (.inl hmem)
  unfold metadataLoad at hload
  dsimp only at hload
  split at hload
  · cases hload
  · split at hload
    · cases hload
      exact .inl rfl
    · rename_i page hpage
      cases hload
      have hread := hall (primaryIndex a) (secondaryIndex a)
      simpa only [LazyTable.read, hpage] using hread

/-- A pointer stored at one address and copied to another. -/
def copiedPointer : List MetaOp := [.store 0x1000 ⟨0x5000, 0x5010⟩, .copy 0x2000 0x1000 8]

theorem metadata_run_copied : ∃ t, foldRun execOp .empty copiedPointer = .ok t ∧
    metadataLoad 0x2000 t = .ok ⟨0x5000, 0x5010⟩ ∧
    metadataLoadVector 0x2010 (-2) t = .ok ⟨0x5000, 0x5010⟩ := by
  have hcanon : (0x2000 : BitVec 64).toNat < 2 ^ 48 := by decide
  obtain ⟨t, ht, hloads⟩ := metadata_run copiedPointer (by
    intro op hop
    rcases List.mem_pair.mp hop with rfl | rfl
    · show (0x1000 : BitVec 64).toNat < 2 ^ 48
      decide
    · exact ⟨by decide, by decide, .inr (by decide)⟩)
  have hreaches : EachStep execOp CopyReaches .empty copiedPointer := by
    refine eachStep_cons.mpr ⟨trivial, fun t₁ ht₁ => eachStep_cons.mpr
      ⟨.inl ⟨rfl, .inr ⟨?_, .inl rfl⟩⟩, fun t₂ _ => eachStep_nil t₂⟩⟩
    obtain rfl := Except.ok.inj ht₁
    rfl
  obtain ⟨hload, hvector⟩ := hloads hreaches
  exact ⟨t, ht, hload 0x2000 hcanon, hvector 0x2010 (-2) ⟨by decide, by decide⟩ hcanon⟩

end Sb

end Oat
