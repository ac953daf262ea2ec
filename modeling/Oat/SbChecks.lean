import Oat.SbMetadata

/-!
# The spatial checks of SoftBoundCETS

A check aborts unless an access is within the base and the bound of its
pointer; the arithmetic is that of `size_t`. Each check is a `Bool` here:
whether the program goes on.

The checks of a block subtract the size from the bound and test for the
wrap by a second comparison; `memcopyCheck_iff` and `strcpyCheck_iff` say
what that lets through. The check of an access has no such test.
`access_in_object` puts it together with the metadata space: what is
loaded there was stored there for some pointer, so that an access which
passes is in an object or goes over the end of memory.
-/

namespace Oat

namespace Sb

/-! ## The code -/

/-- The check of loads and that of stores. -/
def dereferenceCheck (base bound ptr sizeOfType : BitVec 64) : Bool :=
  !(ptr < base || bound < ptr + sizeOfType)

def spatialLoadDereferenceCheck (base bound ptr sizeOfType : BitVec 64) : Bool :=
  dereferenceCheck base bound ptr sizeOfType

def spatialStoreDereferenceCheck (base bound ptr sizeOfType : BitVec 64) : Bool :=
  dereferenceCheck base bound ptr sizeOfType

/-- A function pointer is its own base and bound. -/
def spatialCallDereferenceCheck (base bound ptr : BitVec 64) : Bool :=
  !(base != bound && ptr != base)

def longMax : BitVec 64 := 0x7fffffffffffffff

/-- One of the two blocks: `limit` is what the size is compared to. -/
def blockCheck (base bound limit ptr size : BitVec 64) : Bool :=
  !(ptr < base || bound - size < ptr || limit < size)

/-- The bound of the destination is the limit for both blocks. -/
def memcopyCheck (dest src size destBase destBound srcBase srcBound : BitVec 64) : Bool :=
  !(longMax ≤ size) && blockCheck destBase destBound destBound dest size &&
    blockCheck srcBase srcBound destBound src size

def memsetCheck (dest size destBase destBound : BitVec 64) : Bool :=
  !(longMax ≤ size) && blockCheck destBase destBound destBound dest size

/-- The check in `softboundcets_strncpy`. -/
def strncpyCheck (dest src n destBase destBound srcBase srcBound : BitVec 64) : Bool :=
  blockCheck destBase destBound destBound dest n && blockCheck srcBase srcBound srcBound src n

/-- A string of length `size`, with its end. -/
def stringCheck (base bound ptr size : BitVec 64) : Bool :=
  !(ptr < base || bound - size - 1 < ptr || bound < size)

/-- The check in `softboundcets_strcpy`; `size` is the length of the source. -/
def strcpyCheck (dest src size destBase destBound srcBase srcBound : BitVec 64) : Bool :=
  stringCheck destBase destBound dest size && stringCheck srcBase srcBound src size

def shrinkBounds (newBase newBound oldBase oldBound : BitVec 64) : TrieEntry where
  base := if newBase < oldBase then oldBase else newBase
  bound := if oldBound < newBound then oldBound else newBound

/-! ## What they let through -/

/-- `n` bytes from `ptr` on are between the base and the bound. -/
def InBounds (base bound ptr : BitVec 64) (n : Nat) : Prop :=
  base ≤ ptr ∧ ptr.toNat + n ≤ bound.toNat

/-- The end of the access wraps around, to a place that is not above the
bound. -/
def WrapsInto (base bound ptr : BitVec 64) (n : Nat) : Prop :=
  base ≤ ptr ∧ 2 ^ 64 ≤ ptr.toNat + n ∧ ptr.toNat + n ≤ bound.toNat + 2 ^ 64

section Checks

variable {base bound limit ptr size : BitVec 64}

theorem dereferenceCheck_iff :
    dereferenceCheck base bound ptr size = true ↔
      InBounds base bound ptr size.toNat ∨ WrapsInto base bound ptr size.toNat := by
  simp only [dereferenceCheck, InBounds, WrapsInto, Bool.not_eq_true', Bool.or_eq_false_iff,
    decide_eq_false_iff_not, BitVec.lt_def, BitVec.le_def, Nat.not_lt, BitVec.toNat_add]
  have hb := bound.isLt
  have hs := size.isLt
  have hp := ptr.isLt
  omega

/-- A wrapped bound is above every address, so that the limit decides. -/
theorem blockCheck_iff :
    blockCheck base bound limit ptr size = true ↔ size ≤ limit ∧
      (InBounds base bound ptr size.toNat ∨
        (base ≤ ptr ∧ bound < size ∧ ptr.toNat + size.toNat ≤ bound.toNat + 2 ^ 64)) := by
  simp only [blockCheck, InBounds, Bool.not_eq_true', Bool.or_eq_false_iff,
    decide_eq_false_iff_not, BitVec.lt_def, BitVec.le_def, Nat.not_lt, BitVec.toNat_sub]
  have hb := bound.isLt
  have hs := size.isLt
  have hp := ptr.isLt
  omega

theorem blockCheck_self :
    blockCheck base bound bound ptr size = true ↔ InBounds base bound ptr size.toNat := by
  rw [blockCheck_iff]
  simp only [InBounds, BitVec.lt_def, BitVec.le_def]
  omega

theorem stringCheck_iff :
    stringCheck base bound ptr size = true ↔
      InBounds base bound ptr (size.toNat + 1) ∨ (base ≤ ptr ∧ size = bound) := by
  simp only [stringCheck, InBounds, Bool.not_eq_true', Bool.or_eq_false_iff,
    decide_eq_false_iff_not, BitVec.lt_def, BitVec.le_def, Nat.not_lt, BitVec.toNat_sub,
    BitVec.toNat_eq]
  have hone : BitVec.toNat (1 : BitVec 64) = 1 := rfl
  have hb := bound.isLt
  have hs := size.isLt
  have hp := ptr.isLt
  rw [hone]
  omega

end Checks

/-- The destination is checked as it should be. The source need not be
in its bounds when its bound is below the size. -/
theorem memcopyCheck_iff {dest src size destBase destBound srcBase srcBound : BitVec 64} :
    memcopyCheck dest src size destBase destBound srcBase srcBound = true ↔
      size < longMax ∧ InBounds destBase destBound dest size.toNat ∧
        (InBounds srcBase srcBound src size.toNat ∨
          (srcBase ≤ src ∧ srcBound < size ∧ src.toNat + size.toNat ≤ srcBound.toNat + 2 ^ 64)) := by
  simp only [memcopyCheck, Bool.and_eq_true, Bool.not_eq_true', decide_eq_false_iff_not,
    blockCheck_self, BitVec.not_le, and_assoc]
  refine and_congr_right fun _ => and_congr_right fun hdest => ?_
  have hlimit : size ≤ destBound := by
    have := hdest.2
    rw [BitVec.le_def]
    omega
  rw [blockCheck_iff, and_iff_right hlimit]

/-- The bounds of a function are equal: with them, or with none, a call
goes on wherever it leads. -/
theorem spatialCallDereferenceCheck_iff {base bound ptr : BitVec 64} :
    spatialCallDereferenceCheck base bound ptr = true ↔ base = bound ∨ ptr = base := by
  simp only [spatialCallDereferenceCheck, Bool.not_eq_true', Bool.and_eq_false_iff, bne_eq_false_iff_eq]

theorem memsetCheck_iff {dest size destBase destBound : BitVec 64} :
    memsetCheck dest size destBase destBound = true ↔
      size < longMax ∧ InBounds destBase destBound dest size.toNat := by
  simp only [memsetCheck, Bool.and_eq_true, Bool.not_eq_true', decide_eq_false_iff_not,
    blockCheck_self, BitVec.not_le]

/-- The check of `strncpy` compares each size to its own bound. -/
theorem strncpyCheck_iff {dest src n destBase destBound srcBase srcBound : BitVec 64} :
    strncpyCheck dest src n destBase destBound srcBase srcBound = true ↔
      InBounds destBase destBound dest n.toNat ∧ InBounds srcBase srcBound src n.toNat := by
  rw [strncpyCheck, Bool.and_eq_true, blockCheck_self, blockCheck_self]

/-- Bounds that were shrunk are those of both. -/
theorem inBounds_shrinkBounds {newBase newBound oldBase oldBound ptr : BitVec 64} {n : Nat} :
    InBounds (shrinkBounds newBase newBound oldBase oldBound).base
        (shrinkBounds newBase newBound oldBase oldBound).bound ptr n ↔
      InBounds newBase newBound ptr n ∧ InBounds oldBase oldBound ptr n := by
  simp only [InBounds, shrinkBounds, BitVec.le_def, BitVec.lt_def]
  split <;> split <;> omega

/-- A string that is as long as the bound is high passes, wherever it is. -/
theorem strcpyCheck_iff {dest src size destBase destBound srcBase srcBound : BitVec 64} :
    strcpyCheck dest src size destBase destBound srcBase srcBound = true ↔
      (InBounds destBase destBound dest (size.toNat + 1) ∨ (destBase ≤ dest ∧ size = destBound)) ∧
        (InBounds srcBase srcBound src (size.toNat + 1) ∨ (srcBase ≤ src ∧ size = srcBound)) := by
  rw [strcpyCheck, Bool.and_eq_true, stringCheck_iff, stringCheck_iff]

/-- The empty string, through a pointer without metadata. -/
example : strcpyCheck 0x1000 0x2000 0 0 0 0x2000 0x2001 = true := by decide

/-! ## Accesses -/

/-- In a run that stores the bounds of objects only, whatever is copied
where, a load and a store are checked against an object, the one with the
bounds that were loaded for the pointer: the check passes exactly for what
lies in it, and for an access that wraps around. Without metadata that is
one which ends with the last byte of memory. -/
theorem access_in_object {objects : List TrieEntry} {ops : List MetaOp} {t : Trie}
    (hrun : foldRun execOp .empty ops = .ok t) (hobj : ∀ e ∈ storedEntries ops, e ∈ objects)
    {a : BitVec 64} {e : TrieEntry} (hload : metadataLoad a t = .ok e) {ptr size : BitVec 64}
    (hsize : 0 < size) {check : BitVec 64 → BitVec 64 → BitVec 64 → BitVec 64 → Bool}
    (hcheck : check = spatialLoadDereferenceCheck ∨ check = spatialStoreDereferenceCheck) :
    (check e.base e.bound ptr size = true ↔
      (e ∈ objects ∧ InBounds e.base e.bound ptr size.toNat) ∨
        WrapsInto e.base e.bound ptr size.toNat) ∧
    (e = 0 → (check e.base e.bound ptr size = true ↔ ptr.toNat + size.toNat = 2 ^ 64)) := by
  have hsame : check = dereferenceCheck := by rcases hcheck with rfl | rfl <;> rfl
  have hpos : 0 < size.toNat := hsize
  have hnull : ¬ InBounds 0 0 ptr size.toNat := by
    rintro ⟨-, hend⟩
    have hend : ptr.toNat + size.toNat ≤ 0 := hend
    omega
  rw [hsame, dereferenceCheck_iff]
  refine ⟨?_, ?_⟩
  · rcases metadata_provenance hrun hload with rfl | hmem
    · show InBounds 0 0 ptr _ ∨ _ ↔ (_ ∧ InBounds 0 0 ptr _) ∨ _
      simp only [hnull, and_false]
    · rw [and_iff_right (hobj e hmem)]
  · rintro rfl
    show InBounds 0 0 ptr _ ∨ WrapsInto 0 0 ptr _ ↔ _
    have hzero : BitVec.toNat (0 : BitVec 64) = 0 := rfl
    simp only [hnull, false_or, WrapsInto, BitVec.le_def, hzero]
    omega

/-- Through the pointer that was copied, and through one that has nothing. -/
theorem access_in_object_copied :
    (spatialStoreDereferenceCheck 0x5000 0x5010 0x5008 8 = true ↔
      (⟨0x5000, 0x5010⟩ ∈ [(⟨0x5000, 0x5010⟩ : TrieEntry)] ∧ InBounds 0x5000 0x5010 0x5008 8) ∨
        WrapsInto 0x5000 0x5010 0x5008 8) ∧
    (spatialLoadDereferenceCheck 0 0 0xfffffffffffffff8 8 = true ↔ 0xfffffffffffffff8 + 8 = 2 ^ 64) := by
  have hrun : foldRun execOp .empty copiedPointer = .ok _ := rfl
  exact ⟨(access_in_object hrun (fun e he => he) (a := 0x2000) (e := ⟨0x5000, 0x5010⟩) rfl
      (by decide) (.inr rfl)).1,
    (access_in_object hrun (fun e he => he) (a := 0x3000) (e := 0) rfl (by decide) (.inl rfl)).2 rfl⟩

end Sb

end Oat
