import Oat.LegacyScan

/-!
# What the legacy instrumenter rewrites

It is to rewrite the text section: the hooked words there are replaced,
and nothing else differs (`RewritesText`). The test for the end of the
section comes after the rewriting, though, so the word after the section
is rewritten too if the disassembler gets to it (`Overruns`), and where
the first word of the section does not decode there is no address to go on
from. It rewrites the text in all other cases, and in these it does not
(`rewritesText_iff`).
-/

namespace Oat

namespace Legacy

variable (opts : Opts) (md : Disasm) (file : List UInt8)

/-! ## What it is to do -/

/-- The instruction at `a` is one of the text, it is hooked, and `w` is the
BL to its hook. -/
structure Target (a : Int) (w : List UInt8) : Prop where
  aligned : ∃ k : Nat, a = opts.textStart + 4 * k
  inside : a < opts.textEnd
  hooked : hookedWord opts md file a = some w

/-- `mm` is the file with the targets replaced, and nothing else. -/
structure Instrumented (mm : List UInt8) : Prop where
  length : mm.length = file.length
  replaced : ∀ a w, Target opts md file a w →
    window mm (a - opts.loadAddress).toNat 4 = some w
  frame : ∀ k : Nat, mm[k]? ≠ file[k]? → ∃ a w, Target opts md file a w ∧
    (a - opts.loadAddress).toNat ≤ k ∧ k < (a - opts.loadAddress).toNat + 4

/-- The tool instruments the file, a dry run leaves it alone, and the table
is the same. -/
def RewritesText : Prop :=
  ∃ mm table, Returns { opts with dryRun := false } md file mm table ∧
    Returns { opts with dryRun := true } md file file table ∧ Instrumented opts md file mm

/-- The word after the section is reached, and it is a hooked one. -/
def Overruns : Prop :=
  let words := sectionWords opts.textStart opts.textEnd
  let a := opts.textStart + 4 * (words : Int)
  (words = 0 ∨ (insnOf opts md file (a - 4)).isSome = true) ∧
    ∃ w, hookedWord opts md file a = some w ∧
      window file (a - opts.loadAddress).toNat 4 ≠ some w

variable {opts md file}

/-! ## What it does -/

theorem words_pairwise : (words opts md file).Pairwise fun a b => a + 4 ≤ b := scanned_pairwise

theorem writes_pairwise : (writes opts md file (words opts md file)).Pairwise
    fun p q => p.1 + p.2.length ≤ q.1 := by
  refine List.Pairwise.filterMap _ ?_ words_pairwise
  intro a b hab p hp q hq
  obtain ⟨w, hw, rfl⟩ := Option.map_eq_some_iff.mp hp
  obtain ⟨w', hw', rfl⟩ := Option.map_eq_some_iff.mp hq
  obtain ⟨hload, -, hlen, -⟩ := hookedWord_some hw
  dsimp only
  omega

/-- Every hooked word that is visited is replaced. -/
theorem window_words {a : Int} {w : List UInt8} (ha : a ∈ words opts md file)
    (hw : hookedWord opts md file a = some w) :
    window (patched opts md file (words opts md file)) (a - opts.loadAddress).toNat 4 = some w := by
  obtain ⟨-, -, hlen, -⟩ := hookedWord_some hw
  have hop : ((a - opts.loadAddress).toNat, w) ∈ writes opts md file (words opts md file) :=
    List.mem_filterMap.mpr ⟨a, ha, by rw [hw]; rfl⟩
  rw [← hlen]
  exact window_overwriteAll (writes_bounds _) writes_pairwise hop

theorem Target.mem {a : Int} {w : List UInt8} (h : Target opts md file a w) :
    a ∈ words opts md file := by
  obtain ⟨k, rfl⟩ := h.aligned
  obtain ⟨-, hsome, -⟩ := hookedWord_some h.hooked
  exact List.mem_append_left _
    (mem_decodedBelow.mpr ⟨k, lt_stop_iff.mp h.inside, rfl, hsome⟩)

/-- A byte that differs is in a hooked word that has been visited. -/
theorem patched_differs {V : List Int} {k : Nat} (hk : (patched opts md file V)[k]? ≠ file[k]?) :
    ∃ a ∈ V, ∃ w, hookedWord opts md file a = some w ∧
      (a - opts.loadAddress).toNat ≤ k ∧ k < (a - opts.loadAddress).toNat + 4 := by
  by_contra hnone
  refine hk (overwriteAll_getElem? (writes_bounds V) fun op hop hin => hnone ?_)
  obtain ⟨a, ha, hw, hoff, hlen, -⟩ := mem_writes hop
  exact ⟨a, ha, op.2, hw, by omega, by omega⟩

theorem instrumented (hover : ¬ Overruns opts md file) :
    Instrumented opts md file (patched opts md file (words opts md file)) where
  length := patched_length _
  replaced a w h := window_words h.mem h.hooked
  frame k hk := by
    obtain ⟨a, ha, w, hw, hle, hlt⟩ := patched_differs hk
    refine ⟨a, w, ?_, hle, hlt⟩
    obtain ⟨-, ⟨k', hk', rfl⟩ | ⟨hreached, hlast⟩⟩ := mem_scanned ha
    · exact ⟨⟨k', rfl⟩, lt_stop_iff.mpr hk', hw⟩
    · -- the word after the section: it had the BL to its hook already
      have hsame : window file (a - opts.loadAddress).toNat 4 = some w := by
        by_contra hne
        refine hover ⟨?_, w, ?_, ?_⟩ <;> rw [← hlast] <;> assumption
      have hread := window_words ha hw
      have hbyte := (window_getElem? hread (k := k - (a - opts.loadAddress).toNat) (by omega)).trans
        (window_getElem? hsame (by omega)).symm
      rw [Nat.add_sub_cancel' hle] at hbyte
      exact absurd hbyte hk

theorem not_instrumented (hover : Overruns opts md file) :
    ¬ Instrumented opts md file (patched opts md file (words opts md file)) := by
  obtain ⟨hreached, w, hw, hne⟩ := hover
  intro h
  obtain ⟨hload, hsome, hlen, hbound⟩ := hookedWord_some hw
  have hmem : opts.textStart + 4 * (sectionWords opts.textStart opts.textEnd : Int) ∈
      words opts md file := by
    refine List.mem_append_right _ ?_
    rw [if_pos ⟨hreached, hsome⟩]
    exact List.mem_singleton_self _
  have hread := window_words hmem hw
  refine hne ((window_congr (patched_length _).symm fun k hle hlt => ?_).trans hread)
  by_contra hk
  obtain ⟨a, w', htarget, hle', hlt'⟩ := h.frame k (Ne.symm hk)
  obtain ⟨k', rfl⟩ := htarget.aligned
  obtain ⟨hload', -⟩ := hookedWord_some htarget.hooked
  have hinside := lt_stop_iff.mp htarget.inside
  omega

theorem first_of_rewritesText (h : RewritesText opts md file) :
    (insnOf opts md file opts.textStart).isSome = true := by
  obtain ⟨mm, table, hreturns, -⟩ := h
  by_contra hnone
  exact not_returns { opts with dryRun := false } (Bool.eq_false_of_not_eq_true hnone)
    mm table hreturns

theorem rewritesText (hstart : 0 ≤ opts.textStart)
    (hfirst : (insnOf opts md file opts.textStart).isSome = true)
    (hover : ¬ Overruns opts md file) : RewritesText opts md file :=
  ⟨_, _, hookit_returns { opts with dryRun := false } hstart hfirst,
    hookit_returns { opts with dryRun := true } hstart hfirst, instrumented hover⟩

theorem not_rewritesText (hstart : 0 ≤ opts.textStart) (hover : Overruns opts md file) :
    ¬ RewritesText opts md file := by
  intro h
  have hfirst := first_of_rewritesText h
  have hleaves := hookit_returns { opts with dryRun := false } hstart hfirst
  obtain ⟨mm, table, hreturns, -, hmm⟩ := h
  obtain ⟨rfl, -⟩ := hreturns.unique hleaves
  exact not_instrumented hover hmm

/-- The text is rewritten, and only the text, exactly when the first word
decodes and the word after the text is not reached as a hooked one. -/
theorem rewritesText_iff (opts : Opts) (md : Disasm) (file : List UInt8)
    (hstart : 0 ≤ opts.textStart) : RewritesText opts md file ↔
      (insnOf opts md file opts.textStart).isSome = true ∧ ¬ Overruns opts md file :=
  ⟨fun h => ⟨first_of_rewritesText h, fun hover => not_rewritesText hstart hover h⟩,
    fun ⟨hfirst, hover⟩ => rewritesText hstart hfirst hover⟩

/-! ### A NOP, a RET and a NOP -/

def nopRet : Disasm where
  decode word a :=
    if word = [0x1f, 0x20, 0x03, 0xd5] then some ⟨.other, a, "nop", [], word⟩
    else if word = [0xc0, 0x03, 0x5f, 0xd6] then some ⟨.ret, a, "ret", [], word⟩
    else none
  address_eq word a i h := by
    split at h
    · rw [← Option.some.inj h]
    · split at h
      · rw [← Option.some.inj h]
      · cases h
  bytes_eq word a i h := by
    split at h
    · rw [← Option.some.inj h]
    · split at h
      · rw [← Option.some.inj h]
      · cases h

def nopRetNop : List UInt8 :=
  [0x1f, 0x20, 0x03, 0xd5, 0xc0, 0x03, 0x5f, 0xd6, 0x1f, 0x20, 0x03, 0xd5]

def textOf (textEnd : Int) : Opts where
  loadAddress := 0
  textStart := 0
  textEnd := textEnd
  omitAddresses := []
  dryRun := false
  hooks := ⟨64, 64, 64, 64, 64, 64, 64, 64, 64, 64, 64, 64, 64, 64, 64, 64, 64, 64, 64, 64, 64, 64,
    64, 64, 64, 64, 64, 64⟩

/-- The text is the first two words. -/
theorem rewritesText_iff_nop : RewritesText (textOf 8) nopRet nopRetNop :=
  (rewritesText_iff (textOf 8) nopRet nopRetNop (by decide)).mpr
    ⟨rfl, fun ⟨_, _, hw, _⟩ => nomatch hw⟩

/-- The text is the first word, and the RET after it is replaced too. -/
theorem text_overrun : ¬ RewritesText (textOf 4) nopRet nopRetNop :=
  not_rewritesText (by decide) ⟨.inr rfl, [0x0f, 0x00, 0x00, 0x94], by decide +kernel, by decide⟩

end Legacy

end Oat
