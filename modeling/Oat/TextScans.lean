import Oat.LegacyText
import Oat.VeScan

/-!
# The scans of the two programs

`hookit` of the legacy instrumenter and `hookit` of the verify engine
share their loops. In the first they handle each word of the text that
decodes, once and in order, and pass over the others one by one; in the
second they do so up to the call that starts the replay. A call of
`cfv_quote` before that one ends the scan early, where the disassembler
ends next.
-/

namespace Oat

open Ve A64

/-- Both scans handle each word, once and in order. -/
theorem scans_text {opts : Ve.Opts} {img : Image} {fetch : Int → Option Insn}
    (hdis : Disassembles img fetch) (hstart : 0 ≤ opts.textStart)
    (hfirst : (fetch opts.textStart).isSome = true)
    (hfile : ∀ a, (fetch a).isSome = true → a < opts.loadAddress + img.size)
    {tracefile : List UInt8} {c₀ : Ve.Conf} (h₀ : Ve.hookitStart opts img tracefile = .ok c₀)
    {lopts : Legacy.Opts} {md : Legacy.Disasm} {file : List UInt8}
    (hlstart : 0 ≤ lopts.textStart)
    (hlfirst : (Legacy.insnOf lopts md file lopts.textStart).isSome = true) :
    Ve.ScansText opts img fetch c₀ ∧ Legacy.ScansText lopts md file :=
  ⟨Ve.hookit_scans hdis hstart hfirst hfile h₀, Legacy.hookit_scans hlstart hlfirst⟩

/-! ### A call of `cfv_quote`, a word of data and an instruction -/

def quoteGap (a : Int) : Option Insn :=
  if a = 0x1000 then some (blTo 0x1000 0x900) else if a = 0x1008 then some (.other 0) else none

def quoteGapImage : Image where
  size := 12
  insnAt a := (quoteGap a).map (capstone a)
  address_eq a i h := by
    obtain ⟨insn, -, rfl⟩ := Option.map_eq_some_iff.mp h
    exact capstone_address a insn

theorem scans_text_gap : Ve.ScansText (sampleOpts 3) quoteGapImage quoteGap (sampleStart [symY]) ∧
    Legacy.ScansText (Legacy.textOf 8) Legacy.nopRet Legacy.nopRetNop := by
  have hfile (a : Int) (ha : (quoteGap a).isSome = true) : a < 0x1000 + 12 := by
    unfold quoteGap at ha
    split at ha
    · omega
    · split at ha
      · omega
      · cases ha
  have h₀ : Ve.hookitStart (sampleOpts 3) quoteGapImage [symY] = .ok (sampleStart [symY]) := rfl
  exact scans_text (fun _ => rfl) (by decide) rfl hfile h₀ (by decide) rfl

/-- The instruction after the data is in the text, and the scan ends before
it. -/
theorem quote_ends_scan :
    Ve.hookitStart (sampleOpts 3) quoteGapImage [symY] = .ok (sampleStart [symY]) ∧
      ¬ ∃ n, ((step (sampleOpts 3) quoteGapImage)^[n] (sampleStart [symY])).mode = .finished ∧
        (visits (step (sampleOpts 3) quoteGapImage) (visited quoteGap) (sampleStart [symY])
          n).filter (fun a => a < (sampleOpts 3).textEnd) =
        decodedBelow (fun a => (quoteGap a).isSome) (sampleOpts 3).textStart
          (sectionWords (sampleOpts 3).textStart (sampleOpts 3).textEnd) := by
  refine ⟨rfl, ?_⟩
  rintro ⟨n, -, hvisits⟩
  have hword : 0x1008 ∈ decodedBelow (fun a => (quoteGap a).isSome) (sampleOpts 3).textStart
      (sectionWords (sampleOpts 3).textStart (sampleOpts 3).textEnd) := by decide +kernel
  rw [← hvisits] at hword
  obtain ⟨k, -, hk⟩ := mem_visits.mp (List.mem_of_mem_filter hword)
  have hnever : visited quoteGap ((step (sampleOpts 3) quoteGapImage)^[k] (sampleStart [symY])) ≠
      some 0x1008 := by
    refine run_settles (N := 4) (P := fun c => visited quoteGap c ≠ some 0x1008)
      (by decide +kernel) ?_ k
    decide +kernel
  exact hnever hk

end Oat
