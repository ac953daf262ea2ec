import Mathlib.Data.Set.Finite.Lattice
import Oat.VeGraph

/-!
# `hookit` stops

When every turn keeps to the graph, and each cycle of the graph contains a
conditional branch, the run ends (`hookit_halts`). It has three stretches,
each with a measure of its own: up to `bl cfv_init` (`Idle`), where the
addresses grow; the replay (`Here`), where the symbols of the trace get
fewer, and between two of them the graph ends; and from `bl cfv_quote`
(`Quits`) to the end of the text.
-/

namespace Oat

namespace Ve

open A64 CallGraph

variable {opts : Opts} {img : Image} {fetch : Int → Option Insn}

/-! ## After `bl cfv_quote` -/

variable (opts) in
/-- **Step**, after the quote: on to the next word, or to the end. -/
theorem quits_turn (hdis : Disassembles img fetch) {c : Conf} (h : Quits c) :
    Halted (step opts img c)
      ∨ Quits (step opts img c) ∧ scanAddress (step opts img c) = scanAddress c + 4
        ∧ (fetch (scanAddress c)).isSome = true := by
  obtain ⟨⟨g, hmode⟩, htaken, hstop⟩ := h
  have hscan : scanAddress c = g := by rw [scanAddress, hmode]; rfl
  rw [hscan]
  cases step_forTurn opts hdis hmode htaken with
  | halts h => exact Or.inl h
  | goes s hstep hpast hswitches hsome =>
      rw [hstep]
      exact Or.inr ⟨⟨⟨g + 4, rfl⟩, hpast.taken, hswitches.stop hstop⟩, rfl, hsome⟩
  | ends hstep =>
      rw [hstep]
      exact Or.inl (afterFor_stop hstop)
  | leaves s hstep _ hswitches =>
      rw [hstep]
      exact Or.inl (afterFor_stop (hswitches.stop hstop))

theorem quits_halts (hdis : Disassembles img fetch) {top : Int}
    (htop : ∀ a, (fetch a).isSome = true → a < top) {c : Conf} (h : Quits c) :
    ∃ c', Reaches (step opts img) c c' ∧ Halted c' := by
  refine reaches_of_measure wellFounded_lt (fun c => (top - scanAddress c).toNat)
    (I := Quits) (fun c hc => ⟨_, Reaches.single c, ?_⟩) c h
  rcases quits_turn opts hdis hc with hhalted | ⟨hquits, hnext, hsome⟩
  · exact Or.inl hhalted
  · have hlt := htop _ hsome
    exact Or.inr ⟨hquits, by omega⟩

/-! ## Before `bl cfv_init` -/

/-- Getting on before the start: within a turn of the `while` loop, or to
a later one. -/
def Later (opts : Opts) (fetch : Int → Option Insn) (c c' : Conf) : Prop :=
  (c.vars.currentAddress < c'.vars.currentAddress ∧ c'.vars.currentAddress < opts.textEnd)
    ∨ (c'.vars.currentAddress = c.vars.currentAddress ∧ scanAddress c' = scanAddress c + 4
      ∧ (fetch (scanAddress c)).isSome = true)

variable (opts) in
/-- **Step**, before the start. -/
theorem idle_turn (hdis : Disassembles img fetch) {c : Conf} (h : Idle c) :
    ∃ c', Reaches (step opts img) c c' ∧ ((Halted c' ∨ Quits c' ∨ ∃ a, Here opts fetch c' a)
      ∨ Idle c' ∧ Later opts fetch c c') := by
  obtain ⟨⟨g, hmode, hcurrent⟩, htaken, hoff, hgoing⟩ := h
  have hscan : scanAddress c = g := by rw [scanAddress, hmode]; rfl
  cases step_forTurn opts hdis hmode htaken with
  | halts h => exact ⟨_, Reaches.single c, Or.inl (Or.inl h)⟩
  | goes s hstep hpast hswitches hsome =>
      refine ⟨_, Reaches.single c, ?_⟩
      rw [hstep]
      cases hswitches with
      | same hstart hstop =>
          have hcurrent' : s.currentAddress ≤ g + 4 := by
            rw [hpast.current]
            omega
          refine Or.inr ⟨⟨⟨g + 4, rfl, hcurrent'⟩, hpast.taken, hstart.trans hoff,
            hstop.trans hgoing⟩, Or.inr ⟨hpast.current, ?_, hscan ▸ hsome⟩⟩
          rw [hscan]
          rfl
      | init hstart hstop =>
          exact Or.inl (Or.inr (Or.inr ⟨g + 4,
            here_next hpast hcurrent hsome hstart (hstop.trans hgoing)⟩))
      | quote hstop => exact Or.inl (Or.inr (Or.inl ⟨⟨g + 4, rfl⟩, hpast.taken, hstop⟩))
  | ends hstep =>
      have hreach : Reaches (step opts img) c (afterFor opts img c.vars) := by
        rw [← hstep]
        exact Reaches.single c
      rcases afterFor_restart opts img c.vars with hhalted | ⟨hlt, hrestart⟩
      · exact ⟨_, hreach, Or.inl (Or.inl hhalted)⟩
      · refine ⟨_, hreach.trans (Reaches.single _), Or.inr ?_⟩
        rw [hrestart]
        exact ⟨⟨⟨_, rfl, Int.le_refl _⟩, rfl, hoff, hgoing⟩, Or.inl ⟨lt_nextAddress htaken, hlt⟩⟩
  | leaves s _ hon _ =>
      rw [hoff] at hon
      cases hon

variable (opts) in
theorem idle_ends (hdis : Disassembles img fetch) {top : Int}
    (htop : ∀ a, (fetch a).isSome = true → a < top) {c : Conf} (h : Idle c) :
    ∃ c', Reaches (step opts img) c c' ∧ (Halted c' ∨ Quits c' ∨ ∃ a, Here opts fetch c' a) := by
  have hwf : WellFounded (Prod.Lex (fun m n : Nat => m < n) (fun m n : Nat => m < n)) :=
    WellFounded.prod_lex wellFounded_lt wellFounded_lt
  refine reaches_of_measure hwf (fun c => ((opts.textEnd - c.vars.currentAddress).toNat,
    (top - scanAddress c).toNat)) (I := Idle) (fun c hc => ?_) c h
  obtain ⟨c', hreach, hdone | ⟨hidle, hlater⟩⟩ := idle_turn opts hdis hc
  · exact ⟨c', hreach, Or.inl hdone⟩
  · refine ⟨c', hreach, Or.inr ⟨hidle, ?_⟩⟩
    rcases hlater with ⟨hlt, hend⟩ | ⟨hsame, hnext, hsome⟩
    · exact .left _ _ (by omega)
    · have hlt := htop _ hsome
      rw [hsame]
      exact .right _ (by omega)

/-! ## The run -/

/-- **Run**, of the replay: by the symbols left, and between two of them
by the graph. -/
theorem here_run (hdis : Disassembles img fetch)
    (hcycles : CyclesMeet (Direct opts fetch) (AtCond fetch))
    (hfinite : {a | (fetch a).isSome = true}.Finite) {c₀ : Conf}
    (hok : ∀ n, OnGraph opts fetch ((step opts img)^[n] c₀)) {c : Conf}
    (hreach : Reaches (step opts img) c₀ c) (h : ∃ a, Here opts fetch c a) :
    ∃ c', Reaches (step opts img) c c' ∧ (Halted c' ∨ Quits c') := by
  have hpoints : {a | ∃ m, Direct opts fetch a m}.Finite := by
    refine hfinite.subset fun a ha => ?_
    obtain ⟨m, insn, hfetch, -⟩ := ha
    have hsome : (fetch a).isSome = true := by rw [hfetch]; rfl
    exact hsome
  have hwf := WellFounded.prod_lex (wellFounded_lt (α := Nat)) (hcycles.wellFounded hpoints)
  refine reaches_of_measure hwf (fun c => (symbolsLeft c, (scanAddress c, c.vars.stack)))
    (I := fun c => Reaches (step opts img) c₀ c ∧ ∃ a, Here opts fetch c a)
    (fun c hc => ?_) c ⟨hreach, h⟩
  obtain ⟨hreach, a, hhere⟩ := hc
  have hgraph : OnGraph opts fetch c := by
    obtain ⟨n, rfl⟩ := hreach
    exact hok n
  obtain ⟨c', hreach', hdone | ⟨a', hhere', hcloser⟩⟩ := here_turn hdis hcycles hhere hgraph
  · exact ⟨c', hreach', Or.inl hdone⟩
  · refine ⟨c', hreach', Or.inr ⟨⟨hreach.trans hreach', a', hhere'⟩, ?_⟩⟩
    have ha : scanAddress c = a := by rw [scanAddress, hhere.mode]; rfl
    have ha' : scanAddress c' = a' := by rw [scanAddress, hhere'.mode]; rfl
    rw [ha, ha']
    rcases hcloser with hless | ⟨hsame, hruns⟩
    · exact .left _ _ hless
    · rw [hsame]
      exact .right _ hruns

/-- **Run**: for every trace, `hookit` stops, if each cycle of the direct
control flow contains a conditional branch and the replay keeps to it. -/
theorem hookit_halts (hdis : Disassembles img fetch)
    (hfinite : {a | (fetch a).isSome = true}.Finite)
    (hcycles : CyclesMeet (Direct opts fetch) (AtCond fetch)) {file : List UInt8} {c₀ : Conf}
    (h₀ : hookitStart opts img file = .ok c₀)
    (hok : ∀ n, OnGraph opts fetch ((step opts img)^[n] c₀)) :
    ∃ n, Halted ((step opts img)^[n] c₀) := by
  obtain ⟨top, htop⟩ := hfinite.bddAbove
  have hbelow : ∀ a, (fetch a).isSome = true → a < top + 1 := fun a ha => by
    have hle : a ≤ top := htop ha
    omega
  have hidle : Idle (step opts img c₀) := by
    obtain ⟨-, symbols, rfl⟩ := hookitStart_ok h₀
    exact ⟨⟨opts.textStart, rfl, Int.le_refl _⟩, rfl, rfl, rfl⟩
  obtain ⟨c₁, hreach₁, hnext⟩ := idle_ends opts hdis hbelow hidle
  have hreach₁ := (Reaches.single c₀).trans hreach₁
  have hquit : ∃ c₂, Reaches (step opts img) c₁ c₂ ∧ (Halted c₂ ∨ Quits c₂) := by
    rcases hnext with hhalted | hquits | hhere
    · exact ⟨c₁, Reaches.refl c₁, Or.inl hhalted⟩
    · exact ⟨c₁, Reaches.refl c₁, Or.inr hquits⟩
    · exact here_run hdis hcycles hfinite hok hreach₁ hhere
  obtain ⟨c₂, hreach₂, hhalted | hquits⟩ := hquit
  · obtain ⟨n, rfl⟩ := hreach₁.trans hreach₂
    exact ⟨n, hhalted⟩
  · obtain ⟨c₃, hreach₃, hhalted⟩ := quits_halts hdis hbelow hquits
    obtain ⟨n, rfl⟩ := (hreach₁.trans hreach₂).trans hreach₃
    exact ⟨n, hhalted⟩

/-! ## A loop that polls -/

theorem programAt_eq_some {base a : Int} {insns : List Insn} {insn : Insn}
    (h : programAt base insns a = some insn) :
    ∃ k : Nat, a = base + 4 * k ∧ insns[k]? = some insn := by
  unfold programAt at h
  split at h
  · exact ⟨((a - base) / 4).toNat, by omega, h⟩
  · cases h

theorem programAt_finite (base : Int) (insns : List Insn) :
    {a | (programAt base insns a).isSome = true}.Finite := by
  refine ((List.range insns.length).map fun k : Nat => base + 4 * (k : Int)).finite_toSet.subset
    fun a ha => ?_
  obtain ⟨insn, hinsn⟩ := Option.isSome_iff_exists.mp ha
  obtain ⟨k, rfl, hk⟩ := programAt_eq_some hinsn
  have hlt := (List.getElem?_eq_some_iff.mp hk).1
  exact List.mem_map.mpr ⟨k, List.mem_range.mpr hlt, rfl⟩

/-- A CBZ that is asked again until it is taken. -/
def pollLoop : List Insn :=
  [blTo 0x1000 0x800, .cbz true 2 x0, .b (BitVec.ofInt 26 (-1)), blTo 0x100c 0x900]

/-- Between conditional branches it only leads to the CBZ and past the
end. -/
theorem pollLoop_runs {c c' : Int × List Int}
    (h : Runs (Direct (sampleOpts 4) (programAt 0x1000 pollLoop))
      (AtCond (programAt 0x1000 pollLoop)) c c') :
    (c.1 = 0x1000 ∨ c.1 = 0x1008 ∨ c.1 = 0x100c) ∧ (c'.1 = 0x1004 ∨ c'.1 = 0x1010) := by
  have hmoves : ∀ a m, Direct (sampleOpts 4) (programAt 0x1000 pollLoop) a m →
      ¬ AtCond (programAt 0x1000 pollLoop) a →
      (a, m) ∈ [((0x1000 : Int), Move.jump (0x1004 : Int)), (0x1008, .jump 0x1004),
        (0x100c, .jump 0x1010)] := by
    rintro a m ⟨insn, hfetch, hm⟩ hplain
    obtain ⟨k, rfl, hk⟩ := programAt_eq_some hfetch
    have hlt : k < 4 := (List.getElem?_eq_some_iff.mp hk).1
    obtain rfl | rfl | rfl | rfl : k = 0 ∨ k = 1 ∨ k = 2 ∨ k = 3 := by omega
    · obtain rfl := Option.some.inj hk
      obtain rfl := List.mem_singleton.mp hm
      decide
    · exact absurd ⟨insn, hfetch, by obtain rfl := Option.some.inj hk; rfl⟩ hplain
    · obtain rfl := Option.some.inj hk
      obtain rfl := List.mem_singleton.mp hm
      decide
    · obtain rfl := Option.some.inj hk
      obtain rfl := List.mem_singleton.mp hm
      decide
  obtain ⟨hstep, hplain⟩ := h
  cases hstep with
  | jump hm =>
      have hcases := hmoves _ _ hm hplain
      simp only [List.mem_cons, Prod.mk.injEq, Move.jump.injEq, List.not_mem_nil, or_false]
        at hcases
      dsimp only
      omega
  | call hm => simpa using hmoves _ _ hm hplain
  | ret hm => simpa using hmoves _ _ hm hplain

theorem pollLoop_cycles : CyclesMeet (Direct (sampleOpts 4) (programAt 0x1000 pollLoop))
    (AtCond (programAt 0x1000 pollLoop)) := by
  intro p w hpath
  have hsource : p = 0x1000 ∨ p = 0x1008 ∨ p = 0x100c := by
    obtain ⟨c, hrun, -⟩ := Relation.TransGen.head'_iff.mp hpath
    exact (pollLoop_runs hrun).1
  have hend : p = 0x1004 ∨ p = 0x1010 := by
    obtain ⟨c, -, hrun⟩ := Relation.TransGen.tail'_iff.mp hpath
    exact (pollLoop_runs hrun).2
  omega

theorem hookit_halts_pollLoop : ∃ n, Halted
    ((step (sampleOpts 4) (imageOf 0x1000 pollLoop))^[n] (sampleStart [symN, symN, symY])) := by
  have h₀ : hookitStart (sampleOpts 4) (imageOf 0x1000 pollLoop) [symN, symN, symY]
      = .ok (sampleStart [symN, symN, symY]) := rfl
  refine hookit_halts (imageOf_disassembles 0x1000 pollLoop) (programAt_finite 0x1000 pollLoop)
    pollLoop_cycles h₀ (run_settles (N := 20) (by decide +kernel) ?_)
  decide +kernel

/-- The loop, on the trace `"x"`, with what has been written. -/
def polling (lines : List Line) (mode : Mode) (prev i : Int) (taken : Bool) : Conf :=
  ⟨⟨true, false, taken, 0x1004, ⟨0, ['x'.toUInt8]⟩, [], lines, Flags.init, 0x1004, prev, some i⟩,
    mode⟩

/-- The answer to the CBZ is never `'y'`, and the symbol is never used
up. -/
def Polls (c : Conf) : Prop :=
  ∃ lines, c = polling lines (.scan 0x1004) 0x1008 0x1008 false
    ∨ c = polling lines (.scan 0x1008) 0x1004 0x1004 false
    ∨ c = polling lines .outer 0x1008 0x1008 true

theorem polls_step {c : Conf} (h : Polls c) :
    Polls (step (sampleOpts 4) (imageOf 0x1000 pollLoop) c) := by
  obtain ⟨lines, rfl | rfl | rfl⟩ := h
  · exact ⟨lines ++ [.cbz 0x1004 none], Or.inr (Or.inl rfl)⟩
  · exact ⟨lines ++ [.b 0x1008 (some 0x1004)], Or.inr (Or.inr rfl)⟩
  · exact ⟨lines, Or.inl rfl⟩

theorem Polls.not_halted {c : Conf} (h : Polls c) : ¬ Halted c := by
  obtain ⟨lines, rfl | rfl | rfl⟩ := h <;>
  · rintro (hfinished | ⟨err, hraised⟩)
    · cases hfinished
    · cases hraised

/-- On the trace `"x"` it polls for ever. -/
theorem pollLoop_runs_on :
    hookitStart (sampleOpts 4) (imageOf 0x1000 pollLoop) ['x'.toUInt8]
        = .ok (sampleStart ['x'.toUInt8])
      ∧ {a | (programAt 0x1000 pollLoop a).isSome = true}.Finite
      ∧ CyclesMeet (Direct (sampleOpts 4) (programAt 0x1000 pollLoop))
        (AtCond (programAt 0x1000 pollLoop))
      ∧ ∀ n, ¬ Halted ((step (sampleOpts 4) (imageOf 0x1000 pollLoop))^[n]
        (sampleStart ['x'.toUInt8])) := by
  refine ⟨rfl, programAt_finite 0x1000 pollLoop, pollLoop_cycles, fun n => ?_⟩
  have hstart : Polls ((step (sampleOpts 4) (imageOf 0x1000 pollLoop))^[5]
      (sampleStart ['x'.toUInt8])) := ⟨_, Or.inl rfl⟩
  intro hhalted
  -- what has halted stays as it is, but five turns on the loop has begun
  have hsame : (step (sampleOpts 4) (imageOf 0x1000 pollLoop))^[n + 5] (sampleStart ['x'.toUInt8])
      = (step (sampleOpts 4) (imageOf 0x1000 pollLoop))^[n] (sampleStart ['x'.toUInt8]) := by
    rw [Nat.add_comm, Function.iterate_add_apply, Function.iterate_fixed (step_halted hhalted)]
  rw [← hsame, Function.iterate_add_apply] at hhalted
  exact (run_inv hstart (fun c hc => polls_step hc) n).not_halted hhalted

end Ve

end Oat
