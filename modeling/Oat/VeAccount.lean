import Oat.VeRun

/-!
# The accounts of the trace

One symbol of the trace for each conditional branch that is replayed, no
more and no fewer: `Accounted` says so of a run of `hookit`, on whatever
text and whatever trace. A symbol that is missing, foreign or left over
has to end the run with an error.

A missing symbol does (`step_cond_missing`): `next_branch` indexes past
the end. A foreign one is answered with `'e'`, which every handler turns
into a branch not taken (`step_cond_symbol`), and nothing looks at the
symbols that are left. `accounted_iff` says that these are the only two
ways in which the accounts go wrong.
-/

namespace Oat

namespace Ve

open A64

variable (opts : Opts) (img : Image) (fetch : Int → Option Insn)

/-! ## The accounts -/

def replaysCond (c : Conf) : Bool := (replayed opts fetch c).any fun p => p.2.isCondBranch

def condBranches (past : List Conf) : Nat := past.countP (replaysCond opts fetch)

/-- `hookit` gets to `bl cfv_quote`. -/
def reachesQuote (c : Conf) : Bool :=
  (dispatched opts fetch c).any fun p => p.2.calls p.1 opts.cfvQuote

/-- The symbol `next_branch` looks at. -/
def nextSymbol (c : Conf) : Option UInt8 := c.vars.trace.trace[c.vars.trace.idx]?

def isSymbol (symbol : UInt8) : Bool := symbol = symY ∨ symbol = symN

/-- The trace string of a configuration has been used up, one symbol for
each conditional branch of the run that led there, in order. -/
structure UsedUp (c₀ : Conf) (n : Nat) : Prop where
  symbols : ∀ symbol ∈ ((step opts img)^[n] c₀).vars.trace.trace, isSymbol symbol = true
  length : ((step opts img)^[n] c₀).vars.trace.trace.length
    = condBranches opts fetch (trail (step opts img) c₀ n)
  one_each : ∀ k < n, replaysCond opts fetch ((step opts img)^[k] c₀) = true →
    ((step opts img)^[k] c₀).vars.trace.idx = condBranches opts fetch (trail (step opts img) c₀ k)
      ∧ ((step opts img)^[k + 1] c₀).vars.trace.idx = ((step opts img)^[k] c₀).vars.trace.idx + 1

/-- The accounts of a run. Getting to `bl cfv_quote` means that nothing
has been raised before. -/
structure Accounted (c₀ : Conf) : Prop where
  quote : ∀ n, reachesQuote opts fetch ((step opts img)^[n] c₀) = true →
    UsedUp opts img fetch c₀ n
  rejects : ∀ n, replaysCond opts fetch ((step opts img)^[n] c₀) = true →
    (nextSymbol ((step opts img)^[n] c₀)).any isSymbol = false →
    ∃ err, ((step opts img)^[n + 1] c₀).mode = .raised err
  leftOver : ∀ n, ((step opts img)^[n] c₀).mode = .finished →
    nextSymbol ((step opts img)^[n] c₀) = none

/-- Before a turn: no conditional branch is about to be asked about a
foreign symbol, and neither the quote nor the end comes with symbols
left. -/
def TraceFits (c : Conf) : Prop :=
  (replaysCond opts fetch c = true → (nextSymbol c).all isSymbol = true)
    ∧ (reachesQuote opts fetch c = true ∨ c.mode = .finished → nextSymbol c = none)

instance (c : Conf) : Decidable (TraceFits opts fetch c) :=
  inferInstanceAs (Decidable (_ ∧ _))

variable {opts img fetch}

/-! ## One turn -/

theorem replaysCond_eq_true {c : Conf} : replaysCond opts fetch c = true
    ↔ ∃ a insn, replayed opts fetch c = some (a, insn) ∧ insn.isCondBranch = true := by
  simp [replaysCond, Option.any_eq_true]

theorem step_trace_quiet (hdis : Disassembles img fetch) {c : Conf}
    (h : replaysCond opts fetch c = false) : (step opts img c).vars.trace = c.vars.trace := by
  cases hd : dispatched opts fetch c with
  | none => exact (step_quiet hdis hd).trace
  | some p =>
      obtain ⟨g, insn⟩ := p
      rw [step_dispatched hdis hd]
      cases hres : dispatch opts (capstone g insn) (c.vars.enter g) with
      | error err => rfl
      | ok r =>
          obtain ⟨flow, s'⟩ := r
          simp only
          have htrace := (dispatch_ok hres).trace
          have hquiet : ¬ ((c.vars.enter g).replayStart = true ∧ insn.isCondBranch = true) := by
            rintro ⟨hs, hc⟩
            have hrep : replayed opts fetch c = some (g, insn) := replayed_eq_some.mpr ⟨hs, hd⟩
            simp [replaysCond, hrep, hc] at h
          rw [(afterFlow_keeps g s' flow).trace]
          rw [if_neg hquiet] at htrace
          exact htrace

/-- Past the end of the trace the `print` of `next_branch` raises. -/
theorem step_cond_missing (hdis : Disassembles img fetch) {c : Conf}
    (h : replaysCond opts fetch c = true) (hsym : nextSymbol c = none) :
    (step opts img c).mode = .raised .indexError := by
  obtain ⟨a, insn, hrep, hc⟩ := replaysCond_eq_true.mp h
  obtain ⟨hs, hd⟩ := replayed_eq_some.mp hrep
  have hs' : (c.vars.enter a).replayStart = true := hs
  have hend : (c.vars.enter a).trace.nextBranch = .error .indexError :=
    ExecutionTrace.nextBranch_end hsym
  rw [step_dispatched hdis hd, dispatch_condBranch hc hs', hend]
  rfl

theorem afterFor_not_raised {s : Replay} (hi : s.i ≠ none) (err : PyError) :
    (afterFor opts img s).mode ≠ .raised err := by
  unfold afterFor
  rw [if_neg fun h => hi h.2]
  simp only
  repeat' split
  all_goals simp

theorem afterFlow_not_raised {s : Replay} (hi : s.i ≠ none) (g : Int) (flow : Flow)
    (err : PyError) : (afterFlow opts img g s flow).mode ≠ .raised err := by
  cases flow with
  | cont => simp [afterFlow]
  | brk => exact afterFor_not_raised hi err
  | pass =>
      by_cases hend : opts.textEnd ≤ g ∨ s.taken = true
      · rw [afterFlow, if_pos hend]
        exact afterFor_not_raised hi err
      · rw [afterFlow, if_neg hend]
        simp

theorem classify_eq_e {symbol : UInt8} :
    ExecutionTrace.classify symbol = .e ↔ isSymbol symbol = false := by
  simp only [ExecutionTrace.classify, isSymbol, decide_eq_false_iff_not, not_or]
  split
  · simp_all
  · split <;> simp_all

/-- Where there is a symbol the run goes on, whatever it is; only `'y'`
and `'n'` are used up. -/
theorem step_cond_symbol (hdis : Disassembles img fetch) {c : Conf} {symbol : UInt8}
    (h : replaysCond opts fetch c = true) (hsym : nextSymbol c = some symbol) :
    (step opts img c).vars.trace
        = { c.vars.trace with
            idx := if isSymbol symbol then c.vars.trace.idx + 1 else c.vars.trace.idx }
      ∧ ∀ err, (step opts img c).mode ≠ .raised err := by
  obtain ⟨a, insn, hrep, hc⟩ := replaysCond_eq_true.mp h
  obtain ⟨hs, hd⟩ := replayed_eq_some.mp hrep
  have hs' : (c.vars.enter a).replayStart = true := hs
  have hnb := ExecutionTrace.nextBranch_symbol (t := (c.vars.enter a).trace) hsym
  rw [step_dispatched hdis hd, dispatch_condBranch hc hs', hnb]
  simp only [bind, Except.bind]
  refine ⟨?_, fun err => afterFlow_not_raised ?_ a _ err⟩
  · rw [(afterFlow_keeps ..).trace, (branchOn_keeps ..).2.2]
    cases hok : isSymbol symbol with
    | true =>
        have hne : ExecutionTrace.classify symbol ≠ .e := by simp [classify_eq_e, hok]
        simp only [if_neg hne, if_true]
        rfl
    | false =>
        simp only [if_pos (classify_eq_e.mpr hok), Bool.false_eq_true, if_false]
        rfl
  · rw [(branchOn_keeps ..).1]
    simp [Replay.enter, Replay.move]

/-! ## A run -/

variable (opts fetch) in
/-- What has been used of the trace: as many symbols as conditional
branches. -/
def Account (past : List Conf) (c : Conf) : Prop :=
  (∃ err, c.mode = .raised err)
    ∨ (c.vars.trace.idx = condBranches opts fetch past
      ∧ c.vars.trace.idx ≤ c.vars.trace.trace.length
      ∧ ∀ symbol ∈ c.vars.trace.trace.take c.vars.trace.idx, isSymbol symbol = true)

theorem condBranches_concat (past : List Conf) (c : Conf) :
    condBranches opts fetch (past ++ [c])
      = condBranches opts fetch past + if replaysCond opts fetch c then 1 else 0 := by
  simp [condBranches, List.countP_append, List.countP_cons]

/-- **Step**: a turn that fits keeps the account. -/
theorem account_step (hdis : Disassembles img fetch) {past : List Conf} {c : Conf}
    (h : Account opts fetch past c)
    (hfits : replaysCond opts fetch c = true → (nextSymbol c).all isSymbol = true) :
    Account opts fetch (past ++ [c]) (step opts img c) := by
  rcases h with ⟨err, herr⟩ | ⟨hidx, hle, hused⟩
  · refine Or.inl ⟨err, ?_⟩
    rw [step_raised herr]
    exact herr
  · cases hcond : replaysCond opts fetch c with
    | false =>
        refine Or.inr ?_
        rw [step_trace_quiet hdis hcond, condBranches_concat, hcond]
        exact ⟨hidx, hle, hused⟩
    | true =>
        cases hsym : nextSymbol c with
        | none => exact Or.inl ⟨_, step_cond_missing hdis hcond hsym⟩
        | some symbol =>
            have hok : isSymbol symbol = true := by simpa [hsym] using hfits hcond
            have hget : c.vars.trace.trace[c.vars.trace.idx]? = some symbol := hsym
            refine Or.inr ?_
            rw [(step_cond_symbol hdis hcond hsym).1, condBranches_concat, hcond, hok]
            refine ⟨congrArg (· + 1) hidx, (List.getElem?_eq_some_iff.mp hget).1,
              fun b hb => ?_⟩
            simp only [if_true] at hb
            rw [List.take_add_one, hget, List.mem_append] at hb
            rcases hb with hb | hb
            · exact hused b hb
            · rw [List.mem_singleton.mp hb]
              exact hok

/-- **Run**: the account is right as long as no foreign symbol is met. -/
theorem account_run (hdis : Disassembles img fetch) {c₀ : Conf} (h₀ : c₀.vars.trace.idx = 0)
    (hfits : ∀ n, replaysCond opts fetch ((step opts img)^[n] c₀) = true →
      (nextSymbol ((step opts img)^[n] c₀)).all isSymbol = true) (n : Nat) :
    Account opts fetch (trail (step opts img) c₀ n) ((step opts img)^[n] c₀) := by
  induction n with
  | zero => exact Or.inr ⟨h₀, by simp [h₀], by simp [h₀]⟩
  | succ n ih =>
      rw [trail_succ, Function.iterate_succ_apply']
      exact account_step hdis ih (hfits n)

/-! ## When the accounts are right -/

theorem dispatched_not_raised {c : Conf} {p : Int × Insn} (h : dispatched opts fetch c = some p) :
    ¬ ∃ err, c.mode = .raised err := by
  rintro ⟨err, herr⟩
  simp [dispatched, herr] at h

theorem replaysCond_not_raised {c : Conf} (h : replaysCond opts fetch c = true) :
    ¬ ∃ err, c.mode = .raised err := by
  obtain ⟨a, insn, hrep, -⟩ := replaysCond_eq_true.mp h
  exact dispatched_not_raised (replayed_eq_some.mp hrep).2

theorem reachesQuote_not_raised {c : Conf} (h : reachesQuote opts fetch c = true) :
    ¬ ∃ err, c.mode = .raised err := by
  cases hd : dispatched opts fetch c with
  | none => simp [reachesQuote, hd] at h
  | some p => exact dispatched_not_raised hd

theorem raised_stays {c₀ : Conf} {k n : Nat} (hkn : k ≤ n)
    (h : ∃ err, ((step opts img)^[k] c₀).mode = .raised err) :
    ∃ err, ((step opts img)^[n] c₀).mode = .raised err := by
  obtain ⟨err, herr⟩ := h
  obtain ⟨m, rfl⟩ := Nat.exists_eq_add_of_le' hkn
  refine ⟨err, ?_⟩
  rw [Function.iterate_add_apply, Function.iterate_fixed (step_raised herr)]
  exact herr

/-- While the account is right, a quote that comes with no symbol left
comes with the trace used up. -/
theorem usedUp_of_account (hdis : Disassembles img fetch) {c₀ : Conf} {n : Nat}
    (haccount : ∀ k ≤ n, Account opts fetch (trail (step opts img) c₀ k) ((step opts img)^[k] c₀))
    (hq : reachesQuote opts fetch ((step opts img)^[n] c₀) = true)
    (hfits : ∀ k < n, replaysCond opts fetch ((step opts img)^[k] c₀) = true →
      (nextSymbol ((step opts img)^[k] c₀)).all isSymbol = true)
    (hnone : nextSymbol ((step opts img)^[n] c₀) = none) : UsedUp opts img fetch c₀ n := by
  obtain ⟨hidx, hle, hused⟩ := (haccount n (Nat.le_refl n)).resolve_left (reachesQuote_not_raised hq)
  have hlength : ((step opts img)^[n] c₀).vars.trace.trace.length
      ≤ ((step opts img)^[n] c₀).vars.trace.idx := List.getElem?_eq_none_iff.mp hnone
  refine ⟨fun b hb => hused b ?_, by omega, ?_⟩
  · rw [List.take_of_length_le hlength]
    exact hb
  · intro k hk hcond
    refine ⟨((haccount k (Nat.le_of_lt hk)).resolve_left (replaysCond_not_raised hcond)).1, ?_⟩
    cases hsym : nextSymbol ((step opts img)^[k] c₀) with
    | none =>
        have hraised : ((step opts img)^[k + 1] c₀).mode = .raised .indexError := by
          rw [Function.iterate_succ_apply']
          exact step_cond_missing hdis hcond hsym
        exact absurd (raised_stays hk ⟨_, hraised⟩) (reachesQuote_not_raised hq)
    | some symbol =>
        have hok : isSymbol symbol = true := by simpa [hsym] using hfits k hk hcond
        rw [Function.iterate_succ_apply', (step_cond_symbol hdis hcond hsym).1, hok]
        rfl

/-- For every text and every trace file: the accounts of the run are
right exactly when no conditional branch meets a foreign symbol and none
is left at the quote or at the end. -/
theorem accounted_iff (hdis : Disassembles img fetch) {file : List UInt8} {c₀ : Conf}
    (h₀ : hookitStart opts img file = .ok c₀) :
    Accounted opts img fetch c₀ ↔ ∀ n, TraceFits opts fetch ((step opts img)^[n] c₀) := by
  have hzero : c₀.vars.trace.idx = 0 := by
    obtain ⟨-, symbols, rfl⟩ := hookitStart_ok h₀
    rfl
  constructor
  · intro h
    have hfits : ∀ n, replaysCond opts fetch ((step opts img)^[n] c₀) = true →
        (nextSymbol ((step opts img)^[n] c₀)).all isSymbol = true := by
      intro n hcond
      cases hsym : nextSymbol ((step opts img)^[n] c₀) with
      | none => rfl
      | some symbol =>
          by_contra hforeign
          obtain ⟨err, herr⟩ := h.rejects n hcond (by simpa [hsym] using hforeign)
          rw [Function.iterate_succ_apply'] at herr
          exact (step_cond_symbol hdis hcond hsym).2 err herr
    refine fun n => ⟨hfits n, ?_⟩
    rintro (hq | hfinished)
    · obtain ⟨hidx, -, -⟩ :=
        (account_run hdis hzero hfits n).resolve_left (reachesQuote_not_raised hq)
      have hlength := (h.quote n hq).length
      exact List.getElem?_eq_none (by omega)
    · exact h.leftOver n hfinished
  · intro h
    have haccount := account_run hdis hzero fun n => (h n).1
    refine ⟨?_, ?_, ?_⟩
    · intro n hq
      exact usedUp_of_account hdis (fun k _ => haccount k) hq (fun k _ => (h k).1)
        ((h n).2 (Or.inl hq))
    · intro n hcond hforeign
      cases hsym : nextSymbol ((step opts img)^[n] c₀) with
      | none =>
          rw [Function.iterate_succ_apply']
          exact ⟨_, step_cond_missing hdis hcond hsym⟩
      | some symbol =>
          have hok := (h n).1 hcond
          rw [hsym] at hok hforeign
          simp_all
    · intro n hfinished
      exact (h n).2 (Or.inr hfinished)

def cbzOver : List Insn :=
  [blTo 0x1000 0x800, .cbz true 2 x0, .other 0, blTo 0x100c 0x900]

/-- The trace `"y"` accounts for the run. -/
theorem accounted_iff_sample :
    Accounted (sampleOpts 4) (imageOf 0x1000 cbzOver) (programAt 0x1000 cbzOver)
      (sampleStart [symY]) := by
  have h₀ : hookitStart (sampleOpts 4) (imageOf 0x1000 cbzOver) [symY]
      = .ok (sampleStart [symY]) := rfl
  refine (accounted_iff (imageOf_disassembles 0x1000 cbzOver) h₀).mpr
    (run_settles (N := 12) (by decide +kernel) ?_)
  decide +kernel

/-- The trace `"x"` is followed as not taken, and of the trace `"yn"` the
`'n'` is left over at the quote. -/
theorem symbols_unaccounted :
    ¬ Accounted (sampleOpts 4) (imageOf 0x1000 cbzOver) (programAt 0x1000 cbzOver)
        (sampleStart ['x'.toUInt8])
      ∧ ¬ Accounted (sampleOpts 4) (imageOf 0x1000 cbzOver) (programAt 0x1000 cbzOver)
        (sampleStart [symY, symN]) := by
  refine ⟨?_, ?_⟩
  · intro h
    obtain ⟨err, herr⟩ := h.rejects 2 (by decide +kernel) (by decide +kernel)
    have hmode : ((step (sampleOpts 4) (imageOf 0x1000 cbzOver))^[3]
        (sampleStart ['x'.toUInt8])).mode = .scan 0x1008 := by decide +kernel
    rw [hmode] at herr
    cases herr
  · intro h
    have hlength := (h.quote 4 (by decide +kernel)).length
    revert hlength
    decide +kernel

end Ve

end Oat
