import Oat.FoldRun
import Oat.StepRun
import Oat.VeDisasm

/-!
# Runs of `hookit`

A configuration *dispatches* an instruction when its turn gets past the
duplicate and the omit test, and *replays* it when moreover the replay
is on. `step_dispatched` and `step_quiet` are the two kinds of turns;
`dispatch_ok` says what a turn does to the flags and to the trace. The
stream of replayed instructions is read off the trail of a run
(`replayedStream`).
-/

namespace Oat

namespace Ve

open A64

variable (opts : Opts) (img : Image) (fetch : Int → Option Insn)

/-! ## Programs -/

/-- The instructions of a list, laid out from `base`. -/
def programAt (base : Int) (insns : List Insn) (a : Int) : Option Insn :=
  if base ≤ a ∧ (a - base) % 4 = 0 then insns[((a - base) / 4).toNat]? else none

/-- A file that holds them and nothing else. -/
def imageOf (base : Int) (insns : List Insn) : Image where
  size := 4 * insns.length
  insnAt a := (programAt base insns a).map (capstone a)
  address_eq a i h := by
    obtain ⟨insn, -, rfl⟩ := Option.map_eq_some_iff.mp h
    exact capstone_address a insn

theorem imageOf_disassembles (base : Int) (insns : List Insn) :
    Disassembles (imageOf base insns) (programAt base insns) := fun _ => rfl

def sampleOpts (n : Nat) : Opts := ⟨0x1000, 0x1000, 0x1000 + 4 * n, 0x800, 0x900, []⟩

def blTo (a t : Int) : Insn := .bl (BitVec.ofInt 26 ((t - a) / 4))

def sampleStart (trace : List UInt8) : Conf := ⟨Replay.init ⟨0, trace⟩ 0x1000, .outer⟩

/-! ## Turns -/

/-- The instruction a turn dispatches, with its address. -/
def dispatched (c : Conf) : Option (Int × Insn) :=
  match c.mode with
  | .scan g =>
      if g = c.vars.prevAddress ∨ g ∈ opts.omitAddresses then none
      else (fetch g).map fun insn => (g, insn)
  | _ => none

/-- The instruction a turn replays. -/
def replayed (c : Conf) : Option (Int × Insn) :=
  if c.vars.replayStart then dispatched opts fetch c else none

/-- The instructions a run has replayed so far. -/
def replayedStream (past : List Conf) : List Insn :=
  past.filterMap fun c => (replayed opts fetch c).map (·.2)

/-- The loop variable and `prev_address`, set. -/
def Replay.move (s : Replay) (i : Option Int) (prev : Int) : Replay :=
  { s with i := i, prevAddress := prev }

/-- The variables once an instruction is past the duplicate test. -/
def Replay.enter (s : Replay) (a : Int) : Replay := s.move (some a) a

/-- What follows a case of the dispatch. -/
def afterFlow (g : Int) (s : Replay) : Flow → Conf
  | .cont => ⟨s, .scan (g + 4)⟩
  | .brk => afterFor opts img s
  | .pass =>
      if opts.textEnd ≤ g ∨ s.taken = true then afterFor opts img s else ⟨s, .scan (g + 4)⟩

/-- The part of the variables that only a dispatch changes. -/
structure Keeps (s s' : Replay) : Prop where
  replayStart : s'.replayStart = s.replayStart
  replayStop : s'.replayStop = s.replayStop
  trace : s'.trace = s.trace
  stack : s'.stack = s.stack
  ofd : s'.ofd = s.ofd
  flags : s'.flags = s.flags

variable {opts img fetch}

theorem Keeps.refl (s : Replay) : Keeps s s := ⟨rfl, rfl, rfl, rfl, rfl, rfl⟩

theorem move_keeps (s : Replay) (i : Option Int) (prev : Int) : Keeps s (s.move i prev) :=
  ⟨rfl, rfl, rfl, rfl, rfl, rfl⟩

theorem afterFor_keeps (s : Replay) : Keeps s (afterFor opts img s).vars := by
  unfold afterFor
  split <;> exact ⟨rfl, rfl, rfl, rfl, rfl, rfl⟩

theorem Keeps.trans {s₁ s₂ s₃ : Replay} (h₁ : Keeps s₁ s₂) (h₂ : Keeps s₂ s₃) : Keeps s₁ s₃ :=
  ⟨h₂.replayStart.trans h₁.replayStart, h₂.replayStop.trans h₁.replayStop,
    h₂.trace.trans h₁.trace, h₂.stack.trans h₁.stack, h₂.ofd.trans h₁.ofd,
    h₂.flags.trans h₁.flags⟩

theorem afterFlow_keeps (g : Int) (s : Replay) (flow : Flow) :
    Keeps s (afterFlow opts img g s flow).vars := by
  cases flow with
  | cont => exact Keeps.refl s
  | brk => exact afterFor_keeps s
  | pass =>
      by_cases hend : opts.textEnd ≤ g ∨ s.taken = true
      · rw [afterFlow, if_pos hend]
        exact afterFor_keeps s
      · rw [afterFlow, if_neg hend]
        exact Keeps.refl s

theorem replayed_eq_some {c : Conf} {p : Int × Insn} :
    replayed opts fetch c = some p
      ↔ c.vars.replayStart = true ∧ dispatched opts fetch c = some p := by
  unfold replayed
  cases c.vars.replayStart <;> simp

theorem dispatched_mode {c : Conf} {g : Int} {insn : Insn}
    (h : dispatched opts fetch c = some (g, insn)) :
    c.mode = .scan g ∧ g ≠ c.vars.prevAddress ∧ g ∉ opts.omitAddresses ∧ fetch g = some insn := by
  obtain ⟨vars, mode⟩ := c
  cases mode with
  | scan g' =>
      simp only [dispatched] at h
      split at h
      · cases h
      · rename_i hnew
        obtain ⟨insn', hfetch, hpair⟩ := Option.map_eq_some_iff.mp h
        obtain ⟨rfl, rfl⟩ := Prod.mk.inj hpair
        obtain ⟨hprev, homit⟩ := not_or.mp hnew
        exact ⟨rfl, hprev, homit, hfetch⟩
  | _ => cases h

/-- A turn that dispatches. -/
theorem step_dispatched (hdis : Disassembles img fetch) {c : Conf} {g : Int} {insn : Insn}
    (h : dispatched opts fetch c = some (g, insn)) :
    step opts img c = match dispatch opts (capstone g insn) (c.vars.enter g) with
      | .error err => ⟨c.vars, .raised err⟩
      | .ok (flow, s) => afterFlow opts img g s flow := by
  obtain ⟨hmode, hprev, homit, hfetch⟩ := dispatched_mode h
  have hinsn : img.insnAt g = some (capstone g insn) := by rw [hdis g, hfetch]; rfl
  have hbody : forBody opts (capstone g insn) c.vars
      = dispatch opts (capstone g insn) (c.vars.enter g) >>= fun r =>
        match r.1 with
        | .cont => .ok (false, r.2)
        | .brk => .ok (true, r.2)
        | .pass => .ok (decide (opts.textEnd ≤ g) || r.2.taken, r.2) := by
    simp only [forBody, capstone_address, hprev, homit, if_false, pastEnd, Replay.enter]
    rfl
  simp only [step, hmode, hinsn, hbody]
  cases dispatch opts (capstone g insn) (c.vars.enter g) with
  | error err => rfl
  | ok r =>
      obtain ⟨flow, s⟩ := r
      cases flow with
      | cont => rfl
      | brk => rfl
      | pass =>
          simp only [bind, Except.bind, afterFlow]
          by_cases hend : opts.textEnd ≤ g ∨ s.taken = true
          · have hb : (decide (opts.textEnd ≤ g) || s.taken) = true := by simpa using hend
            simp only [hb, if_pos hend]
          · have hb : (decide (opts.textEnd ≤ g) || s.taken) = false := by simpa using hend
            simp only [hb, if_neg hend]

/-- A turn of the `for` loop that does not dispatch: nothing is
disassembled, or a duplicate, or the address is omitted. -/
theorem step_skipped (hdis : Disassembles img fetch) {c : Conf} {g : Int}
    (hmode : c.mode = .scan g) (h : dispatched opts fetch c = none) :
    (fetch g = none ∧ step opts img c = afterFor opts img c.vars)
      ∨ ((fetch g).isSome = true ∧ g = c.vars.prevAddress
        ∧ step opts img c = ⟨c.vars.move (some g) c.vars.prevAddress, .scan (g + 4)⟩)
      ∨ ((fetch g).isSome = true ∧ (g ≠ c.vars.prevAddress ∧ g ∈ opts.omitAddresses)
        ∧ step opts img c = if opts.textEnd ≤ g then afterFor opts img (c.vars.enter g)
          else ⟨c.vars.enter g, .scan (g + 4)⟩) := by
  cases hfetch : fetch g with
  | none =>
      have hinsn : img.insnAt g = none := by rw [hdis g, hfetch]; rfl
      exact Or.inl ⟨rfl, by simp only [step, hmode, hinsn]⟩
  | some insn =>
      have hinsn : img.insnAt g = some (capstone g insn) := by rw [hdis g, hfetch]; rfl
      have hskip : g = c.vars.prevAddress ∨ g ∈ opts.omitAddresses := by
        by_contra hnew
        simp only [dispatched, hmode, if_neg hnew, hfetch] at h
        cases h
      by_cases hprev : g = c.vars.prevAddress
      · refine Or.inr (Or.inl ⟨rfl, hprev, ?_⟩)
        simp only [step, hmode, hinsn, forBody, capstone_address, if_pos hprev]
        rfl
      · have homit := hskip.resolve_left hprev
        have hbody : forBody opts (capstone g insn) c.vars
            = .ok (decide (opts.textEnd ≤ g), c.vars.enter g) := by
          simp only [forBody, capstone_address, if_neg hprev, if_pos homit, pastEnd]
          rfl
        refine Or.inr (Or.inr ⟨rfl, ⟨hprev, homit⟩, ?_⟩)
        simp only [step, hmode, hinsn, hbody]
        by_cases hend : opts.textEnd ≤ g
        · simp only [hend, decide_true, if_true]
        · simp only [hend, decide_false, if_false]

/-- It changes the loop variable and `prev_address` at most, and then
goes on or ends. -/
theorem step_undispatched (hdis : Disassembles img fetch) {c : Conf} {g : Int}
    (hmode : c.mode = .scan g) (h : dispatched opts fetch c = none) :
    ∃ i prev, step opts img c = afterFor opts img (c.vars.move i prev)
      ∨ step opts img c = ⟨c.vars.move i prev, .scan (g + 4)⟩ := by
  rcases step_skipped hdis hmode h with ⟨-, hstep⟩ | ⟨-, -, hstep⟩ | ⟨-, -, hstep⟩
  · exact ⟨c.vars.i, c.vars.prevAddress, Or.inl hstep⟩
  · exact ⟨some g, c.vars.prevAddress, Or.inr hstep⟩
  · refine ⟨some g, g, ?_⟩
    split at hstep
    · exact Or.inl hstep
    · exact Or.inr hstep

theorem step_finished {c : Conf} (h : c.mode = .finished) : step opts img c = c := by
  rw [step, h]

theorem step_raised {c : Conf} {err : PyError} (h : c.mode = .raised err) :
    step opts img c = c := by
  rw [step, h]

/-- `hookit` has returned, or an exception has left it. -/
def Halted (c : Conf) : Prop := c.mode = .finished ∨ ∃ err, c.mode = .raised err

theorem step_halted {c : Conf} (h : Halted c) : step opts img c = c := by
  rcases h with hfinished | ⟨err, hraised⟩
  · exact step_finished hfinished
  · exact step_raised hraised

/-- A turn that does not dispatch leaves what the replay has done. -/
theorem step_quiet (hdis : Disassembles img fetch) {c : Conf}
    (h : dispatched opts fetch c = none) : Keeps c.vars (step opts img c).vars := by
  cases hmode : c.mode with
  | outer =>
      simp only [step, hmode]
      split <;> exact ⟨rfl, rfl, rfl, rfl, rfl, rfl⟩
  | scan g =>
      obtain ⟨i, prev, hstep | hstep⟩ := step_undispatched hdis hmode h
      · rw [hstep]
        exact (move_keeps c.vars i prev).trans (afterFor_keeps _)
      · rw [hstep]
        exact move_keeps c.vars i prev
  | finished =>
      rw [step_finished hmode]
      exact Keeps.refl c.vars
  | raised err =>
      rw [step_raised hmode]
      exact Keeps.refl c.vars

/-- How a run starts: at the head of the `while` loop, with the whole of
the trace to go. -/
theorem hookitStart_ok {file : List UInt8} {c₀ : Conf} (h : hookitStart opts img file = .ok c₀) :
    opts.loadAddress ≤ opts.textStart
      ∧ ∃ symbols, c₀ = ⟨Replay.init ⟨0, symbols⟩ opts.textStart, .outer⟩ := by
  obtain ⟨trace, htrace, hrest⟩ := bind_eq_ok.mp h
  obtain ⟨symbols, -, hret⟩ := bind_eq_ok.mp htrace
  obtain rfl := Except.ok.inj hret
  simp only at hrest
  split at hrest
  · cases hrest
  · rename_i hoffset
    obtain rfl := Except.ok.inj hrest
    have hsum : opts.loadAddress + (opts.textStart - opts.loadAddress) = opts.textStart := by omega
    exact ⟨by omega, symbols, by rw [hsum]⟩

/-! ## What a dispatch does -/

def csetCond : Insn → Option Cond
  | .cset _ c _ => some c
  | _ => none

/-- The flags after an instruction has been replayed. -/
def Flags.after (f : Flags) (insn : Insn) : Flags := (csetCond insn).elim f f.onCset

/-- The address of the instruction a line is about. -/
def Line.address : Line → Option Int
  | .start => none
  | .bl a _ => some a
  | .blSkip a => some a
  | .b a _ => some a
  | .br a => some a
  | .blr a => some a
  | .ret a _ => some a
  | .tbz a _ => some a
  | .tbnz a _ => some a
  | .cbnz a _ => some a
  | .cbz a _ => some a

/-- One line, about the instruction at `a` if it is about one. -/
def WritesLine (a : Int) (s s' : Replay) : Prop :=
  ∃ l, s'.ofd = s.ofd ++ [l] ∧ (l.address = none ∨ l.address = some a)

/-- What one case of the dispatch does: with the replay on, a CSET sets
the flags and a conditional branch asks the trace; and a case either
writes a line or goes on. -/
structure Dispatches (a : Int) (insn : Insn) (s s' : Replay) (flow : Flow) : Prop where
  i : s'.i = s.i
  flags : s'.flags = if s.replayStart then s.flags.after insn else s.flags
  trace : if s.replayStart = true ∧ insn.isCondBranch = true
    then ∃ nb, s.trace.nextBranch = .ok (nb, s'.trace) else s'.trace = s.trace
  writes : (flow = .pass ∧ s'.ofd = s.ofd ∧ s'.taken = s.taken
      ∧ s'.currentAddress = s.currentAddress)
    ∨ WritesLine a s s'

theorem condLine_address (a : Int) (t : Option Int) (insn : Insn) :
    (condLine a t insn).address = some a := by
  cases insn <;> rfl

theorem isCondBranch_csetCond {insn : Insn} (h : insn.isCondBranch = true) :
    csetCond insn = none := by
  cases insn <;> first | rfl | cases h

/-- The instructions that neither set the flags nor ask the trace. -/
theorem Dispatches.plain {a : Int} {insn : Insn} {s s' : Replay} {flow : Flow}
    (hinsn : csetCond insn = none ∧ insn.isCondBranch = false)
    (hkeeps : s'.i = s.i ∧ s'.flags = s.flags ∧ s'.trace = s.trace)
    (hwrites : (flow = .pass ∧ s'.ofd = s.ofd ∧ s'.taken = s.taken
        ∧ s'.currentAddress = s.currentAddress)
      ∨ WritesLine a s s') : Dispatches a insn s s' flow := by
  obtain ⟨hi, hflags, htrace⟩ := hkeeps
  refine ⟨hi, ?_, ?_, hwrites⟩
  · simp [Flags.after, hinsn.1, hflags]
  · simp [hinsn.2, htrace]

theorem branchOn_keeps (s : Replay) (res : BranchRes) (trace : ExecutionTrace)
    (line : Option Int → Line) :
    (branchOn s res trace line).2.i = s.i ∧ (branchOn s res trace line).2.flags = s.flags
      ∧ (branchOn s res trace line).2.trace = trace := by
  unfold branchOn
  simp only
  split <;> exact ⟨rfl, rfl, rfl⟩

theorem branchOn_writes {a : Int} {s : Replay} {res : BranchRes} {trace : ExecutionTrace}
    {line : Option Int → Line} (hline : ∀ t, (line t).address = some a) :
    WritesLine a s (branchOn s res trace line).2 := by
  unfold branchOn
  simp only
  split
  · exact ⟨_, rfl, Or.inr (hline _)⟩
  · exact ⟨_, rfl, Or.inr (hline _)⟩

theorem dispatches_bl {a : Int} {imm26 : BitVec 26} {s s' : Replay} {flow : Flow}
    (h : dispatch opts (capstone a (.bl imm26)) s = .ok (flow, s')) :
    Dispatches a (.bl imm26) s s' flow := by
  rw [dispatch_bl] at h
  split at h
  · cases h
    exact Dispatches.plain ⟨rfl, rfl⟩ ⟨rfl, rfl, rfl⟩ (Or.inr ⟨_, rfl, Or.inl rfl⟩)
  · split at h
    · cases h
      exact Dispatches.plain ⟨rfl, rfl⟩ ⟨rfl, rfl, rfl⟩ (Or.inl ⟨rfl, rfl, rfl, rfl⟩)
    · split at h
      · cases h
        exact Dispatches.plain ⟨rfl, rfl⟩ ⟨rfl, rfl, rfl⟩ (Or.inl ⟨rfl, rfl, rfl, rfl⟩)
      · split at h
        · cases h
          exact Dispatches.plain ⟨rfl, rfl⟩ ⟨rfl, rfl, rfl⟩ (Or.inr ⟨_, rfl, Or.inr rfl⟩)
        · cases h
          exact Dispatches.plain ⟨rfl, rfl⟩ ⟨rfl, rfl, rfl⟩ (Or.inr ⟨_, rfl, Or.inr rfl⟩)

theorem dispatch_ok {a : Int} {insn : Insn} {s s' : Replay} {flow : Flow}
    (h : dispatch opts (capstone a insn) s = .ok (flow, s')) : Dispatches a insn s s' flow := by
  cases hs : s.replayStart with
  | false =>
      cases insn with
      | bl imm26 => exact dispatches_bl h
      | _ =>
          rw [dispatch_idle hs (by simp)] at h
          cases h
          exact ⟨rfl, by simp [hs], by simp [hs], Or.inl ⟨rfl, rfl, rfl, rfl⟩⟩
  | true =>
      cases hc : insn.isCondBranch with
      | true =>
          rw [dispatch_condBranch hc hs] at h
          obtain ⟨⟨nb, trace⟩, hnb, hret⟩ := bind_eq_ok.mp h
          obtain rfl := congrArg Prod.snd (Except.ok.inj hret)
          obtain ⟨hi, hflags, htrace⟩ := branchOn_keeps s
            (branchResult a insn (takes insn s.flags nb)) trace fun t => condLine a t insn
          refine ⟨hi, ?_, ?_, Or.inr (branchOn_writes fun t => condLine_address a t insn)⟩
          · simp [hflags, Flags.after, isCondBranch_csetCond hc]
          · rw [if_pos ⟨hs, hc⟩, htrace]
            exact ⟨nb, hnb⟩
      | false =>
          cases insn with
          | other word =>
              cases h
              exact Dispatches.plain ⟨rfl, rfl⟩ ⟨rfl, rfl, rfl⟩ (Or.inl ⟨rfl, rfl, rfl, rfl⟩)
          | cset sf cond rd =>
              rw [dispatch_cset hs] at h
              cases h
              exact ⟨rfl, by simp [hs, Flags.after, csetCond], by simp [hc],
                Or.inl ⟨rfl, rfl, rfl, rfl⟩⟩
          | b imm26 =>
              rw [dispatch_b hs] at h
              obtain rfl := congrArg Prod.snd (Except.ok.inj h)
              exact Dispatches.plain ⟨rfl, rfl⟩ (branchOn_keeps ..)
                (Or.inr (branchOn_writes fun _ => rfl))
          | bl imm26 => exact dispatches_bl h
          | br rn =>
              obtain rfl := congrArg Prod.snd (Except.ok.inj h)
              simp only [hs, if_true]
              exact Dispatches.plain ⟨rfl, rfl⟩ ⟨rfl, rfl, rfl⟩ (Or.inr ⟨_, rfl, Or.inr rfl⟩)
          | blr rn =>
              obtain rfl := congrArg Prod.snd (Except.ok.inj h)
              simp only [hs, if_true]
              exact Dispatches.plain ⟨rfl, rfl⟩ ⟨rfl, rfl, rfl⟩ (Or.inr ⟨_, rfl, Or.inr rfl⟩)
          | ret rn =>
              cases hstack : s.stack with
              | nil =>
                  simp only [dispatch, capstone, hs, if_true, hstack] at h
                  cases h
              | cons t stack =>
                  rw [dispatch_ret hs rn hstack] at h
                  cases h
                  exact Dispatches.plain ⟨rfl, rfl⟩ ⟨rfl, rfl, rfl⟩ (Or.inr ⟨_, rfl, Or.inr rfl⟩)
          | _ => cases hc

end Ve

end Oat
