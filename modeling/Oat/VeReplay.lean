import Oat.VeExec

/-!
# The replay follows the executed path

`replay_follows`: when `hookit` decides each conditional branch the way
it went, and the conditions of `FollowsPath` are met, then it ends, and
the outfile is the list of the control transfers of the execution.

The proof is a simulation. `executed_step` is one instruction: from the
address of the instruction in the `for` loop, `hookit` gets to the next
one, through the head of the `while` loop if the instruction leads
elsewhere. `executes_run` is the induction over the path. Before the
path the replay is off up to `bl cfv_init` (`idle_to`), and after it from
`bl cfv_quote` to the end of the text (`quote_ends`), which the `for`
loop goes on to before `replay_stop` is looked at again.
-/

namespace Oat

namespace Ve

open A64

variable {opts : Opts} {img : Image} {fetch : Int → Option Insn}

/-- In the `for` loop, about to look at the instruction at `a`. -/
structure At (c : Conf) (a : Int) : Prop where
  mode : c.mode = .scan a
  taken : c.vars.taken = false
  new : c.vars.prevAddress ≠ a

/-- The replay has come as far as `p`, and has written `lines`. -/
structure Sim (p : Progress) (lines : List Line) (s : Replay) : Prop where
  on : s.replayStart = true
  going : s.replayStop = false
  stack : s.stack = p.pending
  flags : s.flags = p.flags
  trace : s.trace = p.trace
  ofd : s.ofd = lines

theorem dispatched_at {c : Conf} {a : Int} {insn : Insn} (h : At c a)
    (hfetch : fetch a = some insn) (homit : a ∉ opts.omitAddresses) :
    dispatched opts fetch c = some (a, insn) := by
  have hnew : ¬ (a = c.vars.prevAddress ∨ a ∈ opts.omitAddresses) :=
    not_or.mpr ⟨fun heq => h.new heq.symm, homit⟩
  simp only [dispatched, h.mode, if_neg hnew, hfetch, Option.map_some]

/-! ## One instruction of the path -/

/-- A case of the dispatch leads where the instruction does. -/
def Leads (e : Executed) (s s' : Replay) : Flow → Prop
  | .brk => s'.taken = true ∧ s'.targetAddress = e.next
  | _ => s'.taken = s.taken ∧ e.next = e.pc + 4

/-- The dispatch of an executed instruction does what the outfile and the
progress should show. -/
def Shows (opts : Opts) (p : Progress) (lines : List Line) (e : Executed) (s : Replay) : Prop :=
  ∃ flow s', dispatch opts (capstone e.pc e.insn) s = .ok (flow, s')
    ∧ Sim (p.after opts e) (lines ++ e.lines opts) s'
    ∧ s'.prevAddress = s.prevAddress ∧ s'.i = s.i ∧ Leads e s s' flow

/-- What has been written after it is the beginning of what should come. -/
def OnTrack (opts : Opts) (lines rest : List Line) (e : Executed) (s : Replay) : Prop :=
  ∃ flow s', dispatch opts (capstone e.pc e.insn) s = .ok (flow, s')
    ∧ s'.ofd <+: lines ++ (e.lines opts ++ rest)

/-- An instruction is shown when its target is seen, and only then are
the lines what they should be. -/
structure Exact (opts : Opts) (p : Progress) (lines rest : List Line) (e : Executed)
    (s : Replay) : Prop where
  shows : seesTarget opts p e = true → Shows opts p lines e s
  sees : OnTrack opts lines rest e s → seesTarget opts p e = true

theorem exact_of_dispatch {p : Progress} {lines rest : List Line} {e : Executed} {s s' : Replay}
    {flow : Flow} (h : dispatch opts (capstone e.pc e.insn) s = .ok (flow, s'))
    (hshows : seesTarget opts p e = true → Sim (p.after opts e) (lines ++ e.lines opts) s'
      ∧ s'.prevAddress = s.prevAddress ∧ s'.i = s.i ∧ Leads e s s' flow)
    (hsees : s'.ofd <+: lines ++ (e.lines opts ++ rest) → seesTarget opts p e = true) :
    Exact opts p lines rest e s := by
  refine ⟨fun h' => ⟨flow, s', h, hshows h'⟩, ?_⟩
  rintro ⟨flow', s'', heq, hrest⟩
  rw [h] at heq
  cases heq
  exact hsees hrest

/-- A line that is written is the one that should come next. -/
theorem Sim.next_line {p : Progress} {lines rest : List Line} {l l' : Line} {s s' : Replay}
    (hs : Sim p lines s) (hofd : s'.ofd = s.ofd ++ [l'])
    (h : s'.ofd <+: lines ++ ([l] ++ rest)) : l' = l := by
  rw [hofd, hs.ofd, List.prefix_append_right_inj] at h
  exact (List.cons_prefix_cons.mp h).1

/-! ### Conditional branches -/

theorem seesTarget_cond {p : Progress} {e : Executed} (hc : e.insn.isCondBranch = true)
    (hflows : e.flows opts = true) :
    seesTarget opts p e = true ↔ (e.taken = true → seenTarget e.pc e.insn = e.next) := by
  have hseen : ∀ t, e.next = (if e.taken then t else e.pc + 4) → e.taken = true → t = e.next := by
    intro t ht htaken
    rw [ht, if_pos htaken]
  obtain ⟨pc, insn, taken, next⟩ := e
  cases insn with
  | bCond cond imm19 => exact iff_of_true rfl (hseen _ (of_decide_eq_true hflows))
  | cbz sf imm19 rt => exact iff_of_true rfl (hseen _ (of_decide_eq_true hflows))
  | cbnz sf imm19 rt => exact iff_of_true rfl (hseen _ (of_decide_eq_true hflows))
  | tbz bit imm14 rt => exact decide_eq_true_iff
  | tbnz bit imm14 rt => exact decide_eq_true_iff
  | _ => cases hc

theorem flows_not_taken {e : Executed} (hc : e.insn.isCondBranch = true)
    (hflows : e.flows opts = true) (htaken : e.taken = false) : e.next = e.pc + 4 := by
  obtain ⟨pc, insn, taken, next⟩ := e
  subst htaken
  cases insn <;> first | exact of_decide_eq_true hflows | cases hc

theorem cond_lines {e : Executed} (hc : e.insn.isCondBranch = true) :
    e.lines opts = [condLine e.pc (if e.taken then some e.next else none) e.insn] := by
  obtain ⟨pc, insn, taken, next⟩ := e
  cases insn <;> first | rfl | cases hc

theorem condLine_inj {a t t' : Int} {insn : Insn}
    (h : condLine a (some t) insn = condLine a (some t') insn) : t = t' := by
  cases insn <;> simpa [condLine] using h

theorem cond_after {p : Progress} {e : Executed} (hc : e.insn.isCondBranch = true) :
    (p.after opts e).pending = p.pending ∧ (p.after opts e).flags = p.flags := by
  obtain ⟨pc, insn, taken, next⟩ := e
  cases insn <;> first | exact ⟨rfl, rfl⟩ | cases hc

theorem exact_cond {p : Progress} {lines rest : List Line} {e : Executed} {s : Replay}
    (hs : Sim p lines s) (hc : e.insn.isCondBranch = true) (hflows : e.flows opts = true)
    (hdec : Decided p e) : Exact opts p lines rest e s := by
  have hdecided := hdec hc
  have hseen := seesTarget_cond (p := p) hc hflows
  obtain ⟨hpending, hflags⟩ : (p.after opts e).pending = p.pending
      ∧ (p.after opts e).flags = p.flags := cond_after hc
  cases hnb : p.trace.nextBranch with
  | error err => simp [hnb, Except.map] at hdecided
  | ok r =>
      obtain ⟨nb, trace⟩ := r
      have htakes : takes e.insn p.flags nb = e.taken := by simpa [hnb, Except.map] using hdecided
      have hadvance : (p.after opts e).trace = trace := by
        simp [Progress.after, hc, ExecutionTrace.advance, hnb]
      have hdispatch : dispatch opts (capstone e.pc e.insn) s
          = .ok (branchOn s (branchResult e.pc e.insn e.taken) trace
            fun t => condLine e.pc t e.insn) := by
        rw [dispatch_condBranch hc hs.on, hs.trace, hs.flags, hnb]
        simp only [bind, Except.bind, htakes]
      have hline : e.lines opts = _ := cond_lines hc
      cases htaken : e.taken with
      | true =>
          rw [htaken] at hdispatch hseen hline
          simp only [if_true] at hline
          refine exact_of_dispatch hdispatch ?_ ?_
          · intro h
            have htarget := hseen.mp h rfl
            refine ⟨⟨hs.on, hs.going, hs.stack.trans hpending.symm, hs.flags.trans hflags.symm,
              hadvance.symm, ?_⟩, rfl, rfl, rfl, htarget⟩
            rw [hline, ← htarget]
            exact congrArg (· ++ _) hs.ofd
          · intro h
            rw [hline] at h
            exact hseen.mpr fun _ => condLine_inj (hs.next_line rfl h)
      | false =>
          rw [htaken] at hdispatch hseen hline
          refine exact_of_dispatch hdispatch ?_ fun _ => hseen.mpr (by simp)
          intro _
          refine ⟨⟨hs.on, hs.going, hs.stack.trans hpending.symm, hs.flags.trans hflags.symm,
            hadvance.symm, ?_⟩, rfl, rfl, rfl, flows_not_taken hc hflows htaken⟩
          rw [hline]
          exact congrArg (· ++ _) hs.ofd

/-! ### Calls -/

theorem dispatch_call {p : Progress} {lines : List Line} {pc : Int} {imm26 : BitVec 26}
    {s : Replay} (hs : Sim p lines s) (hinit : target pc imm26 ≠ opts.cfvInit)
    (hquote : target pc imm26 ≠ opts.cfvQuote) :
    dispatch opts (capstone pc (.bl imm26)) s
      = .ok (if blCalls opts pc imm26 then
          (.brk, { s.take (blTarget pc imm26) with stack := (pc + 4) :: s.stack }.write
            (.bl pc (blTarget pc imm26)))
        else (.pass, s.write (.blSkip pc))) := by
  have hon : ¬ s.replayStart = false := by simp [hs.on]
  rw [dispatch_bl, if_neg hinit, if_neg hquote, if_neg hon]

/-- A call into the text. -/
theorem exact_textCall {p : Progress} {lines rest : List Line} {pc : Int} {imm26 : BitVec 26}
    {taken : Bool} {next : Int} {s : Replay} (hs : Sim p lines s)
    (hquote : target pc imm26 ≠ opts.cfvQuote) (hcalls : callsText opts pc imm26 = true)
    (hnext : next = target pc imm26) :
    Exact opts p lines rest ⟨pc, .bl imm26, taken, next⟩ s := by
  obtain ⟨hinit, hstart⟩ : target pc imm26 ≠ opts.cfvInit ∧ opts.textStart ≤ target pc imm26 :=
    of_decide_eq_true hcalls
  have hdispatch : dispatch opts (capstone pc (.bl imm26)) s = _ := dispatch_call hs hinit hquote
  have hseen : seesTarget opts p ⟨pc, .bl imm26, taken, next⟩ = true
      ↔ blTarget pc imm26 = target pc imm26 := by simp [seesTarget, hcalls]
  have hlines : Executed.lines opts ⟨pc, .bl imm26, taken, next⟩ = [.bl pc next] := by
    simp [Executed.lines, hinit, hcalls]
  cases hbl : blCalls opts pc imm26 with
  | true =>
      rw [if_pos hbl] at hdispatch
      refine exact_of_dispatch hdispatch ?_ ?_
      · intro h
        have htarget : blTarget pc imm26 = next := (hseen.mp h).trans hnext.symm
        refine ⟨⟨hs.on, hs.going, ?_, hs.flags, hs.trace, ?_⟩, rfl, rfl, rfl, htarget⟩
        · simp [Progress.after, hcalls, Replay.write, Replay.take, hs.stack]
        · simp [hlines, Replay.write, Replay.take, hs.ofd, htarget]
      · intro h
        rw [hlines] at h
        have hline : Line.bl pc (blTarget pc imm26) = .bl pc next := hs.next_line rfl h
        exact hseen.mpr ((Line.bl.inj hline).2.trans hnext)
  | false =>
      rw [if_neg (by simp [hbl])] at hdispatch
      refine exact_of_dispatch hdispatch ?_ ?_
      · intro h
        simp only [blCalls, hseen.mp h, decide_eq_false_iff_not] at hbl
        exact absurd ⟨hinit, hquote, hstart⟩ hbl
      · intro h
        rw [hlines] at h
        have hline : Line.blSkip pc = .bl pc next := hs.next_line rfl h
        cases hline

/-- A call of a library. -/
theorem exact_libraryCall {p : Progress} {lines rest : List Line} {pc : Int} {imm26 : BitVec 26}
    {taken : Bool} {next : Int} {s : Replay} (hs : Sim p lines s)
    (hinit : target pc imm26 ≠ opts.cfvInit) (hquote : target pc imm26 ≠ opts.cfvQuote)
    (hcalls : callsText opts pc imm26 = false) (hnext : next = pc + 4) :
    Exact opts p lines rest ⟨pc, .bl imm26, taken, next⟩ s := by
  have hdispatch : dispatch opts (capstone pc (.bl imm26)) s = _ := dispatch_call hs hinit hquote
  have hseen : seesTarget opts p ⟨pc, .bl imm26, taken, next⟩ = true
      ↔ blCalls opts pc imm26 = false := by simp [seesTarget, hcalls, hinit]
  have hlines : Executed.lines opts ⟨pc, .bl imm26, taken, next⟩ = [.blSkip pc] := by
    simp [Executed.lines, hinit, hcalls]
  cases hbl : blCalls opts pc imm26 with
  | true =>
      rw [if_pos hbl] at hdispatch
      refine exact_of_dispatch hdispatch ?_ ?_
      · intro h
        exact absurd (hseen.mp h) (by simp [hbl])
      · intro h
        rw [hlines] at h
        have hline : Line.bl pc (blTarget pc imm26) = .blSkip pc := hs.next_line rfl h
        cases hline
  | false =>
      rw [if_neg (by simp [hbl])] at hdispatch
      refine exact_of_dispatch hdispatch ?_ fun _ => hseen.mpr hbl
      intro _
      refine ⟨⟨hs.on, hs.going, ?_, hs.flags, hs.trace, ?_⟩, rfl, rfl, rfl, hnext⟩
      · simpa [Progress.after, hcalls, Replay.write] using hs.stack
      · simp [hlines, Replay.write, hs.ofd]

theorem exact_bl {p : Progress} {lines rest : List Line} {pc : Int} {imm26 : BitVec 26}
    {taken : Bool} {next : Int} {s : Replay} (hs : Sim p lines s)
    (hquote : target pc imm26 ≠ opts.cfvQuote)
    (hflows : Executed.flows opts ⟨pc, .bl imm26, taken, next⟩ = true) :
    Exact opts p lines rest ⟨pc, .bl imm26, taken, next⟩ s := by
  have hnext : next = if callsText opts pc imm26 then target pc imm26 else pc + 4 :=
    of_decide_eq_true hflows
  cases hcalls : callsText opts pc imm26 with
  | true =>
      rw [hcalls, if_pos rfl] at hnext
      exact exact_textCall hs hquote hcalls hnext
  | false =>
      rw [hcalls] at hnext
      by_cases hinit : target pc imm26 = opts.cfvInit
      · have hdispatch : dispatch opts (capstone pc (.bl imm26)) s = _ := dispatch_bl imm26
        rw [if_pos hinit] at hdispatch
        refine exact_of_dispatch hdispatch ?_ fun _ => by simp [seesTarget, hcalls, hinit]
        intro _
        refine ⟨⟨rfl, hs.going, ?_, hs.flags, hs.trace, ?_⟩, rfl, rfl, rfl, hnext⟩
        · simpa [Progress.after, hcalls, Replay.write] using hs.stack
        · simp [Executed.lines, hinit, Replay.write, hs.ofd]
      · exact exact_libraryCall hs hinit hquote hcalls hnext

/-! ### Returns -/

theorem exact_ret {p : Progress} {lines rest : List Line} {pc : Int} {rn : Fin 32} {taken : Bool}
    {next : Int} {s : Replay} (hs : Sim p lines s) :
    Exact opts p lines rest ⟨pc, .ret rn, taken, next⟩ s := by
  have hseen : seesTarget opts p ⟨pc, .ret rn, taken, next⟩ = true
      ↔ p.pending.head? = some next := decide_eq_true_iff
  cases hpending : p.pending with
  | nil =>
      have hstack : s.stack = [] := hs.stack.trans hpending
      refine ⟨?_, ?_⟩
      · intro h
        rw [hseen, hpending] at h
        cases h
      · rintro ⟨flow, s', hdispatch, -⟩
        simp only [dispatch, capstone, hs.on, if_true, hstack] at hdispatch
        cases hdispatch
  | cons t stack =>
      have hstack : s.stack = t :: stack := hs.stack.trans hpending
      rw [hpending, List.head?_cons, Option.some.injEq] at hseen
      refine exact_of_dispatch (dispatch_ret hs.on rn hstack) ?_ ?_
      · intro h
        obtain rfl := hseen.mp h
        refine ⟨⟨hs.on, hs.going, ?_, hs.flags, hs.trace, ?_⟩, rfl, rfl, rfl, rfl⟩
        · simp [Progress.after, hpending, Replay.write]
        · simp [Executed.lines, Replay.write, Replay.take, hs.ofd]
      · intro h
        have hline : Line.ret pc t = Line.ret pc next := hs.next_line rfl h
        exact hseen.mpr (Line.ret.inj hline).2

/-! ### All of them -/

theorem exact_executed (rest : List Line) {p : Progress} {lines : List Line} {e : Executed}
    {s : Replay} (hs : Sim p lines s) (hnext : e.next < opts.textEnd)
    (hquote : e.insn.calls e.pc opts.cfvQuote = false) (hflows : e.flows opts = true)
    (hdec : Decided p e) : Exact opts p lines rest e s := by
  cases hc : e.insn.isCondBranch with
  | true => exact exact_cond hs hc hflows hdec
  | false =>
      obtain ⟨pc, insn, taken, next⟩ := e
      cases insn with
      | other word =>
          refine exact_of_dispatch (dispatch_other word) ?_ fun _ => rfl
          intro _
          exact ⟨⟨hs.on, hs.going, hs.stack, hs.flags, hs.trace, by simp [Executed.lines, hs.ofd]⟩,
            rfl, rfl, rfl, of_decide_eq_true hflows⟩
      | cset sf cond rd =>
          refine exact_of_dispatch (dispatch_cset hs.on sf cond rd) ?_ fun _ => rfl
          intro _
          exact ⟨⟨hs.on, hs.going, hs.stack, congrArg (Flags.onCset · cond) hs.flags, hs.trace,
            by simp [Executed.lines, hs.ofd]⟩, rfl, rfl, rfl, of_decide_eq_true hflows⟩
      | b imm26 =>
          have htarget : next = target pc imm26 := of_decide_eq_true hflows
          have hlt : target pc imm26 < opts.textEnd := htarget ▸ hnext
          have hdispatch : dispatch opts (capstone pc (.b imm26)) s = _ := dispatch_b hs.on imm26
          rw [if_pos hlt] at hdispatch
          refine exact_of_dispatch hdispatch ?_ fun _ => rfl
          intro _
          refine ⟨⟨hs.on, hs.going, hs.stack, hs.flags, hs.trace, ?_⟩, rfl, rfl, rfl, htarget.symm⟩
          simp [Executed.lines, Replay.write, Replay.take, hs.ofd, htarget]
      | bl imm26 => exact exact_bl hs (by simpa [Insn.calls] using hquote) hflows
      | br rn => cases hflows
      | blr rn => cases hflows
      | ret rn => exact exact_ret hs
      | _ => cases hc

theorem afterFor_taken {s : Replay} {t : Int} (hstart : opts.loadAddress ≤ opts.textStart)
    (hsize : opts.textEnd ≤ opts.loadAddress + img.size) (hgoing : s.replayStop = false)
    (htaken : s.taken = true) (htarget : s.targetAddress = t) (hin : opts.InText t) :
    step opts img (afterFor opts img s) = ⟨{ s with currentAddress := t, taken := false }, .scan t⟩ := by
  obtain ⟨hlo, hhi, -⟩ := hin
  have hnext : nextAddress s = t := by rw [nextAddress, if_pos htaken, htarget]
  have hend : ¬ (opts.textEnd ≤ t ∨ opts.loadAddress + img.size ≤ t) := by omega
  have hbefore : ¬ t < opts.loadAddress := by omega
  simp only [afterFor, htaken, Bool.true_eq_false, false_and, if_false, hnext, hend, hbefore,
    hgoing, Bool.false_eq_true, step]

/-- What is asked of the file and of the options. -/
structure Loaded (opts : Opts) (img : Image) (fetch : Int → Option Insn) : Prop where
  nonneg : 0 ≤ opts.textStart
  size : opts.textEnd ≤ opts.loadAddress + img.size
  decodes : ∀ a, opts.InText a → (fetch a).isSome = true
  apart : opts.cfvInit ≠ opts.cfvQuote

/-- In the `for` loop at the next instruction, which has been processed
already if it is the same. -/
structure AtNext (c : Conf) (e : Executed) : Prop where
  mode : c.mode = .scan e.next
  taken : c.vars.taken = false
  prev : c.vars.prevAddress = e.pc
  current : e.next = e.pc + 4 ∨ c.vars.currentAddress = e.next

/-- **Step**: from one instruction of the path to the next. -/
theorem executed_step (hdis : Disassembles img fetch) (hload : Loaded opts img fetch)
    (hstart : opts.loadAddress ≤ opts.textStart) {p : Progress} {lines : List Line} {e : Executed}
    {c : Conf} (hat : At c e.pc) (hs : Sim p lines c.vars) (hpc : opts.InText e.pc)
    (hnext : opts.InText e.next) (hshown : e.pc ∉ opts.omitAddresses)
    (hfetch : fetch e.pc = some e.insn) (hquote : e.insn.calls e.pc opts.cfvQuote = false)
    (hflows : e.flows opts = true) (hdec : Decided p e) (hsees : seesTarget opts p e = true) :
    ∃ c', Reaches (step opts img) c c' ∧ AtNext c' e
      ∧ Sim (p.after opts e) (lines ++ e.lines opts) c'.vars := by
  have henter : Sim p lines (c.vars.enter e.pc) :=
    ⟨hs.on, hs.going, hs.stack, hs.flags, hs.trace, hs.ofd⟩
  obtain ⟨flow, s', hdispatch, hs', hprev, -, hleads⟩ :=
    (exact_executed [] henter hnext.2.1 hquote hflows hdec).shows hsees
  have hstep := step_dispatched hdis (dispatched_at hat hfetch hshown)
  rw [hdispatch] at hstep
  simp only at hstep
  -- a case that does not break goes on to the following word
  have hgoes : step opts img c = ⟨s', .scan (e.pc + 4)⟩ → s'.taken = false → e.next = e.pc + 4 →
      ∃ c', Reaches (step opts img) c c' ∧ AtNext c' e
        ∧ Sim (p.after opts e) (lines ++ e.lines opts) c'.vars := by
    intro hstep htaken heq
    refine ⟨step opts img c, Reaches.single c, ?_, ?_⟩
    · rw [hstep]
      exact ⟨heq ▸ rfl, htaken, hprev, Or.inl heq⟩
    · rw [hstep]
      exact hs'
  cases flow with
  | cont => exact hgoes hstep (hleads.1.trans hat.taken) hleads.2
  | pass =>
      have hfalse : s'.taken = false := hleads.1.trans hat.taken
      have hgo : ¬ (opts.textEnd ≤ e.pc ∨ s'.taken = true) := by
        have hlt := hpc.2.1
        simp only [hfalse, Bool.false_eq_true, or_false]
        omega
      rw [afterFlow, if_neg hgo] at hstep
      exact hgoes hstep hfalse hleads.2
  | brk =>
      obtain ⟨htrue, htarget⟩ := hleads
      have htake := afterFor_taken hstart hload.size hs'.going htrue htarget hnext
      rw [afterFlow] at hstep
      refine ⟨step opts img (step opts img c), ⟨2, rfl⟩, ?_, ?_⟩
      · rw [hstep, htake]
        exact ⟨rfl, rfl, hprev, Or.inr rfl⟩
      · rw [hstep, htake]
        exact ⟨hs'.on, hs'.going, hs'.stack, hs'.flags, hs'.trace, hs'.ofd⟩

theorem AtNext.at_of_moves {c : Conf} {e : Executed} (h : AtNext c e) (hmoves : e.next ≠ e.pc) :
    At c e.next :=
  ⟨h.mode, h.taken, fun heq => hmoves (heq.symm.trans h.prev)⟩

theorem Executes.next_inText {e : Executed} {es : List Executed} {a q : Int}
    (hq : opts.InText q) (h : Executes opts fetch a (e :: es) q) : opts.InText e.next := by
  obtain ⟨-, -, -, -, -, hrest⟩ := h
  cases es with
  | nil =>
      obtain rfl : e.next = q := hrest
      exact hq
  | cons e' es => exact hrest.2.1

/-- **Run**, along the path. -/
theorem executes_run (hdis : Disassembles img fetch) (hload : Loaded opts img fetch)
    (hstart : opts.loadAddress ≤ opts.textStart) {q : Int} (hq : opts.InText q)
    {es : List Executed} {a : Int} {p : Progress} {lines : List Line} {c : Conf}
    (hat : At c a) (hs : Sim p lines c.vars) (hpath : Executes opts fetch a es q)
    (hshown : ∀ e ∈ es, e.pc ∉ opts.omitAddresses) (hdec : Along opts Decided p es)
    (hok : Along opts (Followed opts) p es) :
    ∃ c' p', Reaches (step opts img) c c' ∧ At c' q
      ∧ Sim p' (lines ++ es.flatMap (Executed.lines opts)) c'.vars := by
  induction es generalizing a p lines c with
  | nil =>
      obtain rfl : a = q := hpath
      refine ⟨c, p, Reaches.refl c, hat, ?_⟩
      rw [List.flatMap_nil, List.append_nil]
      exact hs
  | cons e es ih =>
      have hnext := hpath.next_inText hq
      obtain ⟨rfl, hin, hfetch, hquote, hflows, hrest⟩ := hpath
      obtain ⟨c₁, hreach₁, hat₁, hs₁⟩ := executed_step hdis hload hstart hat hs hin hnext
        (hshown e List.mem_cons_self) hfetch hquote hflows hdec.1 hok.1.sees
      obtain ⟨c', p', hreach, hat', hs'⟩ := ih (hat₁.at_of_moves hok.1.moves) hs₁ hrest
        (fun e' he' => hshown e' (List.mem_cons_of_mem e he')) hdec.2 hok.2
      refine ⟨c', p', hreach₁.trans hreach, hat', ?_⟩
      rw [List.flatMap_cons, ← List.append_assoc]
      exact hs'

/-! ## Before and after the path -/

/-- With the replay off, the instruction does not bring `hookit` to do
anything: it does not call `cfv_init`, nor `cfv_quote` unless that has
been seen before. -/
def Silent (opts : Opts) (fetch : Int → Option Insn) (stop : Bool) (a : Int) : Prop :=
  (fetch a).isSome = true ∧ seesCall opts fetch a opts.cfvInit = false
    ∧ (stop = true ∨ seesCall opts fetch a opts.cfvQuote = false)

theorem seesCall_of_shown {a : Int} (h : a ∉ opts.omitAddresses) (t : Int) :
    seesCall opts fetch a t = callsAt fetch a t := by
  simp [seesCall, h]

theorem dispatch_silent {a : Int} {insn : Insn} {s : Replay} (hfetch : fetch a = some insn)
    (hshown : a ∉ opts.omitAddresses) (hs : s.replayStart = false)
    (hinit : seesCall opts fetch a opts.cfvInit = false)
    (hquote : s.replayStop = true ∨ seesCall opts fetch a opts.cfvQuote = false) :
    dispatch opts (capstone a insn) s = .ok (.pass, s) := by
  rw [seesCall_of_shown hshown, callsAt, hfetch, Option.any_some] at hinit hquote
  cases insn with
  | bl imm26 =>
      simp only [Insn.calls, decide_eq_false_iff_not] at hinit hquote
      rw [dispatch_bl, if_neg hinit]
      by_cases hq : target a imm26 = opts.cfvQuote
      · have hstop := hquote.resolve_right fun h => h hq
        have hsame : { s with replayStop := true, replayStart := false } = s := by
          rw [← hstop, ← hs]
        rw [if_pos hq, hsame]
      · rw [if_neg hq, if_pos hs]
  | _ => exact dispatch_idle hs (by simp)

theorem idle_step (hdis : Disassembles img fetch) {c : Conf} {a : Int} (hat : At c a)
    (hoff : c.vars.replayStart = false) (hend : a < opts.textEnd)
    (hsilent : Silent opts fetch c.vars.replayStop a) :
    step opts img c = ⟨c.vars.enter a, .scan (a + 4)⟩ := by
  obtain ⟨hsome, hinit, hquote⟩ := hsilent
  obtain ⟨insn, hfetch⟩ := Option.isSome_iff_exists.mp hsome
  have hgo : ¬ opts.textEnd ≤ a := by omega
  by_cases homit : a ∈ opts.omitAddresses
  · have hinsn : img.insnAt a = some (capstone a insn) := by rw [hdis a, hfetch]; rfl
    have hnew : ¬ a = c.vars.prevAddress := fun h => hat.new h.symm
    simp only [step, hat.mode, hinsn, forBody, capstone_address, if_neg hnew, if_pos homit, pastEnd,
      hgo, decide_false]
    rfl
  · have hdispatch : dispatch opts (capstone a insn) (c.vars.enter a)
        = .ok (.pass, c.vars.enter a) := dispatch_silent hfetch homit hoff hinit hquote
    have hpass : ¬ (opts.textEnd ≤ a ∨ (c.vars.enter a).taken = true) := by
      have htaken : (c.vars.enter a).taken = false := hat.taken
      simp [hgo, htaken]
    rw [step_dispatched hdis (dispatched_at hat hfetch homit), hdispatch]
    simp only [afterFlow, if_neg hpass]

variable (opts) in
/-- With the replay off, the `for` loop goes over `k` instructions. -/
theorem idle_to (hdis : Disassembles img fetch) (k : Nat) {a : Int} {c : Conf} (hat : At c a)
    (hoff : c.vars.replayStart = false)
    (hsilent : ∀ j : Nat, j < k →
      a + 4 * j < opts.textEnd ∧ Silent opts fetch c.vars.replayStop (a + 4 * j)) :
    ∃ c', Reaches (step opts img) c c' ∧ At c' (a + 4 * k) ∧ Keeps c.vars c'.vars
      ∧ (c.vars.i ≠ none → c'.vars.i ≠ none) := by
  induction k generalizing a c with
  | zero => exact ⟨c, Reaches.refl c, by simpa using hat, Keeps.refl c.vars, id⟩
  | succ k ih =>
      have hfirst : a < opts.textEnd ∧ Silent opts fetch c.vars.replayStop a := by
        simpa using hsilent 0 (Nat.succ_pos k)
      have hstep := idle_step hdis hat hoff hfirst.1 hfirst.2
      have hat₁ : At (step opts img c) (a + 4) := by
        rw [hstep]
        exact ⟨rfl, hat.taken, by simp only [Replay.enter, Replay.move]; omega⟩
      have hkeeps : Keeps c.vars (step opts img c).vars := by
        rw [hstep]
        exact move_keeps c.vars (some a) a
      have hshift : ∀ j : Nat, a + 4 + 4 * (j : Int) = a + 4 * ((j + 1 : Nat) : Int) := by
        intro j
        omega
      obtain ⟨c', hreach, hat', hkeeps', hi⟩ := ih hat₁ (hkeeps.replayStart.trans hoff) (by
        intro j hj
        rw [hshift, hkeeps.replayStop]
        exact hsilent (j + 1) (Nat.succ_lt_succ hj))
      refine ⟨c', hreach.head, hshift k ▸ hat', hkeeps.trans hkeeps', ?_⟩
      intro _
      refine hi ?_
      rw [hstep]
      simp [Replay.enter, Replay.move]

theorem afterFor_stopped {s : Replay} (hi : s.i ≠ none) (hstop : s.replayStop = true) :
    (afterFor opts img s).mode = .finished := by
  unfold afterFor
  rw [if_neg fun h => hi h.2]
  simp [hstop]

/-- Past the end of the text the loop ends, and `hookit` with it. -/
theorem idle_end (hdis : Disassembles img fetch) {c : Conf} {a : Int} (hat : At c a)
    (hend : opts.textEnd ≤ a) (hoff : c.vars.replayStart = false)
    (hstop : c.vars.replayStop = true) (hi : c.vars.i ≠ none)
    (hinit : seesCall opts fetch a opts.cfvInit = false) :
    (step opts img c).mode = .finished ∧ Keeps c.vars (step opts img c).vars := by
  cases hfetch : fetch a with
  | none =>
      have hinsn : img.insnAt a = none := by rw [hdis a, hfetch]; rfl
      simp only [step, hat.mode, hinsn]
      exact ⟨afterFor_stopped hi hstop, afterFor_keeps c.vars⟩
  | some insn =>
      have hstep : step opts img c = afterFor opts img (c.vars.enter a) := by
        by_cases homit : a ∈ opts.omitAddresses
        · have hinsn : img.insnAt a = some (capstone a insn) := by rw [hdis a, hfetch]; rfl
          have hnew : ¬ a = c.vars.prevAddress := fun h => hat.new h.symm
          simp only [step, hat.mode, hinsn, forBody, capstone_address, if_neg hnew, if_pos homit,
            pastEnd, hend, decide_true]
          rfl
        · have hdispatch : dispatch opts (capstone a insn) (c.vars.enter a)
              = .ok (.pass, c.vars.enter a) :=
            dispatch_silent hfetch homit hoff hinit (Or.inl hstop)
          rw [step_dispatched hdis (dispatched_at hat hfetch homit), hdispatch]
          simp only [afterFlow, if_pos (Or.inl hend)]
      rw [hstep]
      exact ⟨afterFor_stopped (by simp [Replay.enter, Replay.move]) hstop,
        (move_keeps c.vars (some a) a).trans (afterFor_keeps _)⟩

/-! ## The whole run -/

theorem Found.shown_path {a q : Int} {es : List Executed} (h : Found opts fetch a es q) :
    ∀ e ∈ es, e.pc ∉ opts.omitAddresses := by
  intro e he
  refine h.shown e.pc ?_
  simp only [List.mem_cons, List.mem_map]
  exact Or.inr (Or.inr ⟨e, he, rfl⟩)

/-- `hookit` ends, with `lines` in the outfile. -/
def Writes (opts : Opts) (img : Image) (c₀ : Conf) (lines : List Line) : Prop :=
  ∃ n, ((step opts img)^[n] c₀).mode = .finished ∧ ((step opts img)^[n] c₀).vars.ofd = lines

theorem callsAt_eq_true {a t : Int} (h : callsAt fetch a t = true) :
    ∃ imm26, fetch a = some (.bl imm26) ∧ target a imm26 = t := by
  cases hfetch : fetch a with
  | none => simp [callsAt, hfetch] at h
  | some insn =>
      rw [callsAt, hfetch, Option.any_some] at h
      cases insn with
      | bl imm26 => exact ⟨imm26, rfl, of_decide_eq_true h⟩
      | _ => cases h

/-- From the start to the instruction after `bl cfv_init`. -/
theorem reaches_init (hdis : Disassembles img fetch) (hload : Loaded opts img fetch)
    {symbols : List UInt8} {a : Int} (hin : opts.InText a)
    (hinit : callsAt fetch a opts.cfvInit = true) (hshown : a ∉ opts.omitAddresses)
    (hbefore : ∀ a', opts.InText a' → a' < a →
      seesCall opts fetch a' opts.cfvInit = false
        ∧ seesCall opts fetch a' opts.cfvQuote = false) :
    ∃ c, Reaches (step opts img) ⟨Replay.init ⟨0, symbols⟩ opts.textStart, .outer⟩ c
      ∧ At c (a + 4) ∧ Sim ⟨[], Flags.init, ⟨0, symbols⟩⟩ [.start] c.vars := by
  obtain ⟨hlo, hhi, halign⟩ := hin
  have hnonneg := hload.nonneg
  have hat : At ⟨Replay.init ⟨0, symbols⟩ opts.textStart, .scan opts.textStart⟩ opts.textStart :=
    ⟨rfl, rfl, by simp only [Replay.init]; omega⟩
  have hk : opts.textStart + 4 * (((a - opts.textStart) / 4).toNat : Int) = a := by omega
  have hsilent : ∀ j : Nat, j < ((a - opts.textStart) / 4).toNat →
      opts.textStart + 4 * j < opts.textEnd
        ∧ Silent opts fetch false (opts.textStart + 4 * j) := by
    intro j hj
    have hlt : opts.textStart + 4 * (j : Int) < a := by omega
    have hinText : opts.InText (opts.textStart + 4 * (j : Int)) := by
      refine ⟨?_, ?_, ?_⟩ <;> omega
    obtain ⟨hi, hq⟩ := hbefore _ hinText hlt
    exact ⟨hinText.2.1, hload.decodes _ hinText, hi, Or.inr hq⟩
  obtain ⟨c₁, hreach₁, hat₁, hkeeps, -⟩ := idle_to opts hdis _ hat rfl hsilent
  rw [hk] at hat₁
  obtain ⟨imm26, hfetch, htarget⟩ := callsAt_eq_true hinit
  have hstep := step_dispatched hdis (dispatched_at hat₁ hfetch hshown)
  rw [dispatch_bl, if_pos htarget] at hstep
  simp only [afterFlow] at hstep
  refine ⟨step opts img c₁, Reaches.head (hreach₁.trans (Reaches.single c₁)), ?_, ?_⟩
  · rw [hstep]
    exact ⟨rfl, hat₁.taken, by simp only [Replay.write, Replay.enter, Replay.move]; omega⟩
  · rw [hstep]
    exact ⟨rfl, hkeeps.replayStop, hkeeps.stack, hkeeps.flags, hkeeps.trace,
      congrArg (· ++ [Line.start]) hkeeps.ofd⟩

/-- At `bl cfv_quote` the replay is turned off, and the `for` loop goes on. -/
theorem quote_step (hdis : Disassembles img fetch) (hload : Loaded opts img fetch) {c : Conf}
    {q : Int} (hat : At c q) (hin : opts.InText q)
    (hquote : callsAt fetch q opts.cfvQuote = true) (hshown : q ∉ opts.omitAddresses) :
    At (step opts img c) (q + 4) ∧ (step opts img c).vars.replayStart = false
      ∧ (step opts img c).vars.replayStop = true ∧ (step opts img c).vars.i ≠ none
      ∧ (step opts img c).vars.ofd = c.vars.ofd := by
  obtain ⟨imm26, hfetch, htarget⟩ := callsAt_eq_true hquote
  have hapart : target q imm26 ≠ opts.cfvInit := fun h => hload.apart (h.symm.trans htarget)
  have hstep := step_dispatched hdis (dispatched_at hat hfetch hshown)
  have hgo : ¬ (opts.textEnd ≤ q ∨ (c.vars.enter q).taken = true) := by
    have htaken : (c.vars.enter q).taken = false := hat.taken
    have hlt := hin.2.1
    simp only [htaken, Bool.false_eq_true, or_false]
    omega
  rw [dispatch_bl, if_neg hapart, if_pos htarget] at hstep
  simp only [afterFlow, if_neg hgo] at hstep
  rw [hstep]
  refine ⟨⟨rfl, hat.taken, ?_⟩, rfl, rfl, ?_, rfl⟩
  · simp only [Replay.enter, Replay.move]
    omega
  · simp [Replay.enter, Replay.move]

theorem quote_ends (hdis : Disassembles img fetch) (hload : Loaded opts img fetch) {c : Conf}
    {q : Int} (hat : At c q) (hin : opts.InText q)
    (hquote : callsAt fetch q opts.cfvQuote = true) (hshown : q ∉ opts.omitAddresses)
    (hlater : ∀ a', q < a' → a' < opts.textEnd + 4 → (a' - opts.textStart) % 4 = 0 →
      seesCall opts fetch a' opts.cfvInit = false) :
    ∃ c', Reaches (step opts img) c c' ∧ c'.mode = .finished ∧ c'.vars.ofd = c.vars.ofd := by
  obtain ⟨hat₁, hoff, hstop, hi, hofd⟩ := quote_step hdis hload hat hin hquote hshown
  obtain ⟨hlo, hhi, halign⟩ := hin
  obtain ⟨k, hk⟩ : ∃ k : Nat, k = ((opts.textEnd - q - 1) / 4).toNat := ⟨_, rfl⟩
  have hsilent : ∀ j : Nat, j < k → q + 4 + 4 * (j : Int) < opts.textEnd
      ∧ Silent opts fetch (step opts img c).vars.replayStop (q + 4 + 4 * j) := by
    intro j hj
    have hinText : opts.InText (q + 4 + 4 * (j : Int)) := by
      refine ⟨?_, ?_, ?_⟩ <;> omega
    have hlt := hinText.2.1
    exact ⟨hlt, hload.decodes _ hinText, hlater _ (by omega) (by omega) hinText.2.2,
      Or.inl hstop⟩
  obtain ⟨c₁, hreach₁, hatEnd, hkeeps, hi₁⟩ := idle_to opts hdis k hat₁ hoff hsilent
  obtain ⟨hfinished, hkeeps₁⟩ := idle_end hdis hatEnd (by omega)
    (hkeeps.replayStart.trans hoff) (hkeeps.replayStop.trans hstop) (hi₁ hi)
    (hlater _ (by omega) (by omega) (by omega))
  refine ⟨step opts img c₁, Reaches.head (hreach₁.trans (Reaches.single c₁)), hfinished, ?_⟩
  rw [hkeeps₁.ofd, hkeeps.ofd, hofd]

/-- The replay follows: `hookit` ends with the control transfers of the
execution in the outfile, and nothing after them. -/
theorem replay_follows (hdis : Disassembles img fetch) (hload : Loaded opts img fetch)
    (hstart : opts.loadAddress ≤ opts.textStart) {symbols : List UInt8} {a q : Int}
    {es : List Executed} (hw : Window opts fetch a es q) (hfound : Found opts fetch a es q)
    (hdec : Along opts Decided ⟨[], Flags.init, ⟨0, symbols⟩⟩ es)
    (hok : FollowsPath opts fetch ⟨0, symbols⟩ es q) :
    Writes opts img ⟨Replay.init ⟨0, symbols⟩ opts.textStart, .outer⟩
      (.start :: es.flatMap (Executed.lines opts)) := by
  obtain ⟨c₁, hreach₁, hat₁, hs₁⟩ := reaches_init hdis hload hw.inText.1 hw.init
    (hfound.shown a (by simp)) hfound.before
  obtain ⟨c₂, p, hreach₂, hat₂, hs₂⟩ := executes_run hdis hload hstart hw.inText.2 hat₁ hs₁ hw.path
    hfound.shown_path hdec hok.path
  obtain ⟨c₃, hreach₃, hfinished, hofd⟩ := quote_ends hdis hload hat₂ hw.inText.2 hw.quote
    (hfound.shown q (by simp)) hok.later
  obtain ⟨n, hn⟩ := (hreach₁.trans hreach₂).trans hreach₃
  refine ⟨n, by rw [hn]; exact hfinished, ?_⟩
  rw [hn, hofd, hs₂.ofd]
  rfl

end Ve

end Oat
