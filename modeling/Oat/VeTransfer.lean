import Oat.VeRun

/-!
# Where a turn leads

`transfer` is where the dispatch of an instruction sends the replay, and
with which stack, and `switched` what it makes of the two switches.
`step_transfer` is the turn: it raises, or goes on in the `for` loop, or
ends it on the way to the target (`BreaksOff`). `step_forTurn` is the same
for every turn of the `for` loop, with the duplicates, the omitted
addresses and the end of the disassembly.
-/

namespace Oat

namespace Ve

open A64

variable {opts : Opts} {img : Image} {fetch : Int → Option Insn}

/-- Where the instruction at `a` sends the replay, if it breaks off. -/
def transfer (opts : Opts) (a : Int) (insn : Insn) (s : Replay) : Option (Int × List Int) :=
  if s.replayStart then
    match insn with
    | .b imm26 => if target a imm26 < opts.textEnd then some (target a imm26, s.stack) else none
    | .bl imm26 =>
        if target a imm26 = opts.cfvInit ∨ target a imm26 = opts.cfvQuote then none
        else if blCalls opts a imm26 then some (blTarget a imm26, (a + 4) :: s.stack) else none
    | .ret _ => s.stack.head?.map fun t => (t, s.stack.tail)
    | insn =>
        if insn.isCondBranch then
          match s.trace.nextBranch with
          | .ok (nb, _) => if takes insn s.flags nb then some (seenTarget a insn, s.stack) else none
          | .error _ => none
        else none
  else none

/-- The instructions that break off, and where to. -/
inductive BreaksOff (opts : Opts) (a : Int) (s : Replay) : Insn → Int → List Int → Prop where
  | b (imm26) (hend : target a imm26 < opts.textEnd) :
      BreaksOff opts a s (.b imm26) (target a imm26) s.stack
  | bl (imm26) (hcalls : blCalls opts a imm26 = true) :
      BreaksOff opts a s (.bl imm26) (blTarget a imm26) ((a + 4) :: s.stack)
  | ret (rn) {t stack} (hstack : s.stack = t :: stack) : BreaksOff opts a s (.ret rn) t stack
  | cond {insn nb trace} (hc : insn.isCondBranch = true)
      (hnb : s.trace.nextBranch = .ok (nb, trace)) (htakes : takes insn s.flags nb = true) :
      BreaksOff opts a s insn (seenTarget a insn) s.stack

theorem transfer_eq_some {a t : Int} {insn : Insn} {s : Replay} {stack : List Int}
    (h : transfer opts a insn s = some (t, stack)) :
    s.replayStart = true ∧ BreaksOff opts a s insn t stack := by
  unfold transfer at h
  split at h
  · rename_i hon
    refine ⟨hon, ?_⟩
    split at h
    · split at h
      · rename_i imm26 hend
        obtain ⟨rfl, rfl⟩ := Prod.mk.inj (Option.some.inj h)
        exact .b imm26 hend
      · cases h
    · rename_i imm26
      split at h
      · cases h
      · split at h
        · rename_i hcalls
          obtain ⟨rfl, rfl⟩ := Prod.mk.inj (Option.some.inj h)
          exact .bl imm26 hcalls
        · cases h
    · rename_i rn
      cases hstack : s.stack with
      | nil =>
          rw [hstack] at h
          cases h
      | cons r rest =>
          rw [hstack] at h
          obtain ⟨rfl, rfl⟩ := Prod.mk.inj (Option.some.inj h)
          exact .ret rn hstack
    · split at h
      · rename_i hc
        split at h
        · rename_i nb trace hnb
          split at h
          · rename_i htakes
            obtain ⟨rfl, rfl⟩ := Prod.mk.inj (Option.some.inj h)
            exact .cond hc hnb htakes
          · cases h
        · cases h
      · cases h
  · cases h

/-- `replay_start` and `replay_stop` after the instruction at `a`. -/
def switched (opts : Opts) (a : Int) (insn : Insn) (s : Replay) : Bool × Bool :=
  if insn.calls a opts.cfvInit then (true, s.replayStop)
  else if insn.calls a opts.cfvQuote then (false, true)
  else (s.replayStart, s.replayStop)

/-- What a dispatch leaves alone, and the switches. -/
structure Stays (opts : Opts) (a : Int) (insn : Insn) (s s' : Replay) : Prop where
  i : s'.i = s.i
  prev : s'.prevAddress = s.prevAddress
  current : s'.currentAddress = s.currentAddress
  switches : (s'.replayStart, s'.replayStop) = switched opts a insn s

/-- The flow after a dispatch, when it goes on and when it leaves. -/
def Flows (s s' : Replay) (flow : Flow) : Option (Int × List Int) → Prop
  | none => flow ≠ .brk ∧ s'.taken = s.taken ∧ s'.stack = s.stack
  | some (t, stack) => flow = .brk ∧ s'.taken = true ∧ s'.targetAddress = t ∧ s'.stack = stack

theorem branchOn_transfer {s : Replay} {a : Int} {insn : Insn} {taken : Bool} {t : Int}
    {trace : ExecutionTrace} {line : Option Int → Line} {flow : Flow} {s' : Replay}
    (hplain : switched opts a insn s = (s.replayStart, s.replayStop))
    (h : branchOn s (if taken then ⟨true, t⟩ else ⟨false, 0⟩) trace line = (flow, s')) :
    Stays opts a insn s s' ∧ Flows s s' flow (if taken then some (t, s.stack) else none) := by
  cases taken with
  | true =>
      obtain ⟨rfl, rfl⟩ := Prod.mk.inj h
      exact ⟨⟨rfl, rfl, rfl, hplain.symm⟩, rfl, rfl, rfl, rfl⟩
  | false =>
      obtain ⟨rfl, rfl⟩ := Prod.mk.inj h
      exact ⟨⟨rfl, rfl, rfl, hplain.symm⟩, nofun, rfl, rfl⟩

theorem bl_transfer {a : Int} {imm26 : BitVec 26} {s s' : Replay} {flow : Flow}
    (h : dispatch opts (capstone a (.bl imm26)) s = .ok (flow, s')) :
    Stays opts a (.bl imm26) s s' ∧ Flows s s' flow (transfer opts a (.bl imm26) s) := by
  rw [dispatch_bl] at h
  by_cases hinit : target a imm26 = opts.cfvInit
  · rw [if_pos hinit] at h
    obtain ⟨rfl, rfl⟩ := Prod.mk.inj (Except.ok.inj h)
    refine ⟨⟨rfl, rfl, rfl, by simp [switched, Insn.calls, hinit, Replay.write]⟩, ?_⟩
    simp [transfer, hinit, Flows, Replay.write]
  · rw [if_neg hinit] at h
    by_cases hquote : target a imm26 = opts.cfvQuote
    · rw [if_pos hquote] at h
      obtain ⟨rfl, rfl⟩ := Prod.mk.inj (Except.ok.inj h)
      have hne : opts.cfvQuote ≠ opts.cfvInit := fun heq => hinit (hquote.trans heq)
      refine ⟨⟨rfl, rfl, rfl, by simp [switched, Insn.calls, hquote, hne]⟩, ?_⟩
      simp [transfer, hquote, Flows]
    · rw [if_neg hquote] at h
      have hplain : switched opts a (.bl imm26) s = (s.replayStart, s.replayStop) := by
        simp [switched, Insn.calls, hinit, hquote]
      cases hs : s.replayStart with
      | false =>
          rw [if_pos hs] at h
          obtain ⟨rfl, rfl⟩ := Prod.mk.inj (Except.ok.inj h)
          exact ⟨⟨rfl, rfl, rfl, hplain.symm⟩, by simp [transfer, hs, Flows]⟩
      | true =>
          rw [if_neg (by simp [hs])] at h
          cases hcalls : blCalls opts a imm26 with
          | true =>
              rw [hcalls, if_pos rfl] at h
              obtain ⟨rfl, rfl⟩ := Prod.mk.inj (Except.ok.inj h)
              refine ⟨⟨rfl, rfl, rfl, hplain.symm⟩, ?_⟩
              simp [transfer, hs, hinit, hquote, hcalls, Flows, Replay.write, Replay.take]
          | false =>
              rw [hcalls, if_neg (by simp)] at h
              obtain ⟨rfl, rfl⟩ := Prod.mk.inj (Except.ok.inj h)
              refine ⟨⟨rfl, rfl, rfl, hplain.symm⟩, ?_⟩
              simp [transfer, hs, hinit, hquote, hcalls, Flows, Replay.write]

theorem cond_transfer {a : Int} {insn : Insn} {s s' : Replay} {flow : Flow}
    (hs : s.replayStart = true) (hc : insn.isCondBranch = true)
    (h : dispatch opts (capstone a insn) s = .ok (flow, s')) :
    Stays opts a insn s s' ∧ Flows s s' flow (transfer opts a insn s) := by
  have hplain : switched opts a insn s = (s.replayStart, s.replayStop) := by
    cases insn <;> first | rfl | cases hc
  rw [dispatch_condBranch hc hs] at h
  obtain ⟨⟨nb, trace⟩, hnb, hret⟩ := bind_eq_ok.mp h
  have hleads : transfer opts a insn s
      = if takes insn s.flags nb then some (seenTarget a insn, s.stack) else none := by
    unfold transfer
    rw [if_pos hs]
    split
    · cases hc
    · cases hc
    · cases hc
    · simp only [hc, if_true, hnb]
  rw [hleads]
  exact branchOn_transfer hplain (Except.ok.inj hret)

/-- What the dispatch of an instruction does to the control. -/
theorem dispatch_transfer {a : Int} {insn : Insn} {s s' : Replay} {flow : Flow}
    (h : dispatch opts (capstone a insn) s = .ok (flow, s')) :
    Stays opts a insn s s' ∧ Flows s s' flow (transfer opts a insn s) := by
  cases hs : s.replayStart with
  | false =>
      cases insn with
      | bl imm26 => exact bl_transfer h
      | _ =>
          rw [dispatch_idle hs (by simp)] at h
          obtain ⟨rfl, rfl⟩ := Prod.mk.inj (Except.ok.inj h)
          exact ⟨⟨rfl, rfl, rfl, rfl⟩, by simp [transfer, hs, Flows]⟩
  | true =>
      cases hc : insn.isCondBranch with
      | true => exact cond_transfer hs hc h
      | false =>
          cases insn with
          | other word =>
              obtain ⟨rfl, rfl⟩ := Prod.mk.inj (Except.ok.inj h)
              exact ⟨⟨rfl, rfl, rfl, rfl⟩, by simp [transfer, Insn.isCondBranch, Flows]⟩
          | cset sf cond rd =>
              rw [dispatch_cset hs] at h
              obtain ⟨rfl, rfl⟩ := Prod.mk.inj (Except.ok.inj h)
              exact ⟨⟨rfl, rfl, rfl, rfl⟩, by simp [transfer, Insn.isCondBranch, Flows]⟩
          | b imm26 =>
              rw [dispatch_b hs] at h
              have hbranch : Stays opts a (.b imm26) s s' ∧ Flows s s' flow
                  (if decide (target a imm26 < opts.textEnd) then some (target a imm26, s.stack)
                    else none) :=
                branchOn_transfer rfl (by simpa using Except.ok.inj h)
              simpa [transfer, hs] using hbranch
          | bl imm26 => exact bl_transfer h
          | br rn =>
              simp only [dispatch, capstone, hs, if_true] at h
              obtain ⟨rfl, rfl⟩ := Prod.mk.inj (Except.ok.inj h)
              refine ⟨⟨rfl, rfl, rfl, rfl⟩, ?_⟩
              simp [transfer, Insn.isCondBranch, Flows, Replay.write]
          | blr rn =>
              simp only [dispatch, capstone, hs, if_true] at h
              obtain ⟨rfl, rfl⟩ := Prod.mk.inj (Except.ok.inj h)
              refine ⟨⟨rfl, rfl, rfl, rfl⟩, ?_⟩
              simp [transfer, Insn.isCondBranch, Flows, Replay.write]
          | ret rn =>
              cases hstack : s.stack with
              | nil =>
                  simp only [dispatch, capstone, hs, if_true, hstack] at h
                  cases h
              | cons t stack =>
                  rw [dispatch_ret hs rn hstack] at h
                  obtain ⟨rfl, rfl⟩ := Prod.mk.inj (Except.ok.inj h)
                  refine ⟨⟨rfl, rfl, rfl, rfl⟩, ?_⟩
                  simp [transfer, hs, hstack, Flows, Replay.write, Replay.take]
          | _ => cases hc

/-- The configuration after a turn that went as far as `s`. -/
def Leaves (opts : Opts) (img : Image) (g : Int) (stack : List Int) (s : Replay) (c' : Conf) :
    Option (Int × List Int) → Prop
  | none => s.taken = false ∧ s.stack = stack
      ∧ (c' = ⟨s, .scan (g + 4)⟩ ∨ (opts.textEnd ≤ g ∧ c' = afterFor opts img s))
  | some (t, stack') => s.taken = true ∧ s.targetAddress = t ∧ s.stack = stack'
      ∧ c' = afterFor opts img s

/-- A turn that dispatches, seen from where it leads. -/
theorem step_transfer (hdis : Disassembles img fetch) {c : Conf} {g : Int} {insn : Insn}
    (hd : dispatched opts fetch c = some (g, insn)) (htaken : c.vars.taken = false) :
    (∃ err, dispatch opts (capstone g insn) (c.vars.enter g) = .error err
        ∧ step opts img c = ⟨c.vars, .raised err⟩)
      ∨ ∃ flow s, dispatch opts (capstone g insn) (c.vars.enter g) = .ok (flow, s)
        ∧ Stays opts g insn (c.vars.enter g) s
        ∧ Leaves opts img g c.vars.stack s (step opts img c) (transfer opts g insn c.vars) := by
  rw [step_dispatched hdis hd]
  cases hres : dispatch opts (capstone g insn) (c.vars.enter g) with
  | error err => exact Or.inl ⟨err, rfl, rfl⟩
  | ok r =>
      obtain ⟨flow, s⟩ := r
      obtain ⟨hstays, hflows⟩ := dispatch_transfer hres
      refine Or.inr ⟨flow, s, rfl, hstays, ?_⟩
      have hsame : transfer opts g insn (c.vars.enter g) = transfer opts g insn c.vars := rfl
      rw [hsame] at hflows
      cases htransfer : transfer opts g insn c.vars with
      | none =>
          rw [htransfer] at hflows
          obtain ⟨hflow, htaken', hstack⟩ := hflows
          have hfalse : s.taken = false := htaken'.trans htaken
          refine ⟨hfalse, hstack, ?_⟩
          cases flow with
          | brk => exact absurd rfl hflow
          | cont => exact Or.inl rfl
          | pass =>
              by_cases hend : opts.textEnd ≤ g
              · exact Or.inr ⟨hend, by simp only [afterFlow, hend, true_or, if_true]⟩
              · exact Or.inl (by simp [afterFlow, hend, hfalse])
      | some p =>
          obtain ⟨t, stack⟩ := p
          rw [htransfer] at hflows
          obtain ⟨rfl, htaken', htarget, hstack⟩ := hflows
          exact ⟨htaken', htarget, hstack, rfl⟩

/-! ## The end of the `for` loop -/

variable (opts img) in
/-- The `while` loop ends, or goes on at an address of the text. -/
theorem afterFor_cases (s : Replay) : Halted (afterFor opts img s)
    ∨ (s.replayStop = false ∧ nextAddress s < opts.textEnd
      ∧ afterFor opts img s = ⟨{ s with currentAddress := nextAddress s }, .outer⟩) := by
  unfold afterFor
  split
  · exact Or.inl (Or.inr ⟨_, rfl⟩)
  · dsimp only
    split
    · exact Or.inl (Or.inl rfl)
    · rename_i hend
      split
      · exact Or.inl (Or.inl rfl)
      · split
        · exact Or.inl (Or.inl rfl)
        · rename_i hstop
          exact Or.inr ⟨by simpa using hstop, by omega, rfl⟩

theorem afterFor_stop {s : Replay} (h : s.replayStop = true) : Halted (afterFor opts img s) := by
  rcases afterFor_cases opts img s with hhalted | ⟨hgoing, -⟩
  · exact hhalted
  · rw [h] at hgoing
    cases hgoing

/-- The variables when the `while` loop begins again. -/
def Replay.restart (s : Replay) : Replay :=
  { s with currentAddress := nextAddress s, taken := false }

variable (opts img) in
/-- The end of the `for` loop, and the next turn of the `while` loop. -/
theorem afterFor_restart (s : Replay) : Halted (afterFor opts img s)
    ∨ (nextAddress s < opts.textEnd
      ∧ step opts img (afterFor opts img s) = ⟨s.restart, .scan (nextAddress s)⟩) := by
  rcases afterFor_cases opts img s with hhalted | ⟨hgoing, hend, hafter⟩
  · exact Or.inl hhalted
  · refine Or.inr ⟨hend, ?_⟩
    rw [hafter]
    simp [step, hgoing, Replay.restart]

theorem lt_nextAddress {s : Replay} (htaken : s.taken = false) :
    s.currentAddress < nextAddress s := by
  simp only [nextAddress, htaken, Bool.false_eq_true, if_false]
  split <;> omega

/-- The last instruction of the text ends the replay, when it does not
leave. -/
theorem afterFor_past {s : Replay} {g : Int} (htaken : s.taken = false) (hi : s.i = some g)
    (hend : opts.textEnd ≤ g) : (afterFor opts img s).mode = .finished := by
  have hnext : opts.textEnd ≤ nextAddress s := by
    simp only [nextAddress, htaken, hi, Option.getD_some, Bool.false_eq_true, if_false]
    split <;> omega
  unfold afterFor
  rw [if_neg (by simp [hi])]
  simp [hnext]

/-! ## A turn of the `for` loop -/

/-- The variables when the loop has passed the word at `g`. -/
structure Past (s₀ : Replay) (g : Int) (s : Replay) : Prop where
  taken : s.taken = false
  prev : s.prevAddress = g
  i : s.i = some g
  current : s.currentAddress = s₀.currentAddress

/-- What becomes of `replay_start` and `replay_stop`. -/
inductive Switches (s₀ s : Replay) : Prop where
  | same (hstart : s.replayStart = s₀.replayStart) (hstop : s.replayStop = s₀.replayStop)
  | init (hstart : s.replayStart = true) (hstop : s.replayStop = s₀.replayStop)
  | quote (hstop : s.replayStop = true)

theorem Switches.stop {s₀ s : Replay} (h : Switches s₀ s) (hstop : s₀.replayStop = true) :
    s.replayStop = true := by
  cases h with
  | same _ h => exact h.trans hstop
  | init _ h => exact h.trans hstop
  | quote h => exact h

theorem Stays.switch {a : Int} {insn : Insn} {s₀ s : Replay}
    (h : Stays opts a insn (s₀.enter a) s) : Switches s₀ s := by
  have hswitches := h.switches
  rw [switched] at hswitches
  split at hswitches
  · obtain ⟨hstart, hstop⟩ := Prod.mk.inj hswitches
    exact .init hstart hstop
  · split at hswitches
    · exact .quote (Prod.mk.inj hswitches).2
    · obtain ⟨hstart, hstop⟩ := Prod.mk.inj hswitches
      exact .same hstart hstop

variable (opts img fetch) in
/-- What a turn of the `for` loop can do at `g`. -/
inductive ForTurn (c : Conf) (g : Int) : Prop where
  | halts (h : Halted (step opts img c))
  | goes (s : Replay) (hstep : step opts img c = ⟨s, .scan (g + 4)⟩) (hpast : Past c.vars g s)
      (hswitches : Switches c.vars s) (hsome : (fetch g).isSome = true)
  | ends (hstep : step opts img c = afterFor opts img c.vars)
  | leaves (s : Replay) (hstep : step opts img c = afterFor opts img s)
      (hon : c.vars.replayStart = true) (hswitches : Switches c.vars s)

variable (opts) in
theorem step_forTurn (hdis : Disassembles img fetch) {c : Conf} {g : Int} (hmode : c.mode = .scan g)
    (htaken : c.vars.taken = false) : ForTurn opts img fetch c g := by
  cases hd : dispatched opts fetch c with
  | none =>
      rcases step_skipped hdis hmode hd with ⟨-, hstep⟩ | ⟨hsome, hprev, hstep⟩ | ⟨hsome, -, hstep⟩
      · exact .ends hstep
      · exact .goes _ hstep ⟨htaken, hprev.symm, rfl, rfl⟩ (.same rfl rfl) hsome
      · split at hstep
        · rename_i hend
          refine .halts (Or.inl ?_)
          rw [hstep]
          exact afterFor_past htaken rfl hend
        · exact .goes _ hstep ⟨htaken, rfl, rfl, rfl⟩ (.same rfl rfl) hsome
  | some p =>
      obtain ⟨g', insn⟩ := p
      obtain ⟨hmode', -, -, hfetch⟩ := dispatched_mode hd
      obtain rfl : g = g' := Mode.scan.inj (hmode.symm.trans hmode')
      rcases step_transfer hdis hd htaken with ⟨err, -, hstep⟩ | ⟨-, s, -, hstays, hleaves⟩
      · exact .halts (Or.inr ⟨err, by rw [hstep]⟩)
      · have hswitches : Switches c.vars s := hstays.switch
        cases htransfer : transfer opts g insn c.vars with
        | none =>
            rw [htransfer] at hleaves
            obtain ⟨htaken', -, hstep | ⟨hend, hstep⟩⟩ := hleaves
            · exact .goes s hstep ⟨htaken', hstays.prev, hstays.i, hstays.current⟩ hswitches
                (by rw [hfetch]; rfl)
            · refine .halts (Or.inl ?_)
              rw [hstep]
              exact afterFor_past htaken' hstays.i hend
        | some p =>
            rw [htransfer] at hleaves
            exact .leaves s hleaves.2.2.2 (transfer_eq_some htransfer).1 hswitches

end Ve

end Oat
