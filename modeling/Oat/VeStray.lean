import Oat.VeReplay

/-!
# Where the replay leaves the path

The converse of `replay_follows`: if the outfile is the list of the
control transfers of an execution, the replay has followed it.
`follows_of_writes` is the induction over the path. An instruction whose
target is not seen either raises or puts a wrong line where the right one
should be (`Exact.sees`), and the outfile only grows (`step_grows`). An
instruction that leads to itself is taken for a duplicate and passed
over; from there the replay only looks at later addresses until it has
written its next line (`Stray`), which is therefore not the line that
should come.

`replay_follows_iff` puts the two directions together.
-/

namespace Oat

namespace Ve

open A64

variable {opts : Opts} {img : Image} {fetch : Int → Option Insn}

/-! ## What a turn writes -/

/-- **Step**: the outfile only grows. -/
theorem step_grows (hdis : Disassembles img fetch) (c : Conf) :
    c.vars.ofd <+: (step opts img c).vars.ofd := by
  cases hd : dispatched opts fetch c with
  | none =>
      have hofd : (step opts img c).vars.ofd = c.vars.ofd := (step_quiet hdis hd).ofd
      exact ⟨[], by rw [hofd, List.append_nil]⟩
  | some p =>
      obtain ⟨g, insn⟩ := p
      rw [step_dispatched hdis hd]
      cases hres : dispatch opts (capstone g insn) (c.vars.enter g) with
      | error err => exact ⟨[], List.append_nil _⟩
      | ok r =>
          obtain ⟨flow, s'⟩ := r
          have hkeeps : Keeps s' (afterFlow opts img g s' flow).vars := afterFlow_keeps g s' flow
          simp only
          rcases (dispatch_ok hres).writes with ⟨-, hofd, -⟩ | ⟨l, hofd, -⟩
          · exact ⟨[], by rw [hkeeps.ofd, hofd, List.append_nil]; rfl⟩
          · exact ⟨[l], by rw [hkeeps.ofd, hofd]; rfl⟩

/-! ## What a run has written -/

theorem Writes.of_reaches {c c' : Conf} {lines : List Line} (h : Writes opts img c lines)
    (hreach : Reaches (step opts img) c c') : Writes opts img c' lines := by
  obtain ⟨n, hfinished, hofd⟩ := h
  obtain ⟨m, rfl⟩ := hreach
  rcases Nat.le_total m n with hmn | hnm
  · obtain ⟨k, rfl⟩ := Nat.exists_eq_add_of_le' hmn
    rw [Function.iterate_add_apply] at hfinished hofd
    exact ⟨k, hfinished, hofd⟩
  · obtain ⟨k, rfl⟩ := Nat.exists_eq_add_of_le' hnm
    rw [Function.iterate_add_apply, Function.iterate_fixed (step_finished hfinished)]
    exact ⟨0, hfinished, hofd⟩

theorem Writes.grows (hdis : Disassembles img fetch) {c : Conf} {lines : List Line}
    (h : Writes opts img c lines) : c.vars.ofd <+: lines := by
  obtain ⟨n, -, rfl⟩ := h
  refine run_inv (I := fun c' : Conf => c.vars.ofd <+: c'.vars.ofd) List.prefix_rfl
    (fun c' hc' => ?_) n
  exact hc'.trans (step_grows hdis c')

theorem Writes.not_raised {c : Conf} {lines : List Line} (h : Writes opts img c lines)
    (err : PyError) : c.mode ≠ .raised err := by
  intro hraised
  obtain ⟨n, hfinished, -⟩ := h
  rw [Function.iterate_fixed (step_raised hraised), hraised] at hfinished
  cases hfinished

/-! ## Past an instruction -/

/-- From here on only addresses past `pc` are looked at, up to the next
line. -/
def Ahead (pc : Int) (c : Conf) : Prop :=
  match c.mode with
  | .outer => pc < c.vars.currentAddress
  | .scan g => pc < g ∧ pc ≤ c.vars.currentAddress ∧ c.vars.taken = false
  | .finished => True
  | .raised _ => True

/-- With `lines` written before, the next line is not about the
instruction at `pc`. -/
def Stray (pc : Int) (lines : List Line) (c : Conf) : Prop :=
  (∃ l more, c.vars.ofd = lines ++ l :: more ∧ l.address ≠ some pc)
    ∨ (c.vars.ofd = lines ∧ Ahead pc c)

theorem afterFor_ahead {pc : Int} {s : Replay} (htaken : s.taken = false)
    (hcurrent : pc ≤ s.currentAddress) : Ahead pc (afterFor opts img s) := by
  have hnext : pc < nextAddress s := by
    simp only [nextAddress, htaken, Bool.false_eq_true, if_false]
    split <;> omega
  unfold afterFor
  split
  · trivial
  · simp only [Ahead]
    split
    · exact hnext
    · rename_i hmode
      repeat' split at hmode
      all_goals cases hmode
    · trivial
    · trivial

theorem stray_scan (hdis : Disassembles img fetch) {pc g : Int} {lines : List Line} {c : Conf}
    (hmode : c.mode = .scan g) (hofd : c.vars.ofd = lines) (hlt : pc < g)
    (hcurrent : pc ≤ c.vars.currentAddress) (htaken : c.vars.taken = false) :
    Stray pc lines (step opts img c) := by
  -- where a turn without a line can go on
  have hgoes : ∀ s : Replay, s.ofd = lines → s.taken = false → pc ≤ s.currentAddress →
      Stray pc lines (afterFor opts img s) ∧ Stray pc lines ⟨s, .scan (g + 4)⟩ := by
    intro s hofd htaken hcurrent
    refine ⟨Or.inr ⟨(afterFor_keeps s).ofd.trans hofd, afterFor_ahead htaken hcurrent⟩,
      Or.inr ⟨hofd, ?_, hcurrent, htaken⟩⟩
    omega
  cases hd : dispatched opts fetch c with
  | none =>
      obtain ⟨i, prev, hstep | hstep⟩ := step_undispatched hdis hmode hd
      · rw [hstep]
        exact (hgoes (c.vars.move i prev) hofd htaken hcurrent).1
      · rw [hstep]
        exact (hgoes (c.vars.move i prev) hofd htaken hcurrent).2
  | some p =>
      obtain ⟨g', insn⟩ := p
      obtain rfl : g' = g := Mode.scan.inj ((dispatched_mode hd).1.symm.trans hmode)
      rw [step_dispatched hdis hd]
      cases hres : dispatch opts (capstone g' insn) (c.vars.enter g') with
      | error err => exact Or.inr ⟨hofd, trivial⟩
      | ok r =>
          obtain ⟨flow, s'⟩ := r
          simp only
          rcases (dispatch_ok hres).writes with ⟨rfl, hofd', htaken', hcur'⟩ | ⟨l, hofd', hl⟩
          · obtain ⟨hend, hgo⟩ := hgoes s' (hofd'.trans hofd) (htaken'.trans htaken)
              (by rw [hcur']; exact hcurrent)
            by_cases hover : opts.textEnd ≤ g' ∨ s'.taken = true
            · rw [afterFlow, if_pos hover]
              exact hend
            · rw [afterFlow, if_neg hover]
              exact hgo
          · refine Or.inl ⟨l, [], ?_, ?_⟩
            · rw [(afterFlow_keeps g' s' flow).ofd, hofd']
              exact congrArg (· ++ [l]) hofd
            · rcases hl with hl | hl
              · simp [hl]
              · rw [hl]
                simp only [ne_eq, Option.some.injEq]
                omega

/-- **Step**, past an instruction. -/
theorem stray_step (hdis : Disassembles img fetch) {pc : Int} {lines : List Line} {c : Conf}
    (h : Stray pc lines c) : Stray pc lines (step opts img c) := by
  rcases h with ⟨l, more, hofd, hl⟩ | ⟨hofd, hahead⟩
  · obtain ⟨new, hnew⟩ : c.vars.ofd <+: (step opts img c).vars.ofd := step_grows hdis c
    refine Or.inl ⟨l, more ++ new, ?_, hl⟩
    rw [← hnew, hofd]
    simp
  · cases hmode : c.mode with
    | outer =>
        have hlt : pc < c.vars.currentAddress := by simpa [Ahead, hmode] using hahead
        refine Or.inr ?_
        simp only [step, hmode]
        split
        · exact ⟨hofd, trivial⟩
        · exact ⟨hofd, hlt, Int.le_of_lt hlt, rfl⟩
    | scan g =>
        obtain ⟨hlt, hcurrent, htaken⟩ :
            pc < g ∧ pc ≤ c.vars.currentAddress ∧ c.vars.taken = false := by
          simpa [Ahead, hmode] using hahead
        exact stray_scan hdis hmode hofd hlt hcurrent htaken
    | finished =>
        rw [step_finished hmode]
        exact Or.inr ⟨hofd, hahead⟩
    | raised err =>
        rw [step_raised hmode]
        exact Or.inr ⟨hofd, hahead⟩

/-- **Run**, past an instruction: the next line cannot be about it. -/
theorem Stray.not_writes (hdis : Disassembles img fetch) {pc : Int} {lines rest : List Line}
    {l : Line} {c : Conf} (h : Stray pc lines c) (hl : l.address = some pc) :
    ¬ Writes opts img c (lines ++ l :: rest) := by
  rintro ⟨n, -, hofd⟩
  have hstray : Stray pc lines ((step opts img)^[n] c) := run_inv h (fun _ => stray_step hdis) n
  rcases hstray with ⟨l', more, hofd', hl'⟩ | ⟨hofd', -⟩
  · rw [hofd', List.append_cancel_left_eq] at hofd
    exact hl' ((List.cons.inj hofd).1 ▸ hl)
  · rw [hofd'] at hofd
    have hlen := congrArg List.length hofd
    rw [List.length_append, List.length_cons] at hlen
    omega

/-! ## Back to the path -/

/-- The instruction that leads to itself is executed next, and has a line
of its own. -/
theorem self_line {e e' : Executed} (hflows : e.flows opts = true) (hself : e.next = e.pc)
    (hpc : e'.pc = e.pc) (hinsn : e'.insn = e.insn) :
    ∃ l, e'.lines opts = [l] ∧ l.address = some e.pc := by
  obtain ⟨pc, insn, taken, next⟩ := e
  obtain ⟨pc', insn', taken', next'⟩ := e'
  subst hpc hinsn
  have hne : next ≠ pc' + 4 := by
    simp only at hself
    omega
  cases hc : insn'.isCondBranch with
  | true => exact ⟨_, cond_lines hc, condLine_address pc' _ insn'⟩
  | false =>
      cases insn' with
      | other word => exact absurd (of_decide_eq_true hflows) hne
      | cset sf cond rd => exact absurd (of_decide_eq_true hflows) hne
      | b imm26 => exact ⟨_, rfl, rfl⟩
      | bl imm26 =>
          have hnext : next = if callsText opts pc' imm26 then target pc' imm26 else pc' + 4 :=
            of_decide_eq_true hflows
          cases hcalls : callsText opts pc' imm26 with
          | true =>
              have hinit : target pc' imm26 ≠ opts.cfvInit := (of_decide_eq_true hcalls).1
              exact ⟨.bl pc' next', by simp [Executed.lines, hinit, hcalls], rfl⟩
          | false =>
              rw [hcalls] at hnext
              exact absurd hnext hne
      | br rn => cases hflows
      | blr rn => cases hflows
      | ret rn => exact ⟨_, rfl, rfl⟩
      | _ => cases hc

/-- With a taken branch to itself behind it, the replay is past it. -/
theorem stray_of_self (hdis : Disassembles img fetch) {c : Conf} {e : Executed}
    {lines : List Line} (hat : AtNext c e) (hofd : c.vars.ofd = lines) (hself : e.next = e.pc)
    (hinsn : (fetch e.pc).isSome = true) : Stray e.pc lines (step opts img c) := by
  have hmode : c.mode = .scan e.pc := hself ▸ hat.mode
  have hcurrent : c.vars.currentAddress = e.pc := by
    rcases hat.current with h | h
    · omega
    · exact h.trans hself
  obtain ⟨insn, hfetch⟩ := Option.isSome_iff_exists.mp hinsn
  have hat' : img.insnAt e.pc = some (capstone e.pc insn) := by rw [hdis e.pc, hfetch]; rfl
  simp only [step, hmode, hat', forBody, capstone_address, if_pos hat.prev.symm]
  refine Or.inr ⟨hofd, ?_, Int.le_of_eq hcurrent.symm, hat.taken⟩
  omega

/-- A right line is written for a target that is seen. -/
theorem sees_of_writes (hdis : Disassembles img fetch) {c : Conf} {p : Progress} {e : Executed}
    {lines rest : List Line} (hd : dispatched opts fetch c = some (e.pc, e.insn))
    (hexact : Exact opts p lines rest e (c.vars.enter e.pc))
    (hwrites : Writes opts img c (lines ++ (e.lines opts ++ rest))) :
    seesTarget opts p e = true := by
  have hstep := step_dispatched hdis hd
  have hstepWrites := hwrites.of_reaches (Reaches.single c)
  refine hexact.sees ?_
  cases hres : dispatch opts (capstone e.pc e.insn) (c.vars.enter e.pc) with
  | error err =>
      rw [hres] at hstep
      rw [hstep] at hstepWrites
      exact absurd rfl (hstepWrites.not_raised err)
  | ok r =>
      obtain ⟨flow, s'⟩ := r
      rw [hres] at hstep
      rw [hstep] at hstepWrites
      refine ⟨flow, s', hres, ?_⟩
      have hkeeps : Keeps s' (afterFlow opts img e.pc s' flow).vars := afterFlow_keeps e.pc s' flow
      rw [← hkeeps.ofd]
      exact hstepWrites.grows hdis

/-- Behind an instruction that leads to itself its own line should come
next, and does not. -/
theorem moves_of_writes (hdis : Disassembles img fetch) {c : Conf} {e : Executed}
    {es : List Executed} {q : Int} (hat : AtNext c e) (hfetch : fetch e.pc = some e.insn)
    (hcalls : e.insn.calls e.pc opts.cfvQuote = false) (hflows : e.flows opts = true)
    (hrest : Executes opts fetch e.next es q) (hquote : callsAt fetch q opts.cfvQuote = true)
    (hwrites : Writes opts img c (c.vars.ofd ++ es.flatMap (Executed.lines opts))) :
    e.next ≠ e.pc := by
  intro hself
  have hstray : Stray e.pc c.vars.ofd (step opts img c) :=
    stray_of_self hdis hat rfl hself (by rw [hfetch]; rfl)
  have hstepWrites := hwrites.of_reaches (Reaches.single c)
  cases es with
  | nil =>
      obtain rfl : e.next = q := hrest
      rw [hself, callsAt, hfetch, Option.any_some, hcalls] at hquote
      cases hquote
  | cons e' es =>
      obtain ⟨hpc', -, hfetch', -⟩ := hrest
      have hinsn : e'.insn = e.insn := by
        rw [hself, hfetch] at hfetch'
        exact (Option.some.inj hfetch').symm
      obtain ⟨l, hlines, hl⟩ := self_line hflows hself (hpc'.trans hself) hinsn
      rw [List.flatMap_cons, hlines] at hstepWrites
      exact hstray.not_writes hdis hl hstepWrites

/-- A right outfile is written along the path only. -/
theorem follows_of_writes (hdis : Disassembles img fetch) (hload : Loaded opts img fetch)
    (hstart : opts.loadAddress ≤ opts.textStart) {q : Int} (hq : opts.InText q)
    (hquote : callsAt fetch q opts.cfvQuote = true)
    {es : List Executed} {a : Int} {p : Progress} {lines : List Line} {c : Conf}
    (hat : At c a) (hs : Sim p lines c.vars) (hpath : Executes opts fetch a es q)
    (hshown : ∀ e ∈ es, e.pc ∉ opts.omitAddresses) (hdec : Along opts Decided p es)
    (hwrites : Writes opts img c (lines ++ es.flatMap (Executed.lines opts))) :
    Along opts (Followed opts) p es := by
  induction es generalizing a p lines c with
  | nil => trivial
  | cons e es ih =>
      have hnext := hpath.next_inText hq
      obtain ⟨rfl, hin, hfetch, hcalls, hflows, hrest⟩ := hpath
      have homit := hshown e List.mem_cons_self
      have henter : Sim p lines (c.vars.enter e.pc) :=
        ⟨hs.on, hs.going, hs.stack, hs.flags, hs.trace, hs.ofd⟩
      rw [List.flatMap_cons] at hwrites
      have hsees : seesTarget opts p e = true :=
        sees_of_writes hdis (dispatched_at hat hfetch homit)
          (exact_executed _ henter hnext.2.1 hcalls hflows hdec.1) hwrites
      obtain ⟨c₁, hreach₁, hat₁, hs₁⟩ := executed_step hdis hload hstart hat hs hin hnext homit
        hfetch hcalls hflows hdec.1 hsees
      rw [← List.append_assoc] at hwrites
      have hwrites₁ := hwrites.of_reaches hreach₁
      have hmoves : e.next ≠ e.pc :=
        moves_of_writes hdis hat₁ hfetch hcalls hflows hrest hquote (by rw [hs₁.ofd]; exact hwrites₁)
      exact ⟨⟨hmoves, hsees⟩, ih (hat₁.at_of_moves hmoves) hs₁ hrest
        (fun e' he' => hshown e' (List.mem_cons_of_mem e he')) hdec.2 hwrites₁⟩

/-- Where nothing more is to be written, no `bl cfv_init` follows. -/
theorem later_of_writes (hdis : Disassembles img fetch) (hload : Loaded opts img fetch) {c : Conf}
    {q : Int} (hat : At c q) (hin : opts.InText q)
    (hquote : callsAt fetch q opts.cfvQuote = true) (hshown : q ∉ opts.omitAddresses)
    (hwrites : Writes opts img c c.vars.ofd) :
    ∀ a', q < a' → a' < opts.textEnd + 4 → (a' - opts.textStart) % 4 = 0 →
      seesCall opts fetch a' opts.cfvInit = false := by
  obtain ⟨hat₁, hoff, hstop, -, hofd⟩ := quote_step hdis hload hat hin hquote hshown
  obtain ⟨hlo, hhi, halign⟩ := hin
  have hall : ∀ k : Nat, q + 4 + 4 * (k : Int) < opts.textEnd + 4 →
      seesCall opts fetch (q + 4 + 4 * k) opts.cfvInit = false := by
    intro k
    induction k using Nat.strongRecOn with
    | ind k ih =>
        intro hk
        have hsilent : ∀ j : Nat, j < k → q + 4 + 4 * (j : Int) < opts.textEnd
            ∧ Silent opts fetch (step opts img c).vars.replayStop (q + 4 + 4 * j) := by
          intro j hj
          have hinText : opts.InText (q + 4 + 4 * (j : Int)) := by
            refine ⟨?_, ?_, ?_⟩ <;> omega
          exact ⟨hinText.2.1, hload.decodes _ hinText, ih j hj (by omega), Or.inl hstop⟩
        obtain ⟨c₁, hreach, hatk, hkeeps, -⟩ := idle_to opts hdis k hat₁ hoff hsilent
        by_contra hcall
        simp only [seesCall, decide_eq_false_iff_not, not_not] at hcall
        obtain ⟨imm26, hfetch, htarget⟩ := callsAt_eq_true hcall.2
        have hstep := step_dispatched hdis (dispatched_at hatk hfetch hcall.1)
        rw [dispatch_bl, if_pos htarget] at hstep
        have hmore : (step opts img c₁).vars.ofd = c.vars.ofd ++ [.start] := by
          rw [hstep, ← hofd, ← hkeeps.ofd]
          rfl
        have hprefix := (hwrites.of_reaches
          (((Reaches.single c).trans hreach).trans (Reaches.single c₁))).grows hdis
        rw [hmore] at hprefix
        have hlen := hprefix.length_le
        rw [List.length_append, List.length_singleton] at hlen
        omega
  intro a' hlt hend halign'
  have hk : q + 4 + 4 * (((a' - q - 4) / 4).toNat : Int) = a' := by omega
  have h := hall ((a' - q - 4) / 4).toNat (by omega)
  rw [hk] at h
  exact h

/-- For every text, and every execution from a `bl cfv_init` to the next
`bl cfv_quote` that the search for `bl cfv_init` finds, whose conditional
branches are decided the way they went: `hookit` ends with the control
transfers of the execution in the outfile, and nothing after them,
exactly when it stays on the path and meets no other `bl cfv_init`. -/
theorem replay_follows_iff (hdis : Disassembles img fetch) (hload : Loaded opts img fetch)
    {file : List UInt8} {c₀ : Conf} (h₀ : hookitStart opts img file = .ok c₀) {a q : Int}
    {es : List Executed} (hw : Window opts fetch a es q) (hfound : Found opts fetch a es q)
    (hdec : Along opts Decided ⟨[], Flags.init, c₀.vars.trace⟩ es) :
    Writes opts img c₀ (.start :: es.flatMap (Executed.lines opts))
      ↔ FollowsPath opts fetch c₀.vars.trace es q := by
  obtain ⟨hstart, symbols, rfl⟩ := hookitStart_ok h₀
  constructor
  · intro hwrites
    obtain ⟨c₁, hreach₁, hat₁, hs₁⟩ := reaches_init hdis hload hw.inText.1 hw.init
      (hfound.shown a (by simp)) hfound.before
    have hpath := follows_of_writes hdis hload hstart hw.inText.2 hw.quote hat₁ hs₁ hw.path
      hfound.shown_path hdec (hwrites.of_reaches hreach₁)
    obtain ⟨c₂, p, hreach₂, hat₂, hs₂⟩ := executes_run hdis hload hstart hw.inText.2 hat₁ hs₁
      hw.path hfound.shown_path hdec hpath
    have hwrites₂ := hwrites.of_reaches (hreach₁.trans hreach₂)
    refine ⟨hpath, later_of_writes hdis hload hat₂ hw.inText.2 hw.quote (hfound.shown q (by simp))
      ?_⟩
    rw [hs₂.ofd]
    exact hwrites₂
  · exact replay_follows hdis hload hstart hw hfound hdec

/-! ## Two programs -/

theorem sample_loaded (insns : List Insn) :
    Loaded (sampleOpts insns.length) (imageOf 0x1000 insns) (programAt 0x1000 insns) := by
  refine ⟨by simp [sampleOpts], by simp [sampleOpts, imageOf], fun a hin => ?_,
    by simp [sampleOpts]⟩
  obtain ⟨hlo, hhi, halign⟩ := hin
  simp only [sampleOpts] at hlo hhi halign
  have hlt : ((a - 0x1000) / 4).toNat < insns.length := by omega
  rw [programAt, if_pos ⟨hlo, halign⟩, List.getElem?_eq_getElem hlt]
  rfl

/-- A loop around a call of a function that calls the library. -/
def callLoop : List Insn :=
  [blTo 0x1000 0x800, blTo 0x1004 0x1010, .cbnz true (-1) x0, blTo 0x100c 0x900,
    blTo 0x1010 0x700, .ret lr]

def callLoopRun : List Executed :=
  [⟨0x1004, blTo 0x1004 0x1010, false, 0x1010⟩, ⟨0x1010, blTo 0x1010 0x700, false, 0x1014⟩,
    ⟨0x1014, .ret lr, false, 0x1008⟩, ⟨0x1008, .cbnz true (-1) x0, true, 0x1004⟩,
    ⟨0x1004, blTo 0x1004 0x1010, false, 0x1010⟩, ⟨0x1010, blTo 0x1010 0x700, false, 0x1014⟩,
    ⟨0x1014, .ret lr, false, 0x1008⟩, ⟨0x1008, .cbnz true (-1) x0, false, 0x100c⟩]

theorem callLoop_window :
    Window (sampleOpts 6) (programAt 0x1000 callLoop) 0x1000 callLoopRun 0x100c :=
  ⟨by decide, by decide +kernel, by decide +kernel, by decide +kernel⟩

theorem callLoop_found : Found (sampleOpts 6) (programAt 0x1000 callLoop) 0x1000 callLoopRun 0x100c := by
  refine ⟨by decide, ?_⟩
  intro a' hin hlt
  exact absurd hin.1 (by simpa [sampleOpts] using hlt)

theorem replay_follows_iff_sample :
    Writes (sampleOpts 6) (imageOf 0x1000 callLoop) (sampleStart [symN, symY])
      [.start, .bl 0x1004 0x1010, .blSkip 0x1010, .ret 0x1014 0x1008, .cbnz 0x1008 (some 0x1004),
        .bl 0x1004 0x1010, .blSkip 0x1010, .ret 0x1014 0x1008, .cbnz 0x1008 none] := by
  have h₀ : hookitStart (sampleOpts 6) (imageOf 0x1000 callLoop) [symN, symY]
      = .ok (sampleStart [symN, symY]) := rfl
  have hload : Loaded (sampleOpts 6) (imageOf 0x1000 callLoop) (programAt 0x1000 callLoop) :=
    sample_loaded callLoop
  refine (replay_follows_iff (imageOf_disassembles 0x1000 callLoop) hload h₀ callLoop_window
    callLoop_found (by decide +kernel)).mpr ⟨by decide +kernel, ?_⟩
  intro a' hlo hhi halign
  simp only [sampleOpts] at hhi halign ⊢
  obtain rfl | rfl | rfl : a' = 0x1010 ∨ a' = 0x1014 ∨ a' = 0x1018 := by omega
  all_goals decide +kernel

/-- A CBZ to itself. -/
def selfLoop : List Insn := [blTo 0x1000 0x800, .cbz true 0 x0, blTo 0x1008 0x900]

def selfLoopRun : List Executed :=
  [⟨0x1004, .cbz true 0 x0, true, 0x1004⟩, ⟨0x1004, .cbz true 0 x0, false, 0x1008⟩]

/-- With the trace `"yn"` both turns of the loop are decided the way they
went, and the second is missing from the outfile. -/
theorem self_branch_lost :
    Loaded (sampleOpts 3) (imageOf 0x1000 selfLoop) (programAt 0x1000 selfLoop)
      ∧ Window (sampleOpts 3) (programAt 0x1000 selfLoop) 0x1000 selfLoopRun 0x1008
      ∧ Along (sampleOpts 3) Decided ⟨[], Flags.init, ⟨0, [symY, symN]⟩⟩ selfLoopRun
      ∧ Writes (sampleOpts 3) (imageOf 0x1000 selfLoop) (sampleStart [symY, symN])
          [.start, .cbz 0x1004 (some 0x1004)]
      ∧ ¬ Writes (sampleOpts 3) (imageOf 0x1000 selfLoop) (sampleStart [symY, symN])
          (.start :: selfLoopRun.flatMap (Executed.lines (sampleOpts 3))) := by
  refine ⟨sample_loaded selfLoop, ⟨by decide, by decide +kernel, by decide +kernel,
    by decide +kernel⟩, by decide +kernel, ⟨12, by decide +kernel⟩, ?_⟩
  rintro ⟨n, hn⟩
  have hrun : ∀ k ≤ 12, ¬ (((step (sampleOpts 3) (imageOf 0x1000 selfLoop))^[k]
        (sampleStart [symY, symN])).mode = .finished
      ∧ ((step (sampleOpts 3) (imageOf 0x1000 selfLoop))^[k]
        (sampleStart [symY, symN])).vars.ofd
          = .start :: selfLoopRun.flatMap (Executed.lines (sampleOpts 3))) := by
    decide +kernel
  exact run_settles (P := fun c : Conf => ¬ (c.mode = .finished ∧ c.vars.ofd
    = .start :: selfLoopRun.flatMap (Executed.lines (sampleOpts 3)))) (by decide +kernel) hrun n hn

end Ve

end Oat
