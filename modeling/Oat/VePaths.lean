import Oat.VeGraph
import Oat.VeStray

/-!
# Whatever the trace says

The trace comes from the attested device, and anything may be in it.
`outfile_is_path` is what a verifier can rely on all the same: when
`hookit` gets to `bl cfv_quote`, the outfile lists an execution of the
text, from the `bl cfv_init` it began at, in which each conditional
branch goes the way the trace decides and each RET goes back to its call.
The trace chooses among the paths of the text, and can do no more.

The condition is on the instructions the replay meets (`Sound`): they are
disassembled, in the text, not omitted, no branches to a register, and
`hookit` sees their targets where they are. The invariant over the turns
of both loops is `Phase`.
-/

namespace Oat

namespace Ve

open A64

/-! ## The execution the trace decides -/

def branchTarget (a : Int) : Insn → Int
  | .bCond _ imm19 => target a imm19
  | .cbz _ imm19 _ => target a imm19
  | .cbnz _ imm19 _ => target a imm19
  | .tbz _ imm14 _ => target a imm14
  | .tbnz _ imm14 _ => target a imm14
  | _ => a + 4

/-- The instruction at `a` as it is executed when the trace decides: not
at all when the trace or the stack has nothing for it. -/
def Progress.decides (opts : Opts) (p : Progress) (a : Int) (insn : Insn) : Option Executed :=
  match insn with
  | .b imm26 => some ⟨a, insn, false, target a imm26⟩
  | .bl imm26 =>
      some ⟨a, insn, false, if callsText opts a imm26 then target a imm26 else a + 4⟩
  | .ret _ => p.pending.head?.map fun t => ⟨a, insn, false, t⟩
  | .br _ => none
  | .blr _ => none
  | .other _ => some ⟨a, insn, false, a + 4⟩
  | .cset _ _ _ => some ⟨a, insn, false, a + 4⟩
  | _ =>
      match p.trace.nextBranch with
      | .ok (nb, _) =>
          some ⟨a, insn, takes insn p.flags nb,
            if takes insn p.flags nb then branchTarget a insn else a + 4⟩
      | .error _ => none

def branchesToReg : Insn → Bool
  | .br _ => true
  | .blr _ => true
  | _ => false

/-- What the replay has come to. -/
def Replay.progress (s : Replay) : Progress := ⟨s.stack, s.flags, s.trace⟩

variable (opts : Opts) (img : Image) (fetch : Int → Option Insn)

/-- What is asked of an instruction that is replayed: that `hookit` can
follow it, wherever the trace sends it. -/
def followable (s : Replay) (a : Int) (insn : Insn) : Bool :=
  decide (opts.InText a) && decide (a ∉ opts.omitAddresses)
    && if insn.calls a opts.cfvQuote then !insn.calls a opts.cfvInit
      else match s.progress.decides opts a insn with
        | some e => decide (e.next < opts.textEnd ∧ Followed opts s.progress e)
        | none => !branchesToReg insn

/-- What the replay looks at, while it is on, is an instruction, and one
it can follow. -/
def Sound (c : Conf) : Prop :=
  c.vars.replayStart = true → c.vars.replayStop = false → ∀ a ∈ c.mode.scanned,
    a ≠ c.vars.prevAddress → (fetch a).any (followable opts c.vars a) = true

instance (c : Conf) : Decidable (Sound opts fetch c) :=
  inferInstanceAs (Decidable (_ → _ → ∀ a ∈ c.mode.scanned, _))

variable {opts img fetch}

theorem decides_pc {p : Progress} {a : Int} {insn : Insn} {e : Executed}
    (h : p.decides opts a insn = some e) : e.pc = a ∧ e.insn = insn := by
  unfold Progress.decides at h
  split at h
  · cases h
    exact ⟨rfl, rfl⟩
  · cases h
    exact ⟨rfl, rfl⟩
  · obtain ⟨t, -, rfl⟩ := Option.map_eq_some_iff.mp h
    exact ⟨rfl, rfl⟩
  · cases h
  · cases h
  · cases h
    exact ⟨rfl, rfl⟩
  · cases h
    exact ⟨rfl, rfl⟩
  · split at h
    · cases h
      exact ⟨rfl, rfl⟩
    · cases h

/-- It is a step of an execution, decided as the trace decides. -/
theorem decides_executed {p : Progress} {a : Int} {insn : Insn} {e : Executed}
    (h : p.decides opts a insn = some e) : e.flows opts = true ∧ Decided p e := by
  have hplain : insn.isCondBranch = false → Decided p e := by
    intro hc hc'
    rw [(decides_pc h).2, hc] at hc'
    cases hc'
  cases insn with
  | other word =>
      cases h
      exact ⟨decide_eq_true rfl, hplain rfl⟩
  | cset sf cond rd =>
      cases h
      exact ⟨decide_eq_true rfl, hplain rfl⟩
  | b imm26 =>
      cases h
      exact ⟨decide_eq_true rfl, hplain rfl⟩
  | bl imm26 =>
      cases h
      exact ⟨decide_eq_true rfl, hplain rfl⟩
  | ret rn =>
      obtain ⟨t, -, rfl⟩ := Option.map_eq_some_iff.mp h
      exact ⟨rfl, hplain rfl⟩
  | br rn => cases h
  | blr rn => cases h
  | _ =>
      simp only [Progress.decides] at h
      split at h
      · rename_i nb trace hnb
        cases h
        refine ⟨decide_eq_true rfl, fun _ => ?_⟩
        rw [hnb]
        rfl
      · cases h

/-- When nothing is executed, the dispatch raises. -/
theorem dispatch_undecided {s : Replay} {a : Int} {insn : Insn} (hon : s.replayStart = true)
    (hreg : branchesToReg insn = false) (h : s.progress.decides opts a insn = none) :
    ∃ err, dispatch opts (capstone a insn) s = .error err := by
  cases hc : insn.isCondBranch with
  | true =>
      rw [dispatch_condBranch hc hon]
      have hnb : ∃ err, s.trace.nextBranch = .error err := by
        cases hnb : s.trace.nextBranch with
        | error err => exact ⟨err, rfl⟩
        | ok r =>
            have hok : s.progress.trace.nextBranch = .ok (r.1, r.2) := hnb
            cases insn <;> first | (cases hc; done) | simp [Progress.decides, hok] at h
      obtain ⟨err, herr⟩ := hnb
      exact ⟨err, by rw [herr]; rfl⟩
  | false =>
      cases insn with
      | ret rn =>
          have hstack : s.stack = [] := by
            have hnone : s.stack.head?.map _ = none := h
            simpa using hnone
          simp only [dispatch, capstone, hon, if_true, hstack]
          exact ⟨_, rfl⟩
      | other word => cases h
      | cset sf cond rd => cases h
      | b imm26 => cases h
      | bl imm26 => cases h
      | br rn => cases hreg
      | blr rn => cases hreg
      | _ => cases hc

/-! ## Paths, one instruction longer -/

def Progress.over (opts : Opts) (p : Progress) (es : List Executed) : Progress :=
  es.foldl (Progress.after opts) p

theorem executes_snoc {a : Int} {es : List Executed} {e : Executed}
    (h : Executes opts fetch a es e.pc) (hin : opts.InText e.pc) (hfetch : fetch e.pc = some e.insn)
    (hquote : e.insn.calls e.pc opts.cfvQuote = false) (hflows : e.flows opts = true) :
    Executes opts fetch a (es ++ [e]) e.next := by
  induction es generalizing a with
  | nil =>
      obtain rfl : a = e.pc := h
      exact ⟨rfl, hin, hfetch, hquote, hflows, rfl⟩
  | cons e' es ih =>
      obtain ⟨hpc, hin', hfetch', hquote', hflows', hrest⟩ := h
      exact ⟨hpc, hin', hfetch', hquote', hflows', ih hrest⟩

theorem along_snoc {C : Progress → Executed → Prop} {p : Progress} {es : List Executed}
    {e : Executed} (h : Along opts C p es) (he : C (p.over opts es) e) :
    Along opts C p (es ++ [e]) := by
  induction es generalizing p with
  | nil => exact ⟨he, trivial⟩
  | cons e' es ih => exact ⟨h.1, ih h.2 he⟩

/-- The trace decides the instruction, and the replay follows it. -/
def Guided (opts : Opts) (p : Progress) (e : Executed) : Prop := Decided p e ∧ Followed opts p e

/-- The replay has followed `es` from the `bl cfv_init` at `a` to `q`. -/
structure Track (opts : Opts) (fetch : Int → Option Insn) (trace : ExecutionTrace) (a : Int)
    (es : List Executed) (q : Int) (s : Replay) : Prop where
  init : opts.textStart ≤ a ∧ callsAt fetch a opts.cfvInit = true
  path : Executes opts fetch (a + 4) es q
  along : Along opts (Guided opts) ⟨[], Flags.init, trace⟩ es
  sim : Sim (Progress.over opts ⟨[], Flags.init, trace⟩ es)
    (.start :: es.flatMap (Executed.lines opts)) s

/-- The instruction at `q` is next, now or at the head of the `while`
loop. -/
def Next (c : Conf) (q : Int) : Prop :=
  At c q ∨ (c.mode = .outer ∧ c.vars.currentAddress = q ∧ c.vars.prevAddress ≠ q)

/-- The replay is not on yet, and nothing has been done. -/
structure Waits (opts : Opts) (trace : ExecutionTrace) (c : Conf) : Prop where
  mode : c.mode = .outer ∨ ∃ g, c.mode = .scan g ∧ c.vars.currentAddress ≤ g
    ∧ c.vars.taken = false
  off : c.vars.replayStart = false
  going : c.vars.replayStop = false
  start : opts.textStart ≤ c.vars.currentAddress
  progress : c.vars.progress = ⟨[], Flags.init, trace⟩
  ofd : c.vars.ofd = []

inductive Phase (opts : Opts) (fetch : Int → Option Insn) (trace : ExecutionTrace) (c : Conf) :
    Prop where
  | waits (h : Waits opts trace c)
  | on {a q : Int} {es : List Executed} (h : Track opts fetch trace a es q c.vars) (hnext : Next c q)
  | quits (hstop : c.vars.replayStop = true)
  | halted (h : Halted c)

variable {trace : ExecutionTrace}

/-- A turn that ends the `for` loop, from where it began to wait. -/
theorem waits_afterFor {s : Replay} (hoff : s.replayStart = false)
    (hstart : opts.textStart ≤ s.currentAddress) (htaken : s.taken = false)
    (hprogress : s.progress = ⟨[], Flags.init, trace⟩) (hofd : s.ofd = []) :
    Phase opts fetch trace (afterFor opts img s) := by
  rcases afterFor_cases opts img s with hhalted | ⟨hgoing, -, hafter⟩
  · exact .halted hhalted
  · rw [hafter]
    have hlt := lt_nextAddress htaken
    have hstart' : opts.textStart ≤ nextAddress s := by omega
    exact .waits ⟨.inl rfl, hoff, hgoing, hstart', hprogress, hofd⟩

theorem waits_move {s : Replay} {g : Int} (hoff : s.replayStart = false)
    (hgoing : s.replayStop = false) (hstart : opts.textStart ≤ s.currentAddress)
    (htaken : s.taken = false) (hprogress : s.progress = ⟨[], Flags.init, trace⟩)
    (hofd : s.ofd = []) (hle : s.currentAddress ≤ g) :
    Phase opts fetch trace ⟨s, .scan (g + 4)⟩ := by
  have hle' : s.currentAddress ≤ g + 4 := by omega
  exact .waits ⟨.inr ⟨g + 4, rfl, hle', htaken⟩, hoff, hgoing, hstart, hprogress, hofd⟩

theorem calls_bl {a t : Int} {insn : Insn} (h : insn.calls a t = true) :
    ∃ imm26, insn = .bl imm26 ∧ target a imm26 = t := by
  cases insn with
  | bl imm26 => exact ⟨imm26, rfl, of_decide_eq_true h⟩
  | _ => cases h

/-- **Step**, before the replay. -/
theorem waits_step (hdis : Disassembles img fetch) {c : Conf} (h : Waits opts trace c) :
    Phase opts fetch trace (step opts img c) := by
  obtain ⟨hmode, hoff, hgoing, hstart, hprogress, hofd⟩ := h
  rcases hmode with hmode | ⟨g, hmode, hle, htaken⟩
  · have hstep : step opts img c = ⟨{ c.vars with taken := false }, .scan c.vars.currentAddress⟩ := by
      simp [step, hmode, hgoing]
    rw [hstep]
    exact .waits ⟨.inr ⟨_, rfl, Int.le_refl _, rfl⟩, hoff, hgoing, hstart, hprogress, hofd⟩
  · cases hd : dispatched opts fetch c with
    | none =>
        rcases step_skipped hdis hmode hd with ⟨-, hstep⟩ | ⟨-, -, hstep⟩ | ⟨-, -, hstep⟩
        · rw [hstep]
          exact waits_afterFor hoff hstart htaken hprogress hofd
        · rw [hstep]
          exact waits_move hoff hgoing hstart htaken hprogress hofd hle
        · rw [hstep]
          split
          · exact waits_afterFor hoff hstart htaken hprogress hofd
          · exact waits_move hoff hgoing hstart htaken hprogress hofd hle
    | some r =>
        obtain ⟨g', insn⟩ := r
        obtain ⟨hmode', -, hshown, hfetch⟩ := dispatched_mode hd
        obtain rfl : g = g' := Mode.scan.inj (hmode.symm.trans hmode')
        have hcalls : ∀ t, callsAt fetch g t = insn.calls g t := by
          intro t
          rw [callsAt, hfetch, Option.any_some]
        have hstep := step_dispatched hdis hd
        by_cases hinit : insn.calls g opts.cfvInit = true
        · obtain ⟨imm26, rfl, htarget⟩ := calls_bl hinit
          rw [dispatch_bl, if_pos htarget] at hstep
          rw [hstep]
          have hprogress' : c.vars.progress = ⟨[], Flags.init, trace⟩ := hprogress
          obtain ⟨hstack, hflags, htrace⟩ := Progress.mk.inj hprogress'
          have hstart' : opts.textStart ≤ g := by omega
          have hnew : g ≠ g + 4 := by omega
          refine .on (?_ : Track opts fetch trace g [] (g + 4) _) (.inl ⟨rfl, htaken, hnew⟩)
          refine ⟨⟨hstart', (hcalls _).trans hinit⟩, rfl, trivial, ?_⟩
          refine ⟨rfl, hgoing, hstack, hflags, htrace, ?_⟩
          show c.vars.ofd ++ [Line.start] = _
          rw [hofd]
          rfl
        · by_cases hquote : insn.calls g opts.cfvQuote = true
          · obtain ⟨imm26, rfl, htarget⟩ := calls_bl hquote
            have hother : target g imm26 ≠ opts.cfvInit := fun h => hinit (decide_eq_true h)
            rw [dispatch_bl, if_neg hother, if_pos htarget] at hstep
            rw [hstep]
            exact .quits (afterFlow_keeps g _ .pass).replayStop
          · have hsees : ∀ t, insn.calls g t ≠ true → seesCall opts fetch g t = false := by
              intro t ht
              rw [seesCall_of_shown hshown, hcalls, Bool.eq_false_iff]
              exact ht
            have hsilent : dispatch opts (capstone g insn) (c.vars.enter g)
                = .ok (.pass, c.vars.enter g) :=
              dispatch_silent hfetch hshown hoff (hsees _ hinit) (.inr (hsees _ hquote))
            rw [hstep, hsilent]
            show Phase opts fetch trace (if _ then _ else _)
            split
            · exact waits_afterFor hoff hstart htaken hprogress hofd
            · exact waits_move hoff hgoing hstart htaken hprogress hofd hle

theorem Track.enter {a q g : Int} {es : List Executed} {s : Replay}
    (h : Track opts fetch trace a es q s) :
    Sim (Progress.over opts ⟨[], Flags.init, trace⟩ es)
      (.start :: es.flatMap (Executed.lines opts)) (s.enter g) :=
  ⟨h.sim.on, h.sim.going, h.sim.stack, h.sim.flags, h.sim.trace, h.sim.ofd⟩

theorem Track.progress {a q : Int} {es : List Executed} {s : Replay}
    (h : Track opts fetch trace a es q s) :
    s.progress = Progress.over opts ⟨[], Flags.init, trace⟩ es := by
  rw [Replay.progress, h.sim.stack, h.sim.flags, h.sim.trace]

/-- The path goes on with the instruction that is decided. -/
theorem Track.snoc {a : Int} {es : List Executed} {e : Executed} {s s' : Replay}
    (h : Track opts fetch trace a es e.pc s) (hin : opts.InText e.pc)
    (hfetch : fetch e.pc = some e.insn) (hquote : e.insn.calls e.pc opts.cfvQuote = false)
    (hflows : e.flows opts = true)
    (hguided : Guided opts (Progress.over opts ⟨[], Flags.init, trace⟩ es) e)
    (hsim : Sim ((Progress.over opts ⟨[], Flags.init, trace⟩ es).after opts e)
      ((.start :: es.flatMap (Executed.lines opts)) ++ e.lines opts) s') :
    Track opts fetch trace a (es ++ [e]) e.next s' := by
  refine ⟨h.init, executes_snoc h.path hin hfetch hquote hflows, along_snoc h.along hguided, ?_⟩
  have hover : Progress.over opts ⟨[], Flags.init, trace⟩ (es ++ [e])
      = (Progress.over opts ⟨[], Flags.init, trace⟩ es).after opts e := by
    simp [Progress.over]
  have hlines : (es ++ [e]).flatMap (Executed.lines opts)
      = es.flatMap (Executed.lines opts) ++ e.lines opts := by
    simp
  rw [hover, hlines]
  exact hsim

/-- **Step**, of the replay: one instruction of the path. -/
theorem track_step (hdis : Disassembles img fetch) {c : Conf} {a q : Int} {es : List Executed}
    (h : Track opts fetch trace a es q c.vars) (hat : At c q) (hok : Sound opts fetch c) :
    Phase opts fetch trace (step opts img c) := by
  have hfollow := hok h.sim.on h.sim.going q (by rw [hat.mode]; rfl) (Ne.symm hat.new)
  obtain ⟨insn, hfetch, hfollow⟩ := (Option.any_eq_true _ _).mp hfollow
  simp only [followable, Bool.and_eq_true, decide_eq_true_eq] at hfollow
  obtain ⟨⟨hin, hshown⟩, hrest⟩ := hfollow
  have hd := dispatched_at hat hfetch hshown
  have hstep := step_dispatched hdis hd
  by_cases hquote : insn.calls q opts.cfvQuote = true
  · rw [if_pos hquote] at hrest
    obtain ⟨imm26, rfl, htarget⟩ := calls_bl hquote
    have hother : target q imm26 ≠ opts.cfvInit := by
      intro h
      rw [Insn.calls, decide_eq_true h] at hrest
      cases hrest
    rw [dispatch_bl, if_neg hother, if_pos htarget] at hstep
    rw [hstep]
    exact .quits (afterFlow_keeps q _ .pass).replayStop
  · rw [if_neg hquote] at hrest
    cases he : c.vars.progress.decides opts q insn with
    | none =>
        rw [he] at hrest
        have hreg : branchesToReg insn = false := by simpa using hrest
        have hon : (c.vars.enter q).replayStart = true := h.sim.on
        obtain ⟨err, herr⟩ := dispatch_undecided hon hreg he
        rw [herr] at hstep
        rw [hstep]
        exact .halted (.inr ⟨err, rfl⟩)
    | some e =>
        rw [he] at hrest
        obtain ⟨hnext, hfollowed⟩ := of_decide_eq_true hrest
        obtain ⟨hflows, hdecided⟩ := decides_executed he
        obtain ⟨rfl, rfl⟩ := decides_pc he
        rw [Bool.not_eq_true] at hquote
        rw [h.progress] at hfollowed hdecided
        obtain ⟨flow, s, hdispatch, hsim, hprev, hi, hleads⟩ :=
          (exact_executed [] (h.enter (g := e.pc)) hnext hquote hflows hdecided).shows
            hfollowed.sees
        have htrack := h.snoc hin hfetch hquote hflows ⟨hdecided, hfollowed⟩ hsim
        have hprev' : s.prevAddress = e.pc := hprev
        have htaken' : (c.vars.enter e.pc).taken = false := hat.taken
        rw [hdispatch] at hstep
        rw [hstep]
        cases flow with
        | brk =>
            obtain ⟨htaken, htarget⟩ := hleads
            show Phase opts fetch trace (afterFor opts img s)
            rcases afterFor_cases opts img s with hhalted | ⟨-, -, hafter⟩
            · exact .halted hhalted
            · have hto : nextAddress s = e.next := by simp [nextAddress, htaken, htarget]
              rw [hafter]
              refine .on (?_ : Track opts fetch trace a (es ++ [e]) e.next _) (.inr ⟨rfl, hto, ?_⟩)
              · refine ⟨htrack.init, htrack.path, htrack.along, ?_⟩
                exact ⟨htrack.sim.on, htrack.sim.going, htrack.sim.stack, htrack.sim.flags,
                  htrack.sim.trace, htrack.sim.ofd⟩
              · exact fun heq => hfollowed.moves (heq.symm.trans hprev')
        | cont =>
            obtain ⟨htaken, hon⟩ := hleads
            show Phase opts fetch trace ⟨s, .scan (e.pc + 4)⟩
            refine .on htrack (.inl ⟨by rw [hon], htaken.trans htaken', ?_⟩)
            rw [hprev', hon]
            omega
        | pass =>
            obtain ⟨htaken, hon⟩ := hleads
            have hgo : ¬ (opts.textEnd ≤ e.pc ∨ s.taken = true) := by
              have hlt := hin.2.1
              simp only [htaken.trans htaken', Bool.false_eq_true, or_false]
              omega
            show Phase opts fetch trace (if _ then _ else _)
            rw [if_neg hgo]
            refine .on htrack (.inl ⟨by rw [hon], htaken.trans htaken', ?_⟩)
            rw [hprev', hon]
            omega

/-- Once set, `replay_stop` is not taken back. -/
theorem step_stop (hdis : Disassembles img fetch) {c : Conf} (h : c.vars.replayStop = true) :
    (step opts img c).vars.replayStop = true := by
  cases hd : dispatched opts fetch c with
  | none => exact (step_quiet hdis hd).replayStop.trans h
  | some r =>
      obtain ⟨g, insn⟩ := r
      rw [step_dispatched hdis hd]
      cases hres : dispatch opts (capstone g insn) (c.vars.enter g) with
      | error err => exact h
      | ok r =>
          obtain ⟨flow, s⟩ := r
          have hstays : Stays opts g insn (c.vars.enter g) s := (dispatch_transfer hres).1
          exact (afterFlow_keeps g s flow).replayStop.trans (hstays.switch.stop h)

/-- **Step**: the phases of a run. -/
theorem phase_step (hdis : Disassembles img fetch) {c : Conf} (h : Phase opts fetch trace c)
    (hok : Sound opts fetch c) : Phase opts fetch trace (step opts img c) := by
  cases h with
  | waits h => exact waits_step hdis h
  | @on a q es h hnext =>
      rcases hnext with hat | ⟨hmode, rfl, hnew⟩
      · exact track_step hdis h hat hok
      · have hstep : step opts img c
            = ⟨{ c.vars with taken := false }, .scan c.vars.currentAddress⟩ := by
          simp [step, hmode, h.sim.going]
        rw [hstep]
        refine .on (?_ : Track opts fetch trace a es _ _) (.inl ⟨rfl, rfl, hnew⟩)
        refine ⟨h.init, h.path, h.along, ?_⟩
        exact ⟨h.sim.on, h.sim.going, h.sim.stack, h.sim.flags, h.sim.trace, h.sim.ofd⟩
  | quits hstop => exact .quits (step_stop hdis hstop)
  | halted h =>
      rw [step_halted h]
      exact .halted h

/-! ## The run -/

/-- **Run**: the phases, as long as the replay meets what it can follow. -/
theorem phase_run (hdis : Disassembles img fetch) {c₀ : Conf} (h : Phase opts fetch trace c₀)
    {n : Nat} (hok : ∀ k < n, Sound opts fetch ((step opts img)^[k] c₀)) :
    Phase opts fetch trace ((step opts img)^[n] c₀) := by
  induction n with
  | zero => exact h
  | succ n ih =>
      rw [Function.iterate_succ_apply']
      exact phase_step hdis (ih fun k hk => hok k (Nat.lt_succ_of_lt hk)) (hok n (Nat.lt_succ_self n))

/-- For every trace: when the replay gets to the `bl cfv_quote` at `q`,
the outfile lists an execution of the text from a `bl cfv_init` to there,
in which the conditional branches go as the trace decides and each RET
goes back to its call. -/
theorem outfile_is_path (hdis : Disassembles img fetch) {file : List UInt8} {c₀ : Conf}
    (h₀ : hookitStart opts img file = .ok c₀) {n : Nat} {q : Int} {insn : Insn}
    (hok : ∀ k ≤ n, Sound opts fetch ((step opts img)^[k] c₀))
    (hgoing : ((step opts img)^[n] c₀).vars.replayStop = false)
    (hat : replayed opts fetch ((step opts img)^[n] c₀) = some (q, insn))
    (hquote : insn.calls q opts.cfvQuote = true) :
    ∃ a es, Window opts fetch a es q
      ∧ Along opts (Guided opts) ⟨[], Flags.init, c₀.vars.trace⟩ es
      ∧ ((step opts img)^[n] c₀).vars.ofd = .start :: es.flatMap (Executed.lines opts) := by
  obtain ⟨-, symbols, rfl⟩ := hookitStart_ok h₀
  have hwaits : Phase opts fetch ⟨0, symbols⟩ ⟨Replay.init ⟨0, symbols⟩ opts.textStart, .outer⟩ :=
    .waits ⟨.inl rfl, rfl, rfl, Int.le_refl _, rfl, rfl⟩
  have hphase := phase_run hdis hwaits fun k hk => hok k (Nat.le_of_lt hk)
  obtain ⟨hon, hd⟩ := replayed_eq_some.mp hat
  obtain ⟨hmode, hnew, -, hfetch⟩ := dispatched_mode hd
  cases hphase with
  | waits h => exact Bool.noConfusion (h.off.symm.trans hon)
  | quits hstop => exact Bool.noConfusion (hgoing.symm.trans hstop)
  | halted h =>
      rcases h with hfinished | ⟨err, hraised⟩
      · cases hmode.symm.trans hfinished
      · cases hmode.symm.trans hraised
  | @on a q' es h hnext =>
      have hq : q' = q := by
        rcases hnext with hat' | ⟨houter, -⟩
        · exact Mode.scan.inj (hat'.mode.symm.trans hmode)
        · cases houter.symm.trans hmode
      obtain rfl := hq
      have hin : opts.InText q' := by
        have hfollow := hok n (Nat.le_refl n) h.sim.on hgoing q' (by rw [hmode]; rfl) hnew
        rw [hfetch, Option.any_some] at hfollow
        simp only [followable, Bool.and_eq_true, decide_eq_true_eq] at hfollow
        exact hfollow.1.1
      have hcalls : callsAt fetch q' opts.cfvQuote = true := by
        rw [callsAt, hfetch, Option.any_some]
        exact hquote
      refine ⟨a, es, ⟨⟨?_, hin⟩, h.init.2, h.path, hcalls⟩, h.along, h.sim.ofd⟩
      -- the instruction after it is in the text
      have hstart : opts.InText (a + 4) := by
        cases es with
        | nil =>
            have hsame : a + 4 = q' := h.path
            exact hsame ▸ hin
        | cons e es => exact h.path.2.1
      obtain ⟨-, hend, halign⟩ := hstart
      exact ⟨h.init.1, by omega, by omega⟩

/-- The loop around a call, from its evidence. -/
theorem outfile_is_path_callLoop : ∃ a es,
    Window (sampleOpts 6) (programAt 0x1000 callLoop) a es 0x100c
      ∧ Along (sampleOpts 6) (Guided (sampleOpts 6)) ⟨[], Flags.init, ⟨0, [symN, symY]⟩⟩ es
      ∧ ((step (sampleOpts 6) (imageOf 0x1000 callLoop))^[15] (sampleStart [symN, symY])).vars.ofd
        = .start :: es.flatMap (Executed.lines (sampleOpts 6)) := by
  have h₀ : hookitStart (sampleOpts 6) (imageOf 0x1000 callLoop) [symN, symY]
      = .ok (sampleStart [symN, symY]) := rfl
  have hat : replayed (sampleOpts 6) (programAt 0x1000 callLoop)
      ((step (sampleOpts 6) (imageOf 0x1000 callLoop))^[15] (sampleStart [symN, symY]))
      = some (0x100c, blTo 0x100c 0x900) := by decide +kernel
  exact outfile_is_path (imageOf_disassembles 0x1000 callLoop) h₀ (by decide +kernel)
    (by decide +kernel) hat (by decide +kernel)

end Ve

end Oat
