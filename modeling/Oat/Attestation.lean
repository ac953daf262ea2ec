import Oat.HintsFile
import Oat.VeFlags
import Oat.VeStray

/-!
# From the attested program to the verdict

The whole way of a conditional trace: the hooks of the program, the hints
file of the trampoline library, `get_trace`, and `hookit` over the text.

What ties the two ends together is `Reports`: the compiler passes the
condition of the last CSET to the hook, and the branch that follows tests
that condition or its inverse. Under it, `attested_iff` says exactly when
the outfile lists the control transfers of the execution: when each
branch is followed in the right direction (`Directed`) and the replay
stays on the path. So evidence that is read without loss has the control
flow in it (`report_determines_transfers`).
-/

namespace Oat

open Ve Tl A64

/-! ## What the hooks report -/

/-- The conditions that were passed to the conditional hook, in order. -/
def Tl.conds (hooks : List Hook) : List Bool :=
  hooks.filterMap fun
    | .collectCondBranchHints cond => some cond
    | _ => none

def Ve.symbolOf (cond : Bool) : UInt8 := if cond then symY else symN

theorem outcomes_eq (hooks : List Hook) : outcomes hooks = (conds hooks).map symbolOf := by
  induction hooks with
  | nil => rfl
  | cons hook hooks ih =>
      rw [outcomes_cons, ih]
      cases hook <;> rfl

namespace Ve

/-- After the CSETs `ds`, a branch on `c` is reported by whether the last
condition held. -/
def ReportsBranch (ds : List Cond) (e : Executed) (c : Cond) (held : Bool) : Prop :=
  match ds.getLast? with
  | none => False
  | some d => (d = c ∨ d = c.inverse) ∧ (e.taken = true ↔ (held = true ↔ d = c))

/-- The conditions are those of the conditional branches of the path. -/
def Reports : List Cond → List Executed → List Bool → Prop
  | _, [], held => held = []
  | ds, e :: es, held =>
      match testsCond e.insn, held with
      | none, held => Reports (ds ++ csets [e.insn]) es held
      | some _, [] => False
      | some c, h :: held => ReportsBranch ds e c h ∧ Reports (ds ++ csets [e.insn]) es held

/-- Each branch is followed in the right direction. -/
def Directed : List Cond → List Executed → Prop
  | _, [] => True
  | ds, e :: es =>
      (∀ d, ds.getLast? = some d → RightDirection e.insn ds d) ∧ Directed (ds ++ csets [e.insn]) es

/-! ## A branch that is decided -/

theorem testsCond_eq_none {insn : Insn} (h : testsCond insn = none) : insn.isCondBranch = false := by
  cases insn <;> first | rfl | cases h

/-- What the replay carries when the path has got to a branch. -/
structure Carries (ds : List Cond) (held : List Bool) (p : Progress) : Prop where
  flags : p.flags = ds.foldl Flags.onCset Flags.init
  trace : p.trace.trace.drop p.trace.idx = held.map symbolOf

variable {ds : List Cond} {p : Progress} {e : Executed} {held : List Bool}

theorem Carries.nextBranch {h : Bool} (hp : Carries ds (h :: held) p) :
    p.trace.nextBranch = .ok (if h then .y else .n, ⟨p.trace.idx + 1, p.trace.trace⟩) := by
  have hsym : p.trace.trace[p.trace.idx]? = some (symbolOf h) := by
    have hfirst := congrArg (·[0]?) hp.trace
    simpa only [List.getElem?_drop, Nat.add_zero, List.map_cons, List.getElem?_cons_zero]
      using hfirst
  have hclass : ExecutionTrace.classify (symbolOf h) = if h then .y else .n := by
    cases h <;> rfl
  rw [ExecutionTrace.nextBranch_symbol hsym, hclass]
  cases h <;> rfl

/-- The branch goes the way it went exactly if the flags are right. -/
theorem decided_iff {c : Cond} {h : Bool} (hp : Carries ds (h :: held) p)
    (hc : testsCond e.insn = some c) (hrep : ReportsBranch ds e c h) :
    Decided p e ↔ ∀ d, ds.getLast? = some d → RightDirection e.insn ds d := by
  unfold ReportsBranch at hrep
  split at hrep
  · exact absurd hrep id
  · rename_i d hd
    obtain ⟨hdc, htaken⟩ := hrep
    have hflip := flip_iff hc hd hdc
    have hne : (if h then NextBranch.y else .n) ≠ .e := by cases h <;> decide
    have hy : (if h then NextBranch.y else .n) = .y ↔ h = true := by cases h <;> decide
    have hright : (∀ d', ds.getLast? = some d' → RightDirection e.insn ds d')
        ↔ RightDirection e.insn ds d := by
      simp [hd]
    rw [hright, ← hflip, Decided, hp.nextBranch, hp.flags]
    simp only [testsCond_isCondBranch hc, forall_const, Except.map, Except.ok.injEq]
    rw [Bool.eq_iff_iff, htaken, takes, decide_eq_true_eq, flip_y_iff _ _ hne, hy]
    by_cases hdceq : d = c
    · cases h <;> simp [hdceq]
    · cases h <;> simp [hdceq]

/-! ## Along the path -/

variable {opts : Opts} {img : Image} {fetch : Int → Option Insn} {es : List Executed}

theorem after_flags (hp : Carries ds held p) :
    (p.after opts e).flags = (ds ++ csets [e.insn]).foldl Flags.onCset Flags.init := by
  rw [List.foldl_append, ← hp.flags, ← foldl_after]
  rfl

theorem Carries.pass (hp : Carries ds held p) (hc : testsCond e.insn = none) :
    Carries (ds ++ csets [e.insn]) held (p.after opts e) := by
  refine ⟨after_flags hp, ?_⟩
  simp only [Progress.after, testsCond_eq_none hc, Bool.false_eq_true, if_false]
  exact hp.trace

theorem Carries.branch {c : Cond} {h : Bool} (hp : Carries ds (h :: held) p)
    (hc : testsCond e.insn = some c) :
    Carries (ds ++ csets [e.insn]) held (p.after opts e) := by
  refine ⟨after_flags hp, ?_⟩
  simp only [Progress.after, testsCond_isCondBranch hc, if_true, ExecutionTrace.advance,
    hp.nextBranch]
  rw [← List.drop_drop, hp.trace]
  rfl

/-- The branches of a path that is reported are decided the way they went
exactly if each direction is right. -/
theorem along_decided_iff (hrep : Reports ds es held) (hp : Carries ds held p) :
    Along opts Decided p es ↔ Directed ds es := by
  induction es generalizing ds held p with
  | nil => exact iff_of_true trivial trivial
  | cons e es ih =>
      unfold Reports at hrep
      split at hrep
      · rename_i hc
        have hdec : Decided p e := fun h => by simp [testsCond_eq_none hc] at h
        have hright : ∀ d, ds.getLast? = some d → RightDirection e.insn ds d := by
          intro d _
          cases hi : e.insn with
          | bCond c imm19 =>
              rw [hi] at hc
              cases hc
          | _ => trivial
        exact and_congr (iff_of_true hdec hright) (ih hrep (hp.pass hc))
      · exact absurd hrep id
      · rename_i c h held hc
        exact and_congr (decided_iff hp hc hrep.1) (ih hrep.2 (hp.branch hc))

theorem branchOn_ofd (s : Replay) (a : Int) (insn : Insn) (taken : Bool) (trace : ExecutionTrace) :
    (branchOn s (branchResult a insn taken) trace fun t => condLine a t insn).2.ofd
      = s.ofd ++ [condLine a (if taken then some (seenTarget a insn) else none) insn] := by
  cases taken <;> rfl

theorem condLine_taken {a t t' : Int} {insn : Insn} {taken taken' : Bool}
    (h : condLine a (if taken then some t else none) insn
      = condLine a (if taken' then some t' else none) insn) : taken = taken' := by
  cases taken <;> cases taken'
  · rfl
  · exact (condLine_ne a t' insn h).elim
  · exact (condLine_ne a t insn h.symm).elim
  · rfl

/-- A right line is written for a branch only if it is decided the way it
went. -/
theorem decided_of_writes (hdis : Disassembles img fetch) {c : Conf} {lines rest : List Line}
    {nb : NextBranch} {trace : ExecutionTrace} (hs : Sim p lines c.vars)
    (hd : dispatched opts fetch c = some (e.pc, e.insn)) (hc : e.insn.isCondBranch = true)
    (hnb : p.trace.nextBranch = .ok (nb, trace))
    (hwrites : Writes opts img c (lines ++ (e.lines opts ++ rest))) : Decided p e := by
  have henter : Sim p lines (c.vars.enter e.pc) :=
    ⟨hs.on, hs.going, hs.stack, hs.flags, hs.trace, hs.ofd⟩
  have hdispatch : dispatch opts (capstone e.pc e.insn) (c.vars.enter e.pc)
      = .ok (branchOn (c.vars.enter e.pc)
          (branchResult e.pc e.insn (takes e.insn p.flags nb)) trace
          fun t => condLine e.pc t e.insn) := by
    rw [dispatch_condBranch hc henter.on, henter.trace, henter.flags, hnb]
    rfl
  have hstep := step_dispatched hdis hd
  rw [hdispatch] at hstep
  have hprefix := (hwrites.of_reaches (Reaches.single c)).grows hdis
  rw [hstep] at hprefix
  simp only at hprefix
  rw [(afterFlow_keeps ..).ofd, cond_lines hc] at hprefix
  have htaken := condLine_taken (henter.next_line (branchOn_ofd ..) hprefix)
  intro _
  rw [hnb]
  exact congrArg Except.ok htaken

/-- A right outfile is written only if each branch of the path is decided
the way it went. -/
theorem along_decided_of_writes (hdis : Disassembles img fetch) (hload : Loaded opts img fetch)
    (hstart : opts.loadAddress ≤ opts.textStart) {q : Int} (hq : opts.InText q)
    (hquote : callsAt fetch q opts.cfvQuote = true) {a : Int} {lines : List Line} {c : Conf}
    (hat : At c a) (hs : Sim p lines c.vars) (hpath : Executes opts fetch a es q)
    (hshown : ∀ e ∈ es, e.pc ∉ opts.omitAddresses) (hrep : Reports ds es held)
    (hp : Carries ds held p)
    (hwrites : Writes opts img c (lines ++ es.flatMap (Executed.lines opts))) :
    Along opts Decided p es := by
  induction es generalizing a p lines c ds held with
  | nil => trivial
  | cons e es ih =>
      have hnext := hpath.next_inText hq
      obtain ⟨rfl, hin, hfetch, hcalls, hflows, hrest⟩ := hpath
      have homit := hshown e List.mem_cons_self
      have hd := dispatched_at hat hfetch homit
      rw [List.flatMap_cons] at hwrites
      obtain ⟨held', hdec, hrep', hp'⟩ : ∃ held', Decided p e ∧
          Reports (ds ++ csets [e.insn]) es held' ∧
          Carries (ds ++ csets [e.insn]) held' (p.after opts e) := by
        unfold Reports at hrep
        split at hrep
        · rename_i hc
          exact ⟨_, fun h => by simp [testsCond_eq_none hc] at h, hrep, hp.pass hc⟩
        · exact absurd hrep id
        · rename_i cond h held hc
          exact ⟨held, decided_of_writes hdis hs hd (testsCond_isCondBranch hc) hp.nextBranch
            hwrites, hrep.2, hp.branch hc⟩
      have henter : Sim p lines (c.vars.enter e.pc) :=
        ⟨hs.on, hs.going, hs.stack, hs.flags, hs.trace, hs.ofd⟩
      have hsees : seesTarget opts p e = true :=
        sees_of_writes hdis hd (exact_executed _ henter hnext.2.1 hcalls hflows hdec) hwrites
      obtain ⟨c₁, hreach₁, hat₁, hs₁⟩ := executed_step hdis hload hstart hat hs hin hnext homit
        hfetch hcalls hflows hdec hsees
      rw [← List.append_assoc] at hwrites
      have hwrites₁ := hwrites.of_reaches hreach₁
      have hmoves : e.next ≠ e.pc :=
        moves_of_writes hdis hat₁ hfetch hcalls hflows hrest hquote (by rw [hs₁.ofd]; exact hwrites₁)
      exact ⟨hdec, ih (hat₁.at_of_moves hmoves) hs₁ hrest
        (fun e' he' => hshown e' (List.mem_cons_of_mem e he')) hrep' hp' hwrites₁⟩

/-- With the symbols that the hooks report, the outfile lists the control
transfers exactly if each direction is right and the path is followed. -/
theorem reported_iff (hdis : Disassembles img fetch) (hload : Loaded opts img fetch)
    (hstart : opts.loadAddress ≤ opts.textStart) {a q : Int} (hw : Window opts fetch a es q)
    (hfound : Found opts fetch a es q) (hrep : Reports [] es held) :
    Writes opts img ⟨Replay.init ⟨0, held.map symbolOf⟩ opts.textStart, .outer⟩
        (.start :: es.flatMap (Executed.lines opts))
      ↔ Directed [] es ∧ FollowsPath opts fetch ⟨0, held.map symbolOf⟩ es q := by
  have hcarries : Carries [] held ⟨[], Flags.init, ⟨0, held.map symbolOf⟩⟩ := ⟨rfl, rfl⟩
  have hiff : Along opts Decided ⟨[], Flags.init, ⟨0, held.map symbolOf⟩⟩ es ↔ Directed [] es :=
    along_decided_iff hrep hcarries
  constructor
  · intro hwrites
    obtain ⟨c₁, hreach₁, hat₁, hs₁⟩ := reaches_init hdis hload hw.inText.1 hw.init
      (hfound.shown a (by simp)) hfound.before
    have hwrites₁ := hwrites.of_reaches hreach₁
    have hdec := along_decided_of_writes hdis hload hstart hw.inText.2 hw.quote hat₁ hs₁ hw.path
      hfound.shown_path hrep hcarries hwrites₁
    have hpath := follows_of_writes hdis hload hstart hw.inText.2 hw.quote hat₁ hs₁ hw.path
      hfound.shown_path hdec hwrites₁
    obtain ⟨c₂, p₂, hreach₂, hat₂, hs₂⟩ := executes_run hdis hload hstart hw.inText.2 hat₁ hs₁
      hw.path hfound.shown_path hdec hpath
    refine ⟨hiff.mp hdec, hpath, later_of_writes hdis hload hat₂ hw.inText.2 hw.quote
      (hfound.shown q (by simp)) ?_⟩
    rw [hs₂.ofd]
    exact hwrites₁.of_reaches hreach₂
  · rintro ⟨hright, hok⟩
    exact replay_follows hdis hload hstart hw hfound (hiff.mpr hright) hok

/-- There is one outfile at most. -/
theorem Writes.unique {c : Conf} {lines lines' : List Line} (h : Writes opts img c lines)
    (h' : Writes opts img c lines') : lines = lines' := by
  obtain ⟨n, hfinished, rfl⟩ := h
  obtain ⟨m, -, rfl⟩ := h'.of_reaches ⟨n, rfl⟩
  rw [Function.iterate_fixed (step_finished hfinished)]

/-- An execution whose evidence is read without loss. -/
structure Readable (opts : Opts) (fetch : Int → Option Insn) (held : List Bool)
    (es : List Executed) : Prop where
  window : ∃ a q, Window opts fetch a es q ∧ Found opts fetch a es q ∧
    FollowsPath opts fetch ⟨0, held.map symbolOf⟩ es q
  reports : Reports [] es held
  directed : Directed [] es

/-- The reported conditions determine the control transfers. -/
theorem report_determines_transfers (hdis : Disassembles img fetch) (hload : Loaded opts img fetch)
    (hstart : opts.loadAddress ≤ opts.textStart) {es es' : List Executed}
    (h : Readable opts fetch held es) (h' : Readable opts fetch held es') :
    es.flatMap (Executed.lines opts) = es'.flatMap (Executed.lines opts) := by
  obtain ⟨a, q, hw, hfound, hok⟩ := h.window
  obtain ⟨a', q', hw', hfound', hok'⟩ := h'.window
  have hwrites := (reported_iff hdis hload hstart hw hfound h.reports).mpr ⟨h.directed, hok⟩
  have hwrites' := (reported_iff hdis hload hstart hw' hfound' h'.reports).mpr ⟨h'.directed, hok'⟩
  exact (List.cons.inj (hwrites.unique hwrites')).2

end Ve

/-! ## The whole way -/

section Session

variable {τ : Type} {T : Teec τ} {opts : Opts} {img : Image} {fetch : Int → Option Insn}

/-- What `hookit` starts from, with the hints file of a session without
records of its own. Without a conditional branch there is no line to read. -/
theorem hookitStart_session {fopenOk : Bool} {c c' : Client τ} {hooks : List Hook}
    (h : session T fopenOk c hooks = .ok c')
    (hrecord : ∀ hook ∈ hooks, hook.writesRecord = false)
    (hstart : opts.loadAddress ≤ opts.textStart)
    (hsize : opts.textStart ≤ opts.loadAddress + img.size) :
    hookitStart opts img c'.hintsFile =
      if conds hooks = [] then .error .assertionError
      else .ok ⟨Replay.init ⟨0, (conds hooks).map symbolOf⟩ opts.textStart, .outer⟩ := by
  rw [session_hintsFile T h, hints_of_no_record hrecord, hookitStart, ExecutionTrace.init]
  by_cases hconds : conds hooks = []
  · rw [if_pos hconds, outcomes_eq, hconds]
    rfl
  · have hne : outcomes hooks ≠ [] := by rwa [outcomes_eq, Ne, List.map_eq_nil_iff]
    have hsum : opts.loadAddress + (opts.textStart - opts.loadAddress) = opts.textStart := by omega
    rw [if_neg hconds, getTrace_outcomes hne, outcomes_eq]
    simp only [bind, Except.bind, pure, Except.pure]
    rw [if_neg (by omega), hsum]

/-- A session with the hooks of an execution, whose path has no indirect
calls or jumps: `hookit`, on the hints file that the session has written,
ends with the control transfers of the execution in the outfile exactly
if each direction is right and the replay stays on the path. It fails at
its assertion if no branch was reported. -/
theorem attested_iff {fopenOk : Bool} {c c' : Client τ} {hooks : List Hook}
    (h : session T fopenOk c hooks = .ok c')
    (hrecord : ∀ hook ∈ hooks, hook.writesRecord = false) (hdis : Disassembles img fetch)
    (hload : Loaded opts img fetch) (hstart : opts.loadAddress ≤ opts.textStart) {a q : Int}
    {es : List Executed} (hw : Window opts fetch a es q) (hfound : Found opts fetch a es q)
    (hrep : Reports [] es (conds hooks)) :
    (conds hooks = [] → hookitStart opts img c'.hintsFile = .error .assertionError) ∧
    (conds hooks ≠ [] → ∃ c₀, hookitStart opts img c'.hintsFile = .ok c₀ ∧
      (Writes opts img c₀ (.start :: es.flatMap (Executed.lines opts))
        ↔ Directed [] es ∧ FollowsPath opts fetch ⟨0, outcomes hooks⟩ es q)) := by
  have hsize : opts.textStart ≤ opts.loadAddress + img.size := by
    obtain ⟨hlo, hhi, -⟩ := hw.inText.1
    have hend := hload.size
    omega
  rw [hookitStart_session h hrecord hstart hsize, outcomes_eq]
  refine ⟨fun hnone => if_pos hnone, fun hsome => ?_⟩
  rw [if_neg hsome]
  exact ⟨_, rfl, reported_iff hdis hload hstart hw hfound hrep⟩

/-- A branch on ne that was taken, with the symbol of its hook. -/
theorem attested_iff_taken :
    ∃ c' c₀, session Teec.quiet true (Client.start ()) [.collectCondBranchHints true] = .ok c' ∧
      hookitStart (sampleOpts 5) (imageOf 0x1000 (csetThen .ne .ne)) c'.hintsFile = .ok c₀ ∧
      Writes (sampleOpts 5) (imageOf 0x1000 (csetThen .ne .ne)) c₀
        [.start, .b 0x1008 (some 0x1010)] := by
  have hsession : ∃ c', session Teec.quiet true (Client.start ()) [.collectCondBranchHints true]
      = .ok c' := ⟨_, rfl⟩
  obtain ⟨c', h⟩ := hsession
  have hw : Window (sampleOpts 5) (programAt 0x1000 (csetThen .ne .ne)) 0x1000
      [⟨0x1004, .cset false .ne x0, false, 0x1008⟩, ⟨0x1008, .bCond .ne 2, true, 0x1010⟩] 0x1010 :=
    ⟨by decide, by decide +kernel, by decide +kernel, by decide +kernel⟩
  have hfound : Found (sampleOpts 5) (programAt 0x1000 (csetThen .ne .ne)) 0x1000
      [⟨0x1004, .cset false .ne x0, false, 0x1008⟩, ⟨0x1008, .bCond .ne 2, true, 0x1010⟩]
      0x1010 := by
    refine ⟨by decide, fun a' hin hlt => ?_⟩
    exact absurd hin.1 (by simpa [sampleOpts] using hlt)
  have hrep : Reports [] [⟨0x1004, .cset false .ne x0, false, 0x1008⟩,
      ⟨0x1008, .bCond .ne 2, true, 0x1010⟩] [true] :=
    ⟨⟨.inl rfl, by simp⟩, rfl⟩
  have hload : Loaded (sampleOpts 5) (imageOf 0x1000 (csetThen .ne .ne))
      (programAt 0x1000 (csetThen .ne .ne)) := sample_loaded (csetThen .ne .ne)
  obtain ⟨c₀, h₀, hiff⟩ := (attested_iff h (by decide)
    (imageOf_disassembles 0x1000 (csetThen .ne .ne)) hload (Int.le_refl _) hw hfound hrep).2
    (by decide)
  refine ⟨c', c₀, h, h₀, hiff.mpr ⟨⟨by simp, ⟨fun d hd => ?_, trivial⟩⟩, ?_⟩⟩
  · cases hd
    exact .inl rfl
  · refine ⟨by decide +kernel, fun a' hlo hhi halign => ?_⟩
    simp only [sampleOpts] at hhi halign ⊢
    obtain rfl : a' = 0x1014 := by omega
    decide +kernel

end Session

end Oat
