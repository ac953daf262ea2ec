import Oat.LinearScan
import Oat.VeExec
import Oat.VeTransfer

/-!
# The scan of `hookit` before the replay

Until it dispatches a `bl cfv_init`, the verify engine goes through the
text as a linear scan does: `scanView` is what a configuration shows of
it, and a turn of a loop is a step of it (`scanning_step`). A `bl cfv_quote`
on the way does not leave the scan at once: it ends where the disassembler
does.
-/

namespace Oat

namespace Ve

open A64

variable {opts : Opts} {img : Image} {fetch : Int → Option Insn}

/-! ## The view -/

def Mode.scanMode : Mode → ScanMode
  | .outer => .outer
  | .scan g => .scan g
  | .finished => .finished
  | .raised _ => .finished

def scanView (c : Conf) : Scan :=
  ⟨c.vars.currentAddress, c.vars.prevAddress, c.vars.i, c.mode.scanMode⟩

variable (fetch) in
/-- The address a turn looks at for the first time. -/
def visited (c : Conf) : Option Int :=
  match c.mode with
  | .scan g => if g ≠ c.vars.prevAddress ∧ (fetch g).isSome = true then some g else none
  | _ => none

variable (opts fetch) in
/-- The turn dispatches a call that starts the replay. -/
def StartsReplay (c : Conf) : Prop :=
  ∃ g imm26, dispatched opts fetch c = some (g, .bl imm26) ∧ target g imm26 = opts.cfvInit

variable (fetch) in
/-- The disassembler ends, and `hookit` has been told to stop. -/
def Stops (c : Conf) : Prop :=
  c.vars.replayStop = true ∧ ∃ g, c.mode = .scan g ∧ fetch g = none

variable (opts fetch) in
/-- A call of `cfv_quote` has been visited since the last restart. -/
def Told (current : Int) (V : List Int) : Prop :=
  ∃ a ∈ V, current ≤ a ∧ seesCall opts fetch a opts.cfvQuote = true

variable (opts fetch) in
/-- Not replaying; and if it has been told to stop, then within a stretch of
words that decode. -/
structure Scanning (c : Conf) (V : List Int) : Prop where
  off : c.vars.replayStart = false
  taken : c.vars.taken = false
  quiet : ∀ err, c.mode ≠ .raised err
  within : c.vars.replayStop = true → c.mode ≠ .outer
  told : c.vars.replayStop = true → c.mode ≠ .finished →
    Told opts fetch c.vars.currentAddress V

theorem scanView_mode {c : Conf} {V : List Int} (h : Scanning opts fetch c V) :
    (scanView c).mode = .finished ↔ c.mode = .finished := by
  obtain ⟨vars, mode⟩ := c
  cases mode with
  | raised err => exact absurd rfl (h.quiet err)
  | _ => simp [scanView, Mode.scanMode]

theorem Told.append {current : Int} {V : List Int} (h : Told opts fetch current V) (g : Int) :
    Told opts fetch current (V ++ [g]) := by
  obtain ⟨a, ha, hle, hquote⟩ := h
  exact ⟨a, List.mem_append_left _ ha, hle, hquote⟩

theorem Scanning.of_scan {s : Replay} {g : Int} {V : List Int} (hoff : s.replayStart = false)
    (htaken : s.taken = false)
    (htold : s.replayStop = true → Told opts fetch s.currentAddress V) :
    Scanning opts fetch ⟨s, .scan g⟩ V :=
  ⟨hoff, htaken, by simp, by simp, fun hstop _ => htold hstop⟩

variable (img fetch) in
/-- The end of a turn of the `while` loop is a restart of the scan. -/
theorem scanView_afterFor (s : Replay) (mode : Mode) (V : List Int) {j : Int}
    (hoff : s.replayStart = false) (htaken : s.taken = false) (hj : s.i = some j)
    (hload : opts.loadAddress ≤ s.currentAddress)
    (hgoing : s.replayStop = true → opts.textEnd ≤ nextAddress s) :
    Scanning opts fetch (afterFor opts img s) V ∧ scanView (afterFor opts img s) =
      (scanView ⟨s, mode⟩).turn opts.textEnd (opts.loadAddress + img.size) j := by
  have hlt : ¬ nextAddress s < opts.loadAddress := by
    have := lt_nextAddress htaken
    omega
  have hnext : nextAddress s = if s.currentAddress < j then j else s.currentAddress + 4 := by
    simp [nextAddress, htaken, hj]
  have hafter : afterFor opts img s = ⟨{ s with currentAddress := nextAddress s },
      if opts.textEnd ≤ nextAddress s ∨ opts.loadAddress + img.size ≤ nextAddress s
        then .finished else .outer⟩ := by
    simp only [afterFor, htaken, hj, reduceCtorEq, and_false, if_false, hlt]
    by_cases hend : opts.textEnd ≤ nextAddress s ∨ opts.loadAddress + img.size ≤ nextAddress s
    · simp only [if_pos hend]
    · have hstop : s.replayStop ≠ true := fun h => hend (.inl (hgoing h))
      simp only [if_neg hend, if_neg hstop]
  rw [hafter]
  refine ⟨⟨hoff, htaken, fun err => ?_, fun hstop => ?_, fun hstop hmode => ?_⟩, ?_⟩
  · dsimp only
    split <;> simp
  · dsimp only at hstop ⊢
    simp [hgoing hstop]
  · dsimp only at hstop hmode
    simp [hgoing hstop] at hmode
  · simp only [scanView, Scan.turn, hnext]
    rw [apply_ite Mode.scanMode]
    rfl

/-! ## Turns -/

/-- The rest of a turn that visits `g`. -/
theorem scanning_visit {c : Conf} {V : List Int} {g : Int} (s : Replay)
    (hview : (scanView c).mode = .scan g) (hle : c.vars.currentAddress ≤ g)
    (hload : opts.loadAddress ≤ c.vars.currentAddress) (hnew : g ≠ c.vars.prevAddress)
    (hsome : (fetch g).isSome = true) (hoff : s.replayStart = false) (htaken : s.taken = false)
    (hcurrent : s.currentAddress = c.vars.currentAddress) (hprev : s.prevAddress = g)
    (hi : s.i = some g)
    (htold : s.replayStop = true → Told opts fetch c.vars.currentAddress (V ++ [g]))
    (hstep : step opts img c =
      if opts.textEnd ≤ g then afterFor opts img s else ⟨s, .scan (g + 4)⟩) :
    ScanStep (fun a => (fetch a).isSome) opts.textEnd (opts.loadAddress + img.size) (scanView c)
      (some g) (scanView (step opts img c)) ∧ Scanning opts fetch (step opts img c) (V ++ [g]) := by
  rw [hstep]
  by_cases hend : opts.textEnd ≤ g
  · have hnext : g ≤ nextAddress s := by
      rw [nextAddress, htaken, hi, hcurrent]
      simp only [Bool.false_eq_true, if_false, Option.getD_some]
      split <;> omega
    obtain ⟨hscanning, hturn⟩ := scanView_afterFor img fetch s c.mode (V ++ [g]) hoff htaken hi
      (by rw [hcurrent]; exact hload) (fun _ => by omega)
    have hshow : scanView ⟨s, c.mode⟩ = { scanView c with prev := g, last := some g } := by
      simp only [scanView, hcurrent, hprev, hi]
    rw [if_pos hend, hturn, hshow]
    exact ⟨.leave hview hnew hsome hend, hscanning⟩
  · have hshow : scanView ⟨s, .scan (g + 4)⟩ =
        { scanView c with prev := g, last := some g, mode := .scan (g + 4) } := by
      simp only [scanView, hcurrent, hprev, hi, Mode.scanMode]
    rw [if_neg hend, hshow]
    rw [← hcurrent] at htold
    exact ⟨.visit hview hnew hsome (Int.not_le.mp hend), .of_scan hoff htaken htold⟩

/-- What a dispatch changes is `replayStop`, at a `bl cfv_quote`. -/
theorem dispatch_scanning {c : Conf} {V : List Int} (h : Scanning opts fetch c V) {g : Int}
    {insn : Insn} (hd : dispatched opts fetch c = some (g, insn))
    (hle : c.vars.currentAddress ≤ g) (hstart : ¬ StartsReplay opts fetch c) :
    ∃ stop, dispatch opts (capstone g insn) (c.vars.enter g) =
        .ok (.pass, { c.vars.enter g with replayStop := stop, replayStart := false }) ∧
      (stop = true → Told opts fetch c.vars.currentAddress (V ++ [g])) := by
  obtain ⟨hmode, -, homit, hfetch⟩ := dispatched_mode hd
  have htold (hstop : c.vars.replayStop = true) :
      Told opts fetch c.vars.currentAddress (V ++ [g]) :=
    (h.told hstop (by simp [hmode])).append g
  have hoff : (c.vars.enter g).replayStart = false := h.off
  have hsame : c.vars.enter g = { c.vars.enter g with
      replayStop := c.vars.replayStop, replayStart := false } := by
    rw [← hoff]
    rfl
  cases insn with
  | bl imm26 =>
      rw [dispatch_bl, if_neg fun ht => hstart ⟨g, imm26, hd, ht⟩]
      by_cases hquote : target g imm26 = opts.cfvQuote
      · have hcall : seesCall opts fetch g opts.cfvQuote = true := by
          simp [seesCall, callsAt, hfetch, Insn.calls, homit, hquote]
        rw [if_pos hquote]
        exact ⟨true, rfl, fun _ =>
          ⟨g, List.mem_append_right _ (List.mem_singleton_self g), hle, hcall⟩⟩
      · rw [if_neg hquote, if_pos hoff]
        exact ⟨_, by rw [← hsame], htold⟩
  | _ => exact ⟨_, by rw [← hsame]; exact dispatch_idle hoff (by simp), htold⟩

/-- **Step**: a turn is a step of the scan, if it does not start the replay
or stop. -/
theorem scanning_step (hdis : Disassembles img fetch)
    (hfirst : (fetch opts.textStart).isSome = true)
    (hload : opts.loadAddress ≤ opts.textStart) {c : Conf} {V : List Int}
    (h : Scanning opts fetch c V)
    (hinv : ScanInv (fun a => (fetch a).isSome) opts.textStart opts.textEnd (scanView c) V)
    (hgoing : (scanView c).mode ≠ .finished) :
    (StartsReplay opts fetch c ∨ Stops fetch c) ∨
      (ScanStep (fun a => (fetch a).isSome) opts.textEnd (opts.loadAddress + img.size) (scanView c)
        (visited fetch c) (scanView (step opts img c)) ∧
        Scanning opts fetch (step opts img c) (V ++ (visited fetch c).toList)) := by
  have hcur : opts.loadAddress ≤ c.vars.currentAddress :=
    Int.le_trans hload (hinv.start_le hgoing)
  cases hmode : c.mode with
  | finished => exact absurd ((scanView_mode h).mpr hmode) hgoing
  | raised err => exact absurd hmode (h.quiet err)
  | outer =>
      have hgo : c.vars.replayStop = false :=
        Bool.eq_false_of_not_eq_true fun hstop => h.within hstop hmode
      have hstep : step opts img c =
          ⟨{ c.vars with taken := false }, .scan c.vars.currentAddress⟩ := by
        simp [step, hmode, hgo]
      have hseen : visited fetch c = none := by simp [visited, hmode]
      have hview : (scanView c).mode = .outer := by simp [scanView, hmode, Mode.scanMode]
      rw [hstep, hseen, Option.toList_none, List.append_nil]
      exact .inr ⟨.enter hview, .of_scan h.off rfl fun hstop => absurd hmode (h.within hstop)⟩
  | scan g =>
      have hview : (scanView c).mode = .scan g := by simp [scanView, hmode, Mode.scanMode]
      have hle : c.vars.currentAddress ≤ g := hinv.current_le hview
      have htold (hstop : c.vars.replayStop = true) : Told opts fetch c.vars.currentAddress V :=
        h.told hstop (by simp [hmode])
      have hseen (hnew : g ≠ c.vars.prevAddress) (hsome : (fetch g).isSome = true) :
          visited fetch c = some g := by simp [visited, hmode, hnew, hsome]
      cases hd : dispatched opts fetch c with
      | none =>
          rcases step_skipped hdis hmode hd with ⟨hnone, hstep⟩ | ⟨-, rfl, hstep⟩ |
            ⟨hsome, ⟨hnew, -⟩, hstep⟩
          · by_cases hstop : c.vars.replayStop = true
            · exact .inl (.inr ⟨hstop, g, hmode, hnone⟩)
            · have hseen : visited fetch c = none := by simp [visited, hmode, hnone]
              cases hj : c.vars.i with
              | none =>
                  obtain ⟨rfl, -⟩ := hinv.last_none hview hj
                  rw [hnone] at hfirst
                  cases hfirst
              | some j =>
                  obtain ⟨hscanning, hturn⟩ := scanView_afterFor img fetch c.vars c.mode V
                    h.off h.taken hj hcur fun hs => absurd hs hstop
                  rw [hstep, hseen, hturn, Option.toList_none, List.append_nil]
                  exact .inr ⟨.ends hview (fun _ => by simp [hnone]) hj, hscanning⟩
          · have hseen : visited fetch c = none := by simp [visited, hmode]
            rw [hstep, hseen, Option.toList_none, List.append_nil]
            exact .inr ⟨.again hview, .of_scan h.off h.taken htold⟩
          · rw [hseen hnew hsome, Option.toList_some]
            exact .inr (scanning_visit (c.vars.enter g) hview hle hcur hnew hsome h.off h.taken
              rfl rfl rfl (fun hstop => (htold hstop).append g) hstep)
      | some p =>
          obtain ⟨g', insn⟩ := p
          obtain ⟨hmode', hnew, -, hfetch⟩ := dispatched_mode hd
          obtain rfl : g = g' := Mode.scan.inj (hmode.symm.trans hmode')
          have hsome : (fetch g).isSome = true := by rw [hfetch]; rfl
          by_cases hstart : StartsReplay opts fetch c
          · exact .inl (.inl hstart)
          · obtain ⟨stop, hpass, htold'⟩ := dispatch_scanning h hd hle hstart
            have hstep : step opts img c = _ := step_dispatched hdis hd
            rw [hpass] at hstep
            rw [hseen hnew hsome, Option.toList_some]
            have htaken : (c.vars.enter g).taken = false := h.taken
            refine .inr (scanning_visit
              { c.vars.enter g with replayStop := stop, replayStart := false } hview hle hcur hnew
              hsome rfl htaken rfl rfl rfl htold' (hstep.trans ?_))
            simp [afterFlow, htaken]

/-! ## The run -/

/-- **Run**: the scan comes to its end, or to a call that starts the replay,
or to where it has been told to stop. -/
theorem scanning_run (hdis : Disassembles img fetch) (hstart : 0 ≤ opts.textStart)
    (hfirst : (fetch opts.textStart).isSome = true)
    (hfile : ∀ a, (fetch a).isSome = true → a < opts.loadAddress + img.size)
    {file : List UInt8} {c₀ : Conf} (h₀ : hookitStart opts img file = .ok c₀) :
    ∃ n, ScanRun (fun a => (fetch a).isSome) opts.textStart opts.textEnd
        (opts.loadAddress + img.size) (step opts img) scanView (visited fetch)
        (Scanning opts fetch) c₀ n ∧
      (((step opts img)^[n] c₀).mode = .finished ∨
        StartsReplay opts fetch ((step opts img)^[n] c₀) ∨
        Stops fetch ((step opts img)^[n] c₀)) := by
  obtain ⟨hload, symbols, rfl⟩ := hookitStart_ok h₀
  have hscanning : Scanning opts fetch ⟨Replay.init ⟨0, symbols⟩ opts.textStart, .outer⟩ [] :=
    ⟨rfl, rfl, by simp, fun h => absurd h Bool.false_ne_true,
      fun h => absurd h Bool.false_ne_true⟩
  obtain ⟨n, hrun, hend⟩ := scan_run scanView (visited fetch) hstart hfirst hfile rfl hscanning
    fun c V h hinv hgoing => scanning_step hdis hfirst hload h hinv hgoing
  refine ⟨n, hrun, hend.imp_left fun hfin => ?_⟩
  exact (scanView_mode (hrun.inv n (Nat.le_refl n)).1).mp hfin

variable (opts img fetch) in
/-- Where a scan ends, when it has handled the first `m` words: at the end,
at a call that starts the replay, or at the first word that does not
decode after a call of `cfv_quote`. -/
inductive ScanEnds (c : Conf) (m : Nat) : Prop where
  | finished (hmode : c.mode = .finished)
      (hm : m = sectionWords opts.textStart opts.textEnd)
  | starts (hmode : c.mode = .scan (opts.textStart + 4 * m))
      (hinit : seesCall opts fetch (opts.textStart + 4 * m) opts.cfvInit = true)
      (hnext : (step opts img c).vars.replayStart = true)
  | stops (hmode : c.mode = .scan (opts.textStart + 4 * m))
      (hnone : fetch (opts.textStart + 4 * m) = none)
      (hquoted : ∃ k : Nat, k < m ∧
        seesCall opts fetch (opts.textStart + 4 * k) opts.cfvQuote = true ∧
        ∀ k' : Nat, k ≤ k' → k' < m → (fetch (opts.textStart + 4 * k')).isSome = true)
      (hnext : (step opts img c).mode = .finished)

variable (opts img fetch) in
/-- The scan handles each word, to the end or to where the replay starts or
it stops. -/
def ScansText (c₀ : Conf) : Prop :=
  ∃ n m, Handles (fun a => (fetch a).isSome) opts.textStart opts.textEnd
      (opts.loadAddress + img.size) (step opts img) scanView (visited fetch) c₀ n m ∧
    ScanEnds opts img fetch ((step opts img)^[n] c₀) m

theorem hookit_scans (hdis : Disassembles img fetch) (hstart : 0 ≤ opts.textStart)
    (hfirst : (fetch opts.textStart).isSome = true)
    (hfile : ∀ a, (fetch a).isSome = true → a < opts.loadAddress + img.size)
    {file : List UInt8} {c₀ : Conf} (h₀ : hookitStart opts img file = .ok c₀) :
    ScansText opts img fetch c₀ := by
  obtain ⟨n, hrun, hend⟩ := scanning_run hdis hstart hfirst hfile h₀
  obtain ⟨hscanning, hinv⟩ := hrun.inv n (Nat.le_refl n)
  refine ⟨n, ?_⟩
  rcases hend with hfin | ⟨g, imm26, hd, hinit⟩ | ⟨hstop, g, hmode, hnone⟩
  · exact ⟨_, hrun.handles ((scanView_mode hscanning).mpr hfin), .finished hfin rfl⟩
  · obtain ⟨hmode, hnew, homit, hfetch⟩ := dispatched_mode hd
    have hview : (scanView ((step opts img)^[n] c₀)).mode = .scan g := by
      simp [scanView, hmode, Mode.scanMode]
    have hstep : step opts img ((step opts img)^[n] c₀) = _ := step_dispatched hdis hd
    rw [dispatch_bl, if_pos hinit] at hstep
    have hcall : seesCall opts fetch g opts.cfvInit = true := by
      simp [seesCall, callsAt, hfetch, Insn.calls, homit, hinit]
    obtain ⟨m, rfl, -, hhandles⟩ := hrun.handles_below hview hnew
    exact ⟨m, hhandles, .starts hmode hcall (by rw [hstep]; rfl)⟩
  · have hview : (scanView ((step opts img)^[n] c₀)).mode = .scan g := by
      simp [scanView, hmode, Mode.scanMode]
    have hnew : g ≠ ((step opts img)^[n] c₀).vars.prevAddress := by
      rintro rfl
      have hdec := hinv.prev_dec hview
      simp [scanView, hnone] at hdec
    obtain ⟨m, rfl, hvisits, hhandles⟩ := hrun.handles_below hview hnew
    obtain ⟨a, ha, hle, hquote⟩ := hscanning.told hstop (by simp [hmode])
    rw [hvisits] at ha
    obtain ⟨k, hk, rfl, -⟩ := mem_decodedBelow.mp ha
    have hstretch (k' : Nat) (hkk' : k ≤ k') (hk' : k' < m) :
        (fetch (opts.textStart + 4 * k')).isSome = true := by
      by_contra hdec
      have := hinv.behind hview hnew (by omega) (Bool.eq_false_of_not_eq_true hdec)
      simp only [scanView] at this
      omega
    refine ⟨m, hhandles, .stops hmode hnone ⟨k, hk, hquote, hstretch⟩ ?_⟩
    have hinsn : img.insnAt (opts.textStart + 4 * (m : Int)) = none := by
      rw [hdis, hnone]
      rfl
    have hgiven : ((step opts img)^[n] c₀).vars.i ≠ none := by
      intro hnever
      obtain ⟨hbegin, -⟩ := hinv.last_none hview hnever
      rw [← hbegin, hnone] at hfirst
      cases hfirst
    simp only [step, hmode, hinsn, afterFor, hgiven, and_false, if_false, hstop, if_true, ite_self]

end Ve

end Oat
