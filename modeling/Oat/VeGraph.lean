import Oat.CallGraph
import Oat.VeAccount
import Oat.VeReplay
import Oat.VeTransfer

/-!
# The replay on the direct control flow

The direct control flow of a text, as a call graph (`Direct`), and the
condition on a turn that the replay keeps to it (`OnGraph`). `Here` is
the replay at an instruction; `here_turn` is what comes next: the end, or
the quote, or an instruction further on (`Closer`), either with a symbol
of the trace used up or by a move between conditional branches.
-/

namespace Oat

namespace Ve

open A64 CallGraph

variable (opts : Opts) (img : Image) (fetch : Int → Option Insn)

/-! ## The direct control flow -/

def directMoves (a : Int) : Insn → List (Move Int)
  | .other _ => [.jump (a + 4)]
  | .cset _ _ _ => [.jump (a + 4)]
  | .b imm26 => [.jump (target a imm26)]
  | .bl imm26 =>
      if callsText opts a imm26 then [.call (target a imm26) (a + 4)] else [.jump (a + 4)]
  | .br _ => []
  | .blr _ => []
  | .ret _ => [.ret]
  | .bCond _ imm19 => [.jump (target a imm19), .jump (a + 4)]
  | .cbz _ imm19 _ => [.jump (target a imm19), .jump (a + 4)]
  | .cbnz _ imm19 _ => [.jump (target a imm19), .jump (a + 4)]
  | .tbz _ imm14 _ => [.jump (target a imm14), .jump (a + 4)]
  | .tbnz _ imm14 _ => [.jump (target a imm14), .jump (a + 4)]

/-- The move leads from `a`, in the text. -/
def Direct (a : Int) (m : Move Int) : Prop :=
  ∃ insn, fetch a = some insn ∧ m ∈ directMoves opts a insn

/-- There is a conditional branch at `a`. -/
def AtCond (a : Int) : Prop := ∃ insn, fetch a = some insn ∧ insn.isCondBranch = true

/-! ## The condition -/

/-- The replay does with the instruction what the graph does: a B does not
leave past the end of the text, the target of a call is seen, there is no
branch to a register, a RET does not return to itself, and a conditional
branch does not meet a foreign symbol. -/
def keepsToGraph (c : Conf) (a : Int) : Insn → Bool
  | .b imm26 => target a imm26 < opts.textEnd
  | .bl imm26 => target a imm26 = opts.cfvInit ∨ target a imm26 = opts.cfvQuote
      ∨ blTarget a imm26 = target a imm26
  | .br _ => false
  | .blr _ => false
  | .ret _ => c.vars.stack.head? ≠ some a
  | insn => insn.isCondBranch = true → (nextSymbol c).all isSymbol = true

/-- Where the disassembler is. -/
def Mode.scanned : Mode → Option Int
  | .scan a => some a
  | _ => none

/-- While the replay is on, what it looks at in the text is an instruction
that it does with what the graph does; it may be omitted when it only goes
on to the next one. -/
def OnGraph (c : Conf) : Prop :=
  c.vars.replayStart = true → c.vars.replayStop = false → ∀ a ∈ c.mode.scanned,
    (a < opts.textEnd → (fetch a).isSome = true)
      ∧ (a ≠ c.vars.prevAddress → ∀ insn ∈ fetch a,
        if a ∈ opts.omitAddresses then directMoves opts a insn = [.jump (a + 4)]
        else keepsToGraph opts c a insn = true)

instance (c : Conf) : Decidable (OnGraph opts fetch c) :=
  inferInstanceAs (Decidable (_ → _ → ∀ a ∈ c.mode.scanned, _))

/-! ## The stretches of a run -/

/-- In the `for` loop, after `bl cfv_quote`. -/
structure Quits (c : Conf) : Prop where
  scan : ∃ g, c.mode = .scan g
  taken : c.vars.taken = false
  stop : c.vars.replayStop = true

/-- In the `for` loop, before `bl cfv_init`. -/
structure Idle (c : Conf) : Prop where
  scan : ∃ g, c.mode = .scan g ∧ c.vars.currentAddress ≤ g
  taken : c.vars.taken = false
  off : c.vars.replayStart = false
  going : c.vars.replayStop = false

/-- How the replay comes to look at `a`: it has branched there, or has
gone on from the instruction before. -/
def Came (s : Replay) (a : Int) : Prop :=
  (s.currentAddress = a ∧ a < opts.textEnd)
    ∨ (s.currentAddress + 4 ≤ a ∧ s.prevAddress + 4 = a ∧ s.i = some s.prevAddress
      ∧ (fetch s.prevAddress).isSome = true)

/-- The replay is on, and about to look at the instruction at `a`. -/
structure Here (c : Conf) (a : Int) : Prop extends At c a where
  on : c.vars.replayStart = true
  going : c.vars.replayStop = false
  came : Came opts fetch c.vars a

def scanAddress (c : Conf) : Int := c.mode.scanned.getD c.vars.currentAddress

/-- The symbols that have not been read. -/
def symbolsLeft (c : Conf) : Nat := c.vars.trace.trace.length - c.vars.trace.idx

variable {opts img fetch}

/-! ## What keeps to the graph -/

theorem keepsToGraph_cond {c : Conf} {a : Int} {insn : Insn}
    (h : keepsToGraph opts c a insn = true) (hc : insn.isCondBranch = true) :
    (nextSymbol c).all isSymbol = true := by
  cases insn <;> first | exact of_decide_eq_true h hc | cases hc

/-- What does not use up a symbol is a move in the graph. -/
theorem direct_transfer {c : Conf} {a : Int} {insn : Insn} {r : Flow × Replay}
    (hon : c.vars.replayStart = true) (hfetch : fetch a = some insn)
    (hc : insn.isCondBranch = false)
    (hquote : insn.calls a opts.cfvQuote = true → insn.calls a opts.cfvInit = true)
    (hkeeps : keepsToGraph opts c a insn = true)
    (hok : dispatch opts (capstone a insn) (c.vars.enter a) = .ok r) :
    Step (Direct opts fetch) (a, c.vars.stack)
      ((transfer opts a insn c.vars).getD (a + 4, c.vars.stack)) := by
  cases insn with
  | other word =>
      have hmove : Direct opts fetch a (.jump (a + 4)) := ⟨_, hfetch, List.mem_singleton.mpr rfl⟩
      simpa [transfer, Insn.isCondBranch] using Step.jump hmove
  | cset sf cond rd =>
      have hmove : Direct opts fetch a (.jump (a + 4)) := ⟨_, hfetch, List.mem_singleton.mpr rfl⟩
      simpa [transfer, Insn.isCondBranch] using Step.jump hmove
  | b imm26 =>
      have hlt : target a imm26 < opts.textEnd := of_decide_eq_true hkeeps
      have hmove : Direct opts fetch a (.jump (target a imm26)) :=
        ⟨_, hfetch, List.mem_singleton.mpr rfl⟩
      simpa [transfer, hon, hlt] using Step.jump hmove
  | bl imm26 =>
      have hseen : target a imm26 ≠ opts.cfvInit →
          target a imm26 ≠ opts.cfvQuote ∧ blTarget a imm26 = target a imm26 := by
        intro hinit
        have hne : target a imm26 ≠ opts.cfvQuote :=
          fun heq => hinit (of_decide_eq_true (hquote (decide_eq_true heq)))
        exact ⟨hne, ((of_decide_eq_true hkeeps).resolve_left hinit).resolve_left hne⟩
      cases hcalls : callsText opts a imm26 with
      | true =>
          obtain ⟨hinit, hle⟩ : target a imm26 ≠ opts.cfvInit ∧ opts.textStart ≤ target a imm26 :=
            of_decide_eq_true hcalls
          obtain ⟨hne, hseen⟩ := hseen hinit
          have hmove : Direct opts fetch a (.call (target a imm26) (a + 4)) :=
            ⟨_, hfetch, by simp [directMoves, hcalls]⟩
          simpa [transfer, hon, hinit, hne, blCalls, hseen, hle] using Step.call hmove
      | false =>
          have hmove : Direct opts fetch a (.jump (a + 4)) :=
            ⟨_, hfetch, by simp [directMoves, hcalls]⟩
          have hstill : transfer opts a (.bl imm26) c.vars = none := by
            by_cases hinit : target a imm26 = opts.cfvInit
            · simp [transfer, hinit]
            · obtain ⟨-, hseen⟩ := hseen hinit
              have hlt : ¬ opts.textStart ≤ target a imm26 := by
                intro hle
                simp [callsText, hinit, hle] at hcalls
              simp [transfer, blCalls, hseen, hlt]
          rw [hstill]
          exact Step.jump hmove
  | br rn => cases hkeeps
  | blr rn => cases hkeeps
  | ret rn =>
      cases hstack : c.vars.stack with
      | nil =>
          have hstack' : (c.vars.enter a).stack = [] := hstack
          have hon' : (c.vars.enter a).replayStart = true := hon
          simp only [dispatch, capstone, hon', if_true, hstack'] at hok
          cases hok
      | cons t stack =>
          have hmove : Direct opts fetch a .ret := ⟨_, hfetch, List.mem_singleton.mpr rfl⟩
          simpa [transfer, hon, hstack] using Step.ret hmove
  | _ => cases hc

/-- It leads elsewhere. -/
theorem direct_moves {c : Conf} {a t : Int} {insn : Insn} {stack : List Int}
    (hcycles : CyclesMeet (Direct opts fetch) (AtCond fetch)) (hfetch : fetch a = some insn)
    (hkeeps : keepsToGraph opts c a insn = true)
    (hruns : Runs (Direct opts fetch) (AtCond fetch) (a, c.vars.stack) (t, stack)) : t ≠ a := by
  rintro rfl
  obtain ⟨⟨insn', hfetch', hmem⟩, hhead⟩ := hcycles.self hruns
  obtain rfl : insn = insn' := Option.some.inj (hfetch.symm.trans hfetch')
  cases insn with
  | ret rn => exact of_decide_eq_true hkeeps hhead
  | bl imm26 =>
      simp only [directMoves] at hmem
      split at hmem <;> simp at hmem
  | _ => simp [directMoves] at hmem

/-! ## One instruction -/

/-- The replay, on, past an instruction that does not break off. -/
theorem here_next {s₀ s : Replay} {g : Int} (h : Past s₀ g s) (hcurrent : s₀.currentAddress ≤ g)
    (hsome : (fetch g).isSome = true) (hon : s.replayStart = true) (hgoing : s.replayStop = false) :
    Here opts fetch ⟨s, .scan (g + 4)⟩ (g + 4) := by
  obtain ⟨htaken, rfl, hi, hsame⟩ := h
  have hnew : s.prevAddress ≠ s.prevAddress + 4 := by omega
  have hnear : s.currentAddress + 4 ≤ s.prevAddress + 4 := by omega
  exact ⟨⟨rfl, htaken, hnew⟩, hon, hgoing, Or.inr ⟨hnear, rfl, hi, hsome⟩⟩

theorem Here.current_le {c : Conf} {a : Int} (h : Here opts fetch c a) :
    c.vars.currentAddress ≤ a := by
  rcases h.came with ⟨heq, -⟩ | ⟨hle, -⟩
  · exact Int.le_of_eq heq
  · omega

theorem step_duplicate (hdis : Disassembles img fetch) {s : Replay} {a : Int}
    (hsome : (fetch a).isSome = true) (hprev : s.prevAddress = a) :
    step opts img ⟨s, .scan a⟩ = ⟨s.move (some a) a, .scan (a + 4)⟩ := by
  obtain ⟨insn, hfetch⟩ := Option.isSome_iff_exists.mp hsome
  have hinsn : img.insnAt a = some (capstone a insn) := by rw [hdis a, hfetch]; rfl
  simp only [step, hinsn, forBody, capstone_address, if_pos hprev.symm]
  rw [Replay.move, ← hprev]
  rfl

theorem step_unshown (hdis : Disassembles img fetch) {c : Conf} {a : Int}
    (hmode : c.mode = .scan a) (hnone : fetch a = none) :
    step opts img c = afterFor opts img c.vars := by
  have hinsn : img.insnAt a = none := by rw [hdis a, hnone]; rfl
  simp only [step, hmode, hinsn]

/-- Past the end of the text nothing may be disassembled: the loop goes
back to the last instruction, passes over it as a duplicate, and ends. -/
theorem here_ends (hdis : Disassembles img fetch) {c : Conf} {a : Int} (h : Here opts fetch c a)
    (hnone : fetch a = none) (hend : opts.textEnd ≤ a) :
    ∃ c', Reaches (step opts img) c c' ∧ Halted c' := by
  have hreach : Reaches (step opts img) c (afterFor opts img c.vars) := by
    rw [← step_unshown hdis h.mode hnone]
    exact Reaches.single c
  rcases h.came with ⟨-, hlt⟩ | ⟨hcurrent, hprev, hi, hlast⟩
  · omega
  · rcases afterFor_restart opts img c.vars with hhalted | ⟨hlt, hrestart⟩
    · exact ⟨_, hreach, hhalted⟩
    · -- the last instruction is next
      have hnext : nextAddress c.vars = c.vars.prevAddress := by
        simp only [nextAddress, h.taken, hi, Option.getD_some, Bool.false_eq_true, if_false]
          at hlt ⊢
        split
        · rfl
        · rename_i hle
          rw [if_neg hle] at hlt
          omega
      obtain ⟨s, hs⟩ : ∃ s, s = c.vars.restart.move (some c.vars.prevAddress) c.vars.prevAddress :=
        ⟨_, rfl⟩
      have hdup : step opts img ⟨c.vars.restart, .scan (nextAddress c.vars)⟩ = ⟨s, .scan a⟩ := by
        rw [hnext, hs, step_duplicate hdis (s := c.vars.restart) hlast rfl, hprev]
      have hover : nextAddress s = a := by
        have hcurrent : s.currentAddress = c.vars.prevAddress := hs ▸ hnext
        have htaken : s.taken = false := hs ▸ rfl
        have hi : s.i = some c.vars.prevAddress := hs ▸ rfl
        simp [nextAddress, htaken, hcurrent, hi, hprev]
      refine ⟨afterFor opts img s, hreach.trans ⟨3, ?_⟩, ?_⟩
      · simp only [Function.iterate_succ, Function.iterate_zero, Function.comp_apply, id_eq,
          hrestart, hdup, step_unshown (c := ⟨s, .scan a⟩) hdis rfl hnone]
      · rcases afterFor_cases opts img s with hhalted | ⟨-, hlt', -⟩
        · exact hhalted
        · omega

/-- A symbol that is read is used up. -/
theorem nextBranch_reads {t t' : ExecutionTrace} {nb : NextBranch}
    (h : t.nextBranch = .ok (nb, t')) (hok : (t.trace[t.idx]?).all isSymbol = true) :
    t'.trace.length - t'.idx < t.trace.length - t.idx := by
  cases hsym : t.trace[t.idx]? with
  | none =>
      rw [ExecutionTrace.nextBranch_end hsym] at h
      cases h
  | some symbol =>
      have hlt := (List.getElem?_eq_some_iff.mp hsym).1
      have hne : ExecutionTrace.classify symbol ≠ .e := by
        rw [hsym] at hok
        intro heq
        rw [classify_eq_e] at heq
        rw [Option.all_some, heq] at hok
        cases hok
      rw [ExecutionTrace.nextBranch_symbol hsym, if_neg hne] at h
      obtain ⟨-, rfl⟩ := Prod.mk.inj (Except.ok.inj h)
      dsimp only
      omega

/-- Where the replay goes on after an instruction, with the duplicates
and the head of the `while` loop behind it. -/
theorem leaves_here (hdis : Disassembles img fetch) {c c₁ : Conf} {a : Int} {insn : Insn}
    {s : Replay} {stack : List Int} {out : Option (Int × List Int)} (h : Here opts fetch c a)
    (hfetch : fetch a = some insn) (hstays : Stays opts a insn (c.vars.enter a) s)
    (hon : s.replayStart = true) (hgoing : s.replayStop = false)
    (hleaves : Leaves opts img a stack s c₁ out) :
    ∃ c', Reaches (step opts img) c₁ c' ∧ Keeps s c'.vars ∧ (Halted c' ∨ ∃ a',
      Here opts fetch c' a'
        ∧ ((out.getD (a + 4, stack)).1 ≠ a → a' = (out.getD (a + 4, stack)).1)) := by
  have hprev : s.prevAddress = a := hstays.prev
  have hsome : (fetch a).isSome = true := by rw [hfetch]; rfl
  cases out with
  | none =>
      obtain ⟨htaken, -, rfl | ⟨hend, rfl⟩⟩ := hleaves
      · exact ⟨_, Reaches.refl _, Keeps.refl s, Or.inr ⟨a + 4,
          here_next ⟨htaken, hprev, hstays.i, hstays.current⟩ h.current_le hsome hon hgoing,
          fun _ => rfl⟩⟩
      · exact ⟨_, Reaches.refl _, afterFor_keeps s,
          Or.inl (Or.inl (afterFor_past htaken hstays.i hend))⟩
  | some p =>
      obtain ⟨t, stack'⟩ := p
      obtain ⟨htaken, rfl, -, rfl⟩ := hleaves
      rcases afterFor_restart opts img s with hhalted | ⟨hlt, hrestart⟩
      · exact ⟨_, Reaches.refl _, afterFor_keeps s, Or.inl hhalted⟩
      · have hnext : nextAddress s = s.targetAddress := by simp only [nextAddress, htaken, if_true]
        have hreach : Reaches (step opts img) (afterFor opts img s)
            ⟨s.restart, .scan (nextAddress s)⟩ := by
          rw [← hrestart]
          exact Reaches.single _
        by_cases hself : s.targetAddress = a
        · -- a branch to itself is passed over
          have hsame : nextAddress s = a := hnext.trans hself
          refine ⟨_, hreach.trans (Reaches.single _), ?_⟩
          rw [hsame, step_duplicate hdis (s := s.restart) hsome hprev]
          refine ⟨⟨rfl, rfl, rfl, rfl, rfl, rfl⟩, Or.inr ⟨a + 4, ?_, fun hne => absurd hself hne⟩⟩
          have hpast : Past s.restart a (s.restart.move (some a) a) := ⟨rfl, rfl, rfl, rfl⟩
          exact here_next hpast (Int.le_of_eq hsame) hsome hon hgoing
        · refine ⟨_, hreach, ⟨rfl, rfl, rfl, rfl, rfl, rfl⟩,
            Or.inr ⟨s.targetAddress, ?_, fun _ => rfl⟩⟩
          rw [hnext] at hlt ⊢
          have hnew : s.restart.prevAddress ≠ s.targetAddress :=
            fun heq => hself (heq.symm.trans hprev)
          exact ⟨⟨rfl, rfl, hnew⟩, hon, hgoing, Or.inl ⟨hnext, hlt⟩⟩

theorem Leaves.stack_eq {c' : Conf} {g a : Int} {s : Replay} {stack : List Int}
    {out : Option (Int × List Int)} (h : Leaves opts img g stack s c' out) :
    s.stack = (out.getD (a, stack)).2 := by
  cases out with
  | none => exact h.2.1
  | some p => exact h.2.2.1

theorem directMoves_cond {a : Int} {insn : Insn} {m : Move Int} (hc : insn.isCondBranch = true) :
    directMoves opts a insn ≠ [m] := by
  cases insn <;> first | (cases hc; done) | simp [directMoves]

theorem not_atCond {a : Int} {insn : Insn} (hfetch : fetch a = some insn)
    (hc : insn.isCondBranch = false) : ¬ AtCond fetch a := by
  rintro ⟨insn', hfetch', hc'⟩
  obtain rfl : insn = insn' := Option.some.inj (hfetch.symm.trans hfetch')
  rw [hc] at hc'
  cases hc'

/-- An instruction further on: with a symbol used up, or by a move between
conditional branches. -/
def Closer (opts : Opts) (fetch : Int → Option Insn) (c : Conf) (a : Int) (c' : Conf) (a' : Int) :
    Prop :=
  symbolsLeft c' < symbolsLeft c ∨ (symbolsLeft c' = symbolsLeft c
    ∧ Runs (Direct opts fetch) (AtCond fetch) (a, c.vars.stack) (a', c'.vars.stack))

/-- What a run has come to from an instruction of the replay. -/
def Comes (opts : Opts) (fetch : Int → Option Insn) (c : Conf) (a : Int) (c' : Conf) : Prop :=
  (Halted c' ∨ Quits c') ∨ ∃ a', Here opts fetch c' a' ∧ Closer opts fetch c a c' a'

theorem here_omitted (hdis : Disassembles img fetch) {c : Conf} {a : Int} {insn : Insn}
    (h : Here opts fetch c a) (hfetch : fetch a = some insn) (homit : a ∈ opts.omitAddresses)
    (hmoves : directMoves opts a insn = [.jump (a + 4)]) :
    Comes opts fetch c a (step opts img c) := by
  have hsome : (fetch a).isSome = true := by rw [hfetch]; rfl
  have hd : dispatched opts fetch c = none := by
    simp only [dispatched, h.mode, homit, or_true, if_true]
  rcases step_skipped hdis h.mode hd with ⟨hnone, -⟩ | ⟨-, hprev, -⟩ | ⟨-, -, hstep⟩
  · rw [hfetch] at hnone
    cases hnone
  · exact absurd hprev.symm h.new
  · split at hstep
    · rename_i hend
      rw [hstep]
      exact Or.inl (Or.inl (Or.inl (afterFor_past h.taken rfl hend)))
    · have hplain : ¬ AtCond fetch a := by
        refine not_atCond hfetch ?_
        cases hc : insn.isCondBranch with
        | false => rfl
        | true => exact absurd hmoves (directMoves_cond hc)
      have hmove : Direct opts fetch a (.jump (a + 4)) :=
        ⟨insn, hfetch, by rw [hmoves]; exact List.mem_singleton.mpr rfl⟩
      rw [hstep]
      have hpast : Past c.vars a (c.vars.enter a) := ⟨h.taken, rfl, rfl, rfl⟩
      exact Or.inr ⟨a + 4, here_next hpast h.current_le hsome h.on h.going,
        Or.inr ⟨rfl, .jump hmove, hplain⟩⟩

theorem here_quote {c₁ : Conf} {a : Int} {s : Replay} {stack : List Int}
    {out : Option (Int × List Int)} (hstop : s.replayStop = true)
    (hleaves : Leaves opts img a stack s c₁ out) : Halted c₁ ∨ Quits c₁ := by
  cases out with
  | none =>
      obtain ⟨htaken, -, rfl | ⟨-, rfl⟩⟩ := hleaves
      · exact Or.inr ⟨⟨_, rfl⟩, htaken, hstop⟩
      · exact Or.inl (afterFor_stop hstop)
  | some p =>
      rw [hleaves.2.2.2]
      exact Or.inl (afterFor_stop hstop)

theorem here_onGraph (hdis : Disassembles img fetch)
    (hcycles : CyclesMeet (Direct opts fetch) (AtCond fetch)) {c : Conf} {a : Int} {insn : Insn}
    {flow : Flow} {s : Replay} (h : Here opts fetch c a) (hfetch : fetch a = some insn)
    (hkeeps : keepsToGraph opts c a insn = true)
    (hquote : insn.calls a opts.cfvQuote = true → insn.calls a opts.cfvInit = true)
    (hres : dispatch opts (capstone a insn) (c.vars.enter a) = .ok (flow, s))
    (hleaves : Leaves opts img a c.vars.stack s (step opts img c) (transfer opts a insn c.vars)) :
    ∃ c', Reaches (step opts img) c c' ∧ Comes opts fetch c a c' := by
  have hstays := (dispatch_transfer hres).1
  have hon : s.replayStart = true ∧ s.replayStop = false := by
    have hswitches := hstays.switches
    rw [switched] at hswitches
    split at hswitches
    · obtain ⟨hstart, hstop⟩ := Prod.mk.inj hswitches
      exact ⟨hstart, hstop.trans h.going⟩
    · rename_i hinit
      rw [if_neg fun hcalls => hinit (hquote hcalls)] at hswitches
      obtain ⟨hstart, hstop⟩ := Prod.mk.inj hswitches
      exact ⟨hstart.trans h.on, hstop.trans h.going⟩
  obtain ⟨c', hreach, hsame, hhalted | ⟨a', hhere, ha'⟩⟩ :=
    leaves_here hdis h hfetch hstays hon.1 hon.2 hleaves
  · exact ⟨c', (Reaches.single c).trans hreach, Or.inl (Or.inl hhalted)⟩
  · refine ⟨c', (Reaches.single c).trans hreach, Or.inr ⟨a', hhere, ?_⟩⟩
    have htrace := (dispatch_ok hres).trace
    have hstart : (c.vars.enter a).replayStart = true := h.on
    cases hc : insn.isCondBranch with
    | true =>
        rw [if_pos ⟨hstart, hc⟩] at htrace
        obtain ⟨nb, hnb⟩ := htrace
        refine Or.inl ?_
        simp only [symbolsLeft, hsame.trace]
        exact nextBranch_reads hnb (keepsToGraph_cond hkeeps hc)
    | false =>
        rw [if_neg (by simp [hc])] at htrace
        have hstep := direct_transfer h.on hfetch hc hquote hkeeps hres
        have hstack := hsame.stack.trans (hleaves.stack_eq (a := a + 4))
        generalize (transfer opts a insn c.vars).getD (a + 4, c.vars.stack) = out at *
        obtain ⟨t, stack⟩ := out
        have hruns : Runs (Direct opts fetch) (AtCond fetch) (a, c.vars.stack) (t, stack) :=
          ⟨hstep, not_atCond hfetch hc⟩
        obtain rfl := ha' (direct_moves hcycles hfetch hkeeps hruns)
        obtain rfl : c'.vars.stack = stack := hstack
        refine Or.inr ⟨?_, hruns⟩
        rw [symbolsLeft, hsame.trace, htrace]
        rfl

/-- **Step**, of the replay: an instruction of the graph. -/
theorem here_turn (hdis : Disassembles img fetch)
    (hcycles : CyclesMeet (Direct opts fetch) (AtCond fetch)) {c : Conf} {a : Int}
    (h : Here opts fetch c a) (hok : OnGraph opts fetch c) :
    ∃ c', Reaches (step opts img) c c' ∧ Comes opts fetch c a c' := by
  obtain ⟨hshown, hkept⟩ := hok h.on h.going a (by rw [h.mode]; rfl)
  cases hfetch : fetch a with
  | none =>
      have hend : opts.textEnd ≤ a := by
        by_contra hlt
        have hsome := hshown (by omega)
        rw [hfetch] at hsome
        cases hsome
      obtain ⟨c', hreach, hhalted⟩ := here_ends hdis h hfetch hend
      exact ⟨c', hreach, Or.inl (Or.inl hhalted)⟩
  | some insn =>
      have hkept := hkept (Ne.symm h.new) insn hfetch
      split at hkept
      · rename_i homit
        exact ⟨_, Reaches.single c, here_omitted hdis h hfetch homit hkept⟩
      · rename_i homit
        have hd := dispatched_at h.toAt hfetch homit
        rcases step_transfer hdis hd h.taken with ⟨err, -, hstep⟩ | ⟨flow, s, hres, hstays, hleaves⟩
        · exact ⟨_, Reaches.single c, Or.inl (Or.inl (Or.inr ⟨err, by rw [hstep]⟩))⟩
        · by_cases hquote : insn.calls a opts.cfvQuote = true → insn.calls a opts.cfvInit = true
          · exact here_onGraph hdis hcycles h hfetch hkept hquote hres hleaves
          · obtain ⟨hcalls, hinit⟩ := Classical.not_imp.mp hquote
            have hswitches := hstays.switches
            rw [switched, if_neg hinit, if_pos hcalls] at hswitches
            have hstop : s.replayStop = true := (Prod.mk.inj hswitches).2
            exact ⟨_, Reaches.single c, Or.inl (here_quote hstop hleaves)⟩

end Ve

end Oat
