import Oat.VeHookit

/-!
# What `hookit` does with each A64 instruction

`capstone` is the disassembler on the A64 subset: id, text, operands and
bytes of an instruction at an address. The lemmas below say, for each
instruction, what one case of `dispatch` does with it. The conditional
branches are one lemma (`dispatch_condBranch`): ask the trace, flip the
answer (`flipFor`), go to the target that is read off the operands
(`seenTarget`) - which for TBZ and TBNZ is the bit number.
-/

namespace Oat

namespace Ve

open A64

/-! ## Capstone on the A64 subset -/

def regName (sf : Bool) (r : Fin 32) : String :=
  if r.val = 31 then (if sf then "xzr" else "wzr") else (if sf then "x" else "w") ++ toString r.val

/-- The `imm` member of a register operand is read but not used; its
value here is the number of the register. -/
def regOperand (r : Fin 32) : Int := r.val

/-- An instruction at address `a`. Only the mnemonic of a branch and the
operand text of a CSET are looked at; the others are left empty. -/
def capstone (a : Int) (insn : Insn) : CsInsn :=
  let bytes := insnBytes insn
  match insn with
  | .other _ => ⟨.other, a, "", "", [], bytes⟩
  | .b imm26 => ⟨.b, a, "b", "", [target a imm26], bytes⟩
  | .bCond cond imm19 => ⟨.b, a, "b." ++ cond.name, "", [target a imm19], bytes⟩
  | .bl imm26 => ⟨.bl, a, "bl", "", [target a imm26], bytes⟩
  | .br rn => ⟨.br, a, "br", "", [regOperand rn], bytes⟩
  | .blr rn => ⟨.blr, a, "blr", "", [regOperand rn], bytes⟩
  | .ret _ => ⟨.ret, a, "ret", "", [], bytes⟩
  | .cbz _ imm19 rt => ⟨.cbz, a, "cbz", "", [regOperand rt, target a imm19], bytes⟩
  | .cbnz _ imm19 rt => ⟨.cbnz, a, "cbnz", "", [regOperand rt, target a imm19], bytes⟩
  | .tbz bit imm14 rt =>
      ⟨.tbz, a, "tbz", "", [regOperand rt, (bit.val : Int), target a imm14], bytes⟩
  | .tbnz bit imm14 rt =>
      ⟨.tbnz, a, "tbnz", "", [regOperand rt, (bit.val : Int), target a imm14], bytes⟩
  | .cset sf cond rd => ⟨.cset, a, "cset", regName sf rd ++ ", " ++ cond.name, [regOperand rd], bytes⟩

@[simp] theorem capstone_address (a : Int) (insn : Insn) : (capstone a insn).address = a := by
  cases insn <;> rfl

/-- The image shows the program `fetch`, wherever it has instructions and
nowhere else. -/
def Disassembles (img : Image) (fetch : Int → Option Insn) : Prop :=
  ∀ a, img.insnAt a = (fetch a).map (capstone a)

/-! ## Conditional branches -/

def flipFor : Insn → Flags → Bool
  | .bCond cond _, f => flipCond ("b." ++ cond.name) f.forBranch
  | .cbz _ _ _, f => f.lastNeFlag
  | .cbnz _ _ _, f => !f.lastNeFlag
  | .tbz _ _ _, f => f.lastNeFlag
  | .tbnz _ _ _, f => !f.lastNeFlag
  | _, _ => false

/-- The target `hookit` goes to. -/
def seenTarget (a : Int) : Insn → Int
  | .bCond _ imm19 => target a imm19
  | .cbz _ imm19 _ => target a imm19
  | .cbnz _ imm19 _ => target a imm19
  | .tbz bit _ _ => bit.val
  | .tbnz bit _ _ => bit.val
  | _ => 0

def condLine (a : Int) (t : Option Int) : Insn → Line
  | .cbz _ _ _ => .cbz a t
  | .cbnz _ _ _ => .cbnz a t
  | .tbz _ _ _ => .tbz a t
  | .tbnz _ _ _ => .tbnz a t
  | _ => .b a t

/-- Whether the answer `nb` of the trace makes `hookit` take the branch. -/
def takes (insn : Insn) (f : Flags) (nb : NextBranch) : Bool :=
  (if flipFor insn f then nb.flip else nb) = .y

/-- The result a handler returns for a branch taken or not. -/
def branchResult (a : Int) (insn : Insn) (taken : Bool) : BranchRes :=
  if taken then ⟨true, seenTarget a insn⟩ else ⟨false, 0⟩

theorem pyIn_bdot (c : Cond) : pyIn "b." ("b." ++ c.name) = true := by cases c <;> decide

/-- Following the trace, and acting on the result. -/
theorem followTrace_branchOn {i : CsInsn} {k : Nat} {t : Int} (hk : i.imm k = .ok t)
    (trace : ExecutionTrace) (flipIt : Bool) (s : Replay) (line : Option Int → Line) :
    (followTrace i k trace flipIt >>= fun r => Except.ok (branchOn s r.1 r.2 line))
      = trace.nextBranch >>= fun r =>
        .ok (branchOn s (if (if flipIt then r.1.flip else r.1) = .y then ⟨true, t⟩ else ⟨false, 0⟩)
          r.2 line) := by
  unfold followTrace
  cases hnb : trace.nextBranch with
  | error err => rfl
  | ok r =>
      obtain ⟨nb, trace'⟩ := r
      cases hflip : (if flipIt then nb.flip else nb) <;>
        simp [hflip, hk, bind, Except.bind, pure, Except.pure]

theorem handleCbz_eq (i : CsInsn) (trace : ExecutionTrace) (f : Bool) :
    handleCbz i trace f = handleCondBranch i trace f := by cases f <;> rfl

theorem handleCbnz_eq (i : CsInsn) (trace : ExecutionTrace) (f : Bool) :
    handleCbnz i trace f = handleCondBranch i trace !f := by cases f <;> rfl

theorem handleTbz_eq (i : CsInsn) (trace : ExecutionTrace) (f : Bool) :
    handleTbz i trace f = handleCondBranch i trace f := by cases f <;> rfl

theorem handleTbnz_eq (i : CsInsn) (trace : ExecutionTrace) (f : Bool) :
    handleTbnz i trace f = handleCondBranch i trace !f := by cases f <;> rfl

theorem dispatch_condBranch {opts : Opts} {a : Int} {insn : Insn} {s : Replay}
    (hc : insn.isCondBranch = true) (hs : s.replayStart = true) :
    dispatch opts (capstone a insn) s = s.trace.nextBranch >>= fun r =>
      .ok (branchOn s (branchResult a insn (takes insn s.flags r.1)) r.2
        fun t => condLine a t insn) := by
  have hfollow : ∃ i k, i.imm k = .ok (seenTarget a insn) ∧
      dispatch opts (capstone a insn) s
        = followTrace i k s.trace (flipFor insn s.flags) >>= fun r =>
          .ok (branchOn s r.1 r.2 fun t => condLine a t insn) := by
    cases insn with
    | bCond cond imm19 =>
        refine ⟨capstone a (.bCond cond imm19), 0, rfl, ?_⟩
        simp only [dispatch, capstone, hs, if_true, handleBranch, pyIn_bdot]
        rfl
    | cbz sf imm19 rt =>
        refine ⟨capstone a (.cbz sf imm19 rt), 1, rfl, ?_⟩
        simp only [dispatch, capstone, hs, if_true, handleCbz_eq]
        rfl
    | cbnz sf imm19 rt =>
        refine ⟨capstone a (.cbnz sf imm19 rt), 1, rfl, ?_⟩
        simp only [dispatch, capstone, hs, if_true, handleCbnz_eq]
        rfl
    | tbz bit imm14 rt =>
        refine ⟨capstone a (.tbz bit imm14 rt), 1, rfl, ?_⟩
        simp only [dispatch, capstone, hs, if_true, handleTbz_eq]
        rfl
    | tbnz bit imm14 rt =>
        refine ⟨capstone a (.tbnz bit imm14 rt), 1, rfl, ?_⟩
        simp only [dispatch, capstone, hs, if_true, handleTbnz_eq]
        rfl
    | _ => cases hc
  obtain ⟨i, k, hk, hdispatch⟩ := hfollow
  rw [hdispatch, followTrace_branchOn hk]
  refine congrArg _ (funext fun r => ?_)
  simp only [takes, branchResult, decide_eq_true_eq]

/-! ## CSET -/

theorem isInfix_append {x : Char} {sub l : List Char} (h : x ∉ l) (r : List Char) :
    isInfix (x :: sub) (l ++ r) = isInfix (x :: sub) r := by
  induction l with
  | nil => rfl
  | cons c l ih =>
      have hc : x ≠ c := fun hc => h (by simp [hc])
      rw [List.cons_append, isInfix, List.isPrefixOf_cons_cons,
        ih fun hx => h (List.mem_cons_of_mem c hx)]
      simp [hc]

/-- No register name contains the first letter of a condition the engine
looks for. -/
theorem regName_letters (sf : Bool) (r : Fin 32) {x : Char} (hx : x ∈ ['n', 'e', 'g', 'l']) :
    x ∉ (regName sf r).toList ++ ", ".toList := by
  have hall : ([true, false].all fun sf => (List.finRange 32).all fun r =>
      ['n', 'e', 'g', 'l'].all fun x => !((regName sf r).toList ++ ", ".toList).contains x)
      = true := by
    decide +kernel
  have hsf : sf ∈ [true, false] := by cases sf <;> decide
  have hr := List.all_eq_true.mp (List.all_eq_true.mp hall sf hsf) r (List.mem_finRange r)
  simpa using List.all_eq_true.mp hr x hx

theorem pyIn_csetText {x y : Char} (hx : x ∈ ['n', 'e', 'g', 'l']) (sf : Bool) (r : Fin 32)
    (c : Cond) (sub : String) (hsub : sub.toList = [x, y]) :
    pyIn sub (regName sf r ++ ", " ++ c.name) = pyIn sub c.name := by
  rw [pyIn, pyIn, String.toList_append, String.toList_append, hsub]
  exact isInfix_append (regName_letters sf r hx) _

/-- The CSET case, on the condition. -/
def Flags.onCset (f : Flags) : Cond → Flags
  | .ne => { f with lastNeFlag := true, lastFlag := .e }
  | .eq => { f with lastNeFlag := false }
  | .gt => { f with lastLtFlag := false, lastFlag := .lg }
  | .lt => { f with lastLtFlag := true, lastFlag := .lg }
  | _ => f

theorem cset_eq (f : Flags) (sf : Bool) (c : Cond) (r : Fin 32) :
    f.cset (regName sf r ++ ", " ++ c.name) = f.onCset c := by
  rw [Flags.cset, pyIn_csetText (x := 'n') (by decide) sf r c "ne" rfl,
    pyIn_csetText (x := 'e') (by decide) sf r c "eq" rfl,
    pyIn_csetText (x := 'g') (by decide) sf r c "gt" rfl,
    pyIn_csetText (x := 'l') (by decide) sf r c "lt" rfl]
  cases c <;> rfl

/-! ## The other instructions -/

variable {opts : Opts} {a : Int} {s : Replay}

theorem dispatch_other (word : BitVec 32) :
    dispatch opts (capstone a (.other word)) s = .ok (.pass, s) := rfl

theorem dispatch_cset (hs : s.replayStart = true) (sf : Bool) (c : Cond) (r : Fin 32) :
    dispatch opts (capstone a (.cset sf c r)) s
      = .ok (.pass, { s with flags := s.flags.onCset c }) := by
  rw [← cset_eq s.flags sf c r]
  simp only [dispatch, capstone, hs, if_true]
  rfl

theorem pyIn_bdot_b : pyIn "b." "b" = false := by decide

theorem dispatch_b (hs : s.replayStart = true) (imm26 : BitVec 26) :
    dispatch opts (capstone a (.b imm26)) s = .ok (branchOn s
      (if target a imm26 < opts.textEnd then ⟨true, target a imm26⟩ else ⟨false, 0⟩) s.trace
      (.b a)) := by
  have himm : (capstone a (.b imm26)).imm 0 = .ok (target a imm26) := rfl
  have hmnemonic : pyIn "b." (capstone a (.b imm26)).mnemonic = false := pyIn_bdot_b
  have hhandle : handleBranch (capstone a (.b imm26)) opts s.trace s.flags.forBranch
      = .ok (if target a imm26 < opts.textEnd then ⟨true, target a imm26⟩ else ⟨false, 0⟩,
          s.trace) := by
    simp only [handleBranch, himm, hmnemonic, bind, Except.bind, Bool.false_eq_true, if_false]
    split <;> rfl
  have hid : (capstone a (.b imm26)).id = .b := rfl
  simp only [dispatch, hid, hs, if_true, hhandle]
  rfl

theorem dispatch_ret (hs : s.replayStart = true) (rn : Fin 32) {t : Int} {stack : List Int}
    (hstack : s.stack = t :: stack) :
    dispatch opts (capstone a (.ret rn)) s
      = .ok (.brk, { s.take t with stack := stack }.write (.ret a t)) := by
  simp only [dispatch, capstone, hs, if_true, hstack]
  rfl

def blTarget (a : Int) (imm26 : BitVec 26) : Int := a + 4 * low24 imm26

/-- Whether it takes the BL for a call into the text. -/
def blCalls (opts : Opts) (a : Int) (imm26 : BitVec 26) : Bool :=
  blTarget a imm26 ≠ opts.cfvInit ∧ blTarget a imm26 ≠ opts.cfvQuote
    ∧ opts.textStart ≤ blTarget a imm26

theorem handleBranchWithLink_eq (opts : Opts) (a : Int) (imm26 : BitVec 26) :
    handleBranchWithLink (capstone a (.bl imm26)) opts
      = .ok (if blCalls opts a imm26 then ⟨true, blTarget a imm26⟩ else ⟨false, 0⟩) := by
  have htarget : getBranchTarget (capstone a (.bl imm26)).address (capstone a (.bl imm26)).bytes
      = .ok (blTarget a imm26) := getBranchTarget_low24 a imm26
  simp only [handleBranchWithLink, htarget, bind, Except.bind, pure, Except.pure, blCalls,
    decide_eq_true_eq]
  split
  · rename_i h
    simp [h]
  · split
    · rename_i h
      simp [h]
    · split
      · rename_i h
        simp [h]
      · rename_i h₁ h₂ h₃
        rw [if_pos ⟨h₁, h₂, Int.not_lt.mp h₃⟩]

/-- The BL case, with the two tests on its target made. -/
theorem dispatch_bl (imm26 : BitVec 26) :
    dispatch opts (capstone a (.bl imm26)) s
      = .ok (if target a imm26 = opts.cfvInit then
          (.cont, { s with replayStart := true }.write .start)
        else if target a imm26 = opts.cfvQuote then
          (.pass, { s with replayStop := true, replayStart := false })
        else if s.replayStart = false then (.pass, s)
        else if blCalls opts a imm26 then
          (.brk, { s.take (blTarget a imm26) with stack := (a + 4) :: s.stack }.write
            (.bl a (blTarget a imm26)))
        else (.pass, s.write (.blSkip a))) := by
  have himm : (capstone a (.bl imm26)).imm 0 = .ok (target a imm26) := rfl
  have hid : (capstone a (.bl imm26)).id = .bl := rfl
  simp only [dispatch, hid, isAttestationStart, isAttestationEnd, himm, handleBranchWithLink_eq,
    bind, Except.bind, pure, Except.pure, decide_eq_true_eq, capstone_address]
  by_cases hi : target a imm26 = opts.cfvInit
  · rw [if_pos hi, if_pos hi]
  · rw [if_neg hi, if_neg hi]
    by_cases hq : target a imm26 = opts.cfvQuote
    · simp only [if_pos hq, Bool.false_eq_true, if_false]
    · simp only [if_neg hq]
      cases s.replayStart with
      | false => rfl
      | true => cases blCalls opts a imm26 <;> rfl

/-- While the replay is off, only a BL can do anything. -/
theorem dispatch_idle {insn : Insn} (hs : s.replayStart = false)
    (hbl : ∀ imm26, insn ≠ .bl imm26) :
    dispatch opts (capstone a insn) s = .ok (.pass, s) := by
  cases insn with
  | bl imm26 => exact absurd rfl (hbl imm26)
  | _ => simp [dispatch, capstone, hs, pure, Except.pure]

end Ve

end Oat
