import Oat.A64Machine

/-!
# The control-flow verification pass: `AArch64ControlFlowVerification.cpp`

The pass runs last before the printer (`addPreEmitPass`) and puts six
instructions in front of each BLR, BR and RET: they call a trampoline
with the target register in x0. A machine function is its list of basic
blocks, a basic block its list of instructions; operands have the
register classes of the instruction tables. Instructions without a
meaning of their own for the pass or the printer are `other`, with the
flags of their descriptor.

`emitInstruction` is the printer (`AArch64AsmPrinter.cpp`), which still
lowers some pseudo-instructions to the branches the pass looks for:
`runOnMachineFunction_mediated_iff` says what that costs.
-/

namespace Oat

namespace Cfv

open A64

/-! ## Machine instructions -/

/-- What the printer hands to the assembler: one of the instructions of
`A64.Op`, or one that goes on to the next or to a fixed place. -/
inductive MCInst where
  | op (op : Op)
  | b (dest : String)
  | bImm (imm : Int)
  | hint (imm : Nat)
  | movzXi (rd : XReg) (imm shift : Nat)
  | movkXi (rd rn : XReg) (imm shift : Nat)
  | adrp (rd : XReg) (sym : String)
  | ldrXui (rt rn : XReg) (sym : String)
  | addSym (rd rn : XReg) (sym : String)
  | tlsdesccall (sym : String)
  | other (opcode : Nat)
deriving Repr, DecidableEq

inductive SledKind where
  | functionEnter
  | functionExit
  | tailCall
deriving Repr, DecidableEq

/-- The flags of `MCInstrDesc` that the pass reads. -/
structure Desc where
  isCall : Bool
  isIndirectBranch : Bool
  isReturn : Bool
deriving Repr, DecidableEq

/-- `MachineInstr`. A `directive` (labels, CFI, debug values, kills) is
printed as no instruction. Inline assembly is printed as whatever its
text says. -/
inductive MachineInstr where
  | subXri (rd rn : SpReg) (imm : Int) (shift : Nat)
  | addXri (rd rn : SpReg) (imm : Int) (shift : Nat)
  | orrXrs (rd rn rm : XReg) (shift : Nat)
  | stpXi (rt rt2 : XReg) (rn : SpReg) (imm : Int)
  | ldpXi (rt rt2 : XReg) (rn : SpReg) (imm : Int)
  | bl (sym : String)
  | blr (rn : XReg)
  | br (rn : XReg)
  | ret (rn : XReg)
  | retReallyLR
  | tcreturnri (dst : XReg) (fpDiff : Int)
  | tcreturndi (dst : String) (fpDiff : Int)
  | tlsdescCallseq (sym : String)
  | patchpoint (numBytes : Nat) (callTarget : Nat) (scratch : XReg)
  | stackmap (nops : Nat)
  | patchable (kind : SledKind)
  | inlineasm (body : List MCInst)
  | directive (opcode : Nat)
  | other (opcode : Nat) (desc : Desc)
deriving Repr, DecidableEq

def MachineInstr.desc : MachineInstr → Desc
  | .bl _ => ⟨true, false, false⟩
  | .blr _ => ⟨true, false, false⟩
  | .br _ => ⟨false, true, false⟩
  | .ret _ => ⟨false, false, true⟩
  | .retReallyLR => ⟨false, false, true⟩
  | .tcreturnri _ _ => ⟨true, false, true⟩
  | .tcreturndi _ _ => ⟨true, false, true⟩
  | .tlsdescCallseq _ => ⟨true, false, false⟩
  | .patchpoint _ _ _ => ⟨true, false, false⟩
  | .stackmap _ => ⟨true, false, false⟩
  | .patchable kind => ⟨false, false, kind = .tailCall⟩
  | .other _ desc => desc
  | _ => ⟨false, false, false⟩

def x0 : XReg := xr 0
def x1 : XReg := xr 1
def lr : XReg := xr 30

/-! ## The pass -/

def symICall : String := "__cfv_icall"
def symIJmp : String := "__cfv_ijmp"
def symRet : String := "__cfv_ret"

/-- The six instructions `handleControlTransfer` builds. -/
def handleControlTransfer (sym : String) (targetReg : XReg) : List MachineInstr :=
  [.subXri .sp .sp 16 0,          -- sub sp, sp, 16
   .stpXi x0 lr .sp 0,            -- stp x0, lr, [sp]
   .orrXrs x0 targetReg .zr 0,    -- mov x0, xR
   .bl sym,
   .ldpXi x0 lr .sp 0,            -- ldp x0, lr, [sp]
   .addXri .sp .sp 16 0]          -- add sp, sp, 16

def instrumentIndirectCall (rn : XReg) : List MachineInstr := handleControlTransfer symICall rn

def instrumentIndirectJump (rn : XReg) : List MachineInstr := handleControlTransfer symIJmp rn

def instrumentRet (rn : XReg) : List MachineInstr := handleControlTransfer symRet rn

def instrumentRetLR : List MachineInstr := handleControlTransfer symRet lr

/-- The cases of the opcode switch, and what each inserts before the
instruction. -/
def instrumented : MachineInstr → Option (List MachineInstr)
  | .blr rn => some (instrumentIndirectCall rn)
  | .br rn => some (instrumentIndirectJump rn)
  | .ret rn => some (instrumentRet rn)
  | .retReallyLR => some instrumentRetLR
  | _ => none

def inserted (mi : MachineInstr) : List MachineInstr :=
  if mi.desc.isCall || mi.desc.isIndirectBranch || mi.desc.isReturn then
    (instrumented mi).getD []
  else []

abbrev MachineBasicBlock := List MachineInstr

abbrev MachineFunction := List MachineBasicBlock

def runOnBlock (mbb : MachineBasicBlock) : MachineBasicBlock :=
  mbb.flatMap fun mi => inserted mi ++ [mi]

/-- The result (`MadeChange`) and the function afterwards. -/
def runOnMachineFunction (mf : MachineFunction) : Bool × MachineFunction :=
  (mf.any fun mbb => mbb.any fun mi => !(inserted mi).isEmpty, mf.map runOnBlock)

/-! ## The printer -/

/-- Lower halves of an address for MOVZ and MOVK. -/
def movBits (target shift : Nat) : Nat := (target >>> shift) &&& 0xFFFF

def lowerPatchpoint (numBytes callTarget : Nat) (scratch : XReg) : List MCInst :=
  let call : List MCInst :=
    if callTarget ≠ 0 then
      [.movzXi scratch (movBits callTarget 32) 32,
       .movkXi scratch scratch (movBits callTarget 16) 16,
       .movkXi scratch scratch (movBits callTarget 0) 0,
       .op (.blr scratch)]
    else []
  call ++ List.replicate (numBytes / 4 - call.length) (.hint 0)

/-- `B #32` over seven NOPs. -/
def emitSled : List MCInst := .bImm 8 :: List.replicate 7 (.hint 0)

/-- `EmitInstruction`, and `EmitFunctionBody` for what it keeps to itself.
`RET_ReallyLR` stands for `RET LR`, which an earlier pass makes of it.
The offsets of the pair accesses count words. The NOPs of a stack map are
those left after the scan ahead. -/
def emitInstruction : MachineInstr → List MCInst
  | .subXri rd rn imm shift => [.op (.subImm rd rn (imm <<< shift))]
  | .addXri rd rn imm shift => [.op (.addImm rd rn (imm <<< shift))]
  | .orrXrs rd rn rm shift => [.op (.orr rd rn rm shift)]
  | .stpXi rt rt2 rn imm => [.op (.stp rt rt2 rn .offset (8 * imm))]
  | .ldpXi rt rt2 rn imm => [.op (.ldp rt rt2 rn .offset (8 * imm))]
  | .bl sym => [.op (.bl sym)]
  | .blr rn => [.op (.blr rn)]
  | .br rn => [.op (.br rn)]
  | .ret rn => [.op (.ret rn)]
  | .retReallyLR => [.op (.ret lr)]
  | .tcreturnri dst _ => [.op (.br dst)]
  | .tcreturndi dst _ => [.b dst]
  | .tlsdescCallseq sym =>
      [.adrp x0 sym, .ldrXui x1 x0 sym, .addSym x0 x0 sym, .tlsdesccall sym, .op (.blr x1)]
  | .patchpoint numBytes callTarget scratch => lowerPatchpoint numBytes callTarget scratch
  | .stackmap nops => List.replicate nops (.hint 0)
  | .patchable _ => emitSled
  | .inlineasm body => body
  | .directive _ => []
  | .other opcode _ => [.other opcode]

/-! ## Mediation -/

/-- The register a printed `br`, `blr` or `ret` transfers through. -/
def MCInst.transferReg : MCInst → Option XReg
  | .op (.br rn) => some rn
  | .op (.blr rn) => some rn
  | .op (.ret rn) => some rn
  | _ => none

/-- The instructions before a place end with the check on `r`. -/
def Checked (pre : List MachineInstr) (r : XReg) : Prop :=
  ∃ sym ∈ [symICall, symIJmp, symRet], handleControlTransfer sym r <:+ pre

/-- Each register that `mi` is printed to transfer through is checked
before it. -/
def MediatedAt (pre : List MachineInstr) (mi : MachineInstr) : Prop :=
  ∀ inst ∈ emitInstruction mi, ∀ r, inst.transferReg = some r → Checked pre r

/-- Every printed indirect transfer has its check in front of it. -/
def CompletelyMediated (mf : MachineFunction) : Prop :=
  ∀ mbb ∈ mf, ∀ pre mi post, mbb = pre ++ mi :: post → MediatedAt pre mi

theorem inserted_of_not_instrumented {mi : MachineInstr} (h : instrumented mi = none) :
    inserted mi = [] := by
  rw [inserted, h]
  split <;> rfl

/-- What a covered instruction is printed as, and what is inserted before
it. -/
theorem instrumented_some {mi : MachineInstr} {check : List MachineInstr}
    (h : instrumented mi = some check) :
    ∃ sym ∈ [symICall, symIJmp, symRet], ∃ r, inserted mi = handleControlTransfer sym r
      ∧ ∀ inst ∈ emitInstruction mi, inst.transferReg = some r := by
  cases mi with
  | blr rn => exact ⟨symICall, by simp, rn, rfl, by simp [emitInstruction, MCInst.transferReg]⟩
  | br rn => exact ⟨symIJmp, by simp, rn, rfl, by simp [emitInstruction, MCInst.transferReg]⟩
  | ret rn => exact ⟨symRet, by simp, rn, rfl, by simp [emitInstruction, MCInst.transferReg]⟩
  | retReallyLR => exact ⟨symRet, by simp, lr, rfl, by simp [emitInstruction, MCInst.transferReg]⟩
  | _ => cases h

/-- Nothing of the check is itself instrumented, nor printed as an
indirect transfer. -/
theorem check_plain (sym : String) (r : XReg) :
    ∀ mi ∈ handleControlTransfer sym r, instrumented mi = none
      ∧ ∀ inst ∈ emitInstruction mi, inst.transferReg = none := by
  simp [handleControlTransfer, instrumented, emitInstruction, MCInst.transferReg]

theorem runOnBlock_concat (pre : List MachineInstr) (mi : MachineInstr) :
    runOnBlock (pre ++ [mi]) = runOnBlock pre ++ inserted mi ++ [mi] := by
  simp [runOnBlock]

theorem concat_suffix_concat {α : Type} {l l' : List α} {a b : α} :
    l ++ [a] <:+ l' ++ [b] ↔ l <:+ l' ∧ a = b := by
  rw [← List.reverse_prefix, List.reverse_append, List.reverse_append, List.reverse_singleton,
    List.reverse_singleton, List.singleton_append, List.singleton_append, List.cons_prefix_cons,
    List.reverse_prefix, and_comm]

/-- The pass makes no stretch of plain instructions, and breaks none at
the end of what it has been through. The induction takes the last
instruction off both. -/
theorem suffix_runOnBlock_iff {n : Nat} {c : List MachineInstr} (hn : c.length = n)
    (hc : ∀ mi ∈ c, instrumented mi = none) (pre : List MachineInstr) :
    c <:+ runOnBlock pre ↔ c <:+ pre := by
  induction n generalizing c pre with
  | zero =>
      obtain rfl := List.eq_nil_of_length_eq_zero hn
      simp
  | succ n ih =>
      rcases List.eq_nil_or_concat c with rfl | ⟨c, z, rfl⟩
      · simp
      · rcases List.eq_nil_or_concat pre with rfl | ⟨q, y, rfl⟩
        · rfl
        · rw [List.concat_eq_append] at hn hc ⊢
          rw [List.concat_eq_append, runOnBlock_concat, concat_suffix_concat, concat_suffix_concat]
          refine and_congr_left ?_
          rintro rfl
          have hz : inserted z = [] :=
            inserted_of_not_instrumented (hc z (List.mem_append_right _ (List.mem_singleton_self z)))
          rw [hz, List.append_nil]
          exact ih (by simpa using hn) (fun mi hmi => hc mi (List.mem_append_left _ hmi)) q

/-- Where an instruction of the output comes from. -/
theorem runOnBlock_split {mbb pre post : List MachineInstr} {mi : MachineInstr}
    (h : runOnBlock mbb = pre ++ mi :: post) :
    (∃ pre₀ post₀, mbb = pre₀ ++ mi :: post₀ ∧ pre = runOnBlock pre₀ ++ inserted mi)
      ∨ ∃ mi₀, mi ∈ inserted mi₀ := by
  induction mbb generalizing pre with
  | nil => simp [runOnBlock] at h
  | cons y mbb ih =>
      have hcons : runOnBlock (y :: mbb) = inserted y ++ y :: runOnBlock mbb := by simp [runOnBlock]
      rw [hcons, List.append_eq_append_iff] at h
      rcases h with ⟨u, hpre, hrest⟩ | ⟨u, hins, hrest⟩
      · cases u with
        | nil =>
            rw [List.nil_append, List.cons.injEq] at hrest
            obtain ⟨rfl, -⟩ := hrest
            exact Or.inl ⟨[], mbb, rfl, by simpa [runOnBlock] using hpre⟩
        | cons w u =>
            rw [List.cons_append, List.cons.injEq] at hrest
            obtain ⟨rfl, hrest⟩ := hrest
            rcases ih hrest with ⟨pre₀, post₀, rfl, rfl⟩ | hmi
            · exact Or.inl ⟨y :: pre₀, post₀, rfl, by simp [hpre, runOnBlock]⟩
            · exact Or.inr hmi
      · cases u with
        | nil =>
            rw [List.nil_append, List.cons.injEq] at hrest
            obtain ⟨rfl, -⟩ := hrest
            exact Or.inl ⟨[], mbb, rfl, by simpa [runOnBlock] using hins.symm⟩
        | cons w u =>
            rw [List.cons_append, List.cons.injEq] at hrest
            obtain ⟨rfl, -⟩ := hrest
            exact Or.inr ⟨y, by simp [hins]⟩

theorem checked_runOnBlock_iff (pre : List MachineInstr) (r : XReg) :
    Checked (runOnBlock pre) r ↔ Checked pre r := by
  refine exists_congr fun sym => and_congr_right fun _ => ?_
  exact suffix_runOnBlock_iff rfl (fun mi hmi => (check_plain sym r mi hmi).1) pre

/-- A covered instruction is checked by what was put before it. -/
theorem mediatedAt_of_instrumented {mi : MachineInstr} (h : instrumented mi ≠ none)
    (pre : List MachineInstr) : MediatedAt (pre ++ inserted mi) mi := by
  obtain ⟨check, hcheck⟩ := Option.ne_none_iff_exists'.mp h
  obtain ⟨sym, hsym, r, hins, hreg⟩ := instrumented_some hcheck
  intro inst hinst r' hr'
  obtain rfl := Option.some.inj ((hreg inst hinst).symm.trans hr')
  rw [hins]
  exact ⟨sym, hsym, List.suffix_append pre _⟩

theorem mediatedAt_of_inserted {mi mi₀ : MachineInstr} (h : mi ∈ inserted mi₀)
    (pre : List MachineInstr) : MediatedAt pre mi := by
  have hplain : ∀ inst ∈ emitInstruction mi, inst.transferReg = none := by
    cases hi : instrumented mi₀ with
    | none =>
        rw [inserted_of_not_instrumented hi] at h
        cases h
    | some check =>
        obtain ⟨sym, -, r, hins, -⟩ := instrumented_some hi
        rw [hins] at h
        exact (check_plain sym r mi h).2
  intro inst hinst r hr
  rw [hplain inst hinst] at hr
  cases hr

/-- The instructions that become a `br`, `blr` or `ret` in the printer, or
in the text of inline assembly. The pass has no case for them. -/
def MachineInstr.loweredLate : MachineInstr → Bool
  | .tcreturnri _ _ => true
  | .tlsdescCallseq _ => true
  | .patchpoint _ callTarget _ => callTarget ≠ 0
  | .inlineasm body => body.any fun inst => inst.transferReg.isSome
  | _ => false

theorem not_instrumented_of_loweredLate {mi : MachineInstr} (h : mi.loweredLate = true) :
    instrumented mi = none := by
  cases mi with
  | tcreturnri | tlsdescCallseq | patchpoint | inlineasm => rfl
  | _ => cases h

/-- What the pass has no case for is printed as an indirect transfer only
if it is lowered late. -/
theorem loweredLate_of_transfers {mi : MachineInstr} (hi : instrumented mi = none) {inst : MCInst}
    (hinst : inst ∈ emitInstruction mi) {r : XReg} (hr : inst.transferReg = some r) :
    mi.loweredLate = true := by
  cases mi with
  | blr | br | ret | retReallyLR => cases hi
  | tcreturnri | tlsdescCallseq => rfl
  | patchpoint numBytes callTarget scratch =>
      by_contra hzero
      have hnops : emitInstruction (.patchpoint numBytes callTarget scratch)
          = List.replicate (numBytes / 4) (.hint 0) := by
        have htarget : callTarget = 0 := by simpa [MachineInstr.loweredLate] using hzero
        simp [emitInstruction, lowerPatchpoint, htarget]
      rw [hnops] at hinst
      rw [List.eq_of_mem_replicate hinst] at hr
      cases hr
  | inlineasm body =>
      exact List.any_eq_true.mpr ⟨inst, hinst, by rw [hr]; rfl⟩
  | stackmap nops =>
      rw [emitInstruction] at hinst
      rw [List.eq_of_mem_replicate hinst] at hr
      cases hr
  | patchable kind =>
      have hplain : ∀ inst ∈ emitSled, inst.transferReg = none := by decide
      rw [hplain inst hinst] at hr
      cases hr
  | directive opcode => cases hinst
  | subXri | addXri | orrXrs | stpXi | ldpXi | bl | tcreturndi | other =>
      rw [emitInstruction, List.mem_singleton] at hinst
      rw [hinst] at hr
      cases hr

/-- Each transfer that is lowered late has its check when it gets to the
pass. -/
def LateMediated (mf : MachineFunction) : Prop :=
  ∀ mbb ∈ mf, ∀ pre mi post, mbb = pre ++ mi :: post → mi.loweredLate = true →
    MediatedAt pre mi

/-- The output is completely mediated exactly when each tail call through
a register, TLS descriptor call, patch point and inline transfer had its
check before the pass. -/
theorem runOnMachineFunction_mediated_iff (mf : MachineFunction) :
    CompletelyMediated (runOnMachineFunction mf).2 ↔ LateMediated mf := by
  constructor
  · intro h mbb hmbb pre mi post hsplit hlate inst hinst r hr
    have hnone := not_instrumented_of_loweredLate hlate
    have hout : runOnBlock mbb = runOnBlock pre ++ mi :: runOnBlock post := by
      rw [hsplit]
      simp [runOnBlock, inserted_of_not_instrumented hnone]
    have hchecked := h (runOnBlock mbb) (List.mem_map_of_mem hmbb) _ mi _ hout inst hinst r hr
    exact (checked_runOnBlock_iff pre r).mp hchecked
  · intro h out hout pre mi post hsplit
    obtain ⟨mbb, hmbb, rfl⟩ := List.mem_map.mp hout
    rcases runOnBlock_split hsplit with ⟨pre₀, post₀, hsplit₀, rfl⟩ | ⟨mi₀, hmi₀⟩
    · cases hi : instrumented mi with
      | some check => exact mediatedAt_of_instrumented (by simp [hi]) (runOnBlock pre₀)
      | none =>
          rw [inserted_of_not_instrumented hi, List.append_nil]
          intro inst hinst r hr
          have hlate := loweredLate_of_transfers hi hinst hr
          exact (checked_runOnBlock_iff pre₀ r).mpr
            (h mbb hmbb pre₀ mi post₀ hsplit₀ hlate inst hinst r hr)
    · exact mediatedAt_of_inserted hmi₀ pre

/-- A tail call through x1 goes out without a check. -/
theorem tail_call_unmediated :
    ¬ CompletelyMediated (runOnMachineFunction [[.tcreturnri x1 0]]).2 := by
  intro h
  obtain ⟨sym, -, hsuffix⟩ := h [.tcreturnri x1 0] (List.mem_singleton_self _) [] (.tcreturnri x1 0)
    [] rfl (.op (.br x1)) (List.mem_singleton_self _) x1 rfl
  exact absurd (List.suffix_nil.mp hsuffix) (List.cons_ne_nil _ _)

end Cfv

end Oat
