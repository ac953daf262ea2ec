import Oat.Patch
import Oat.VeEncode
import Oat.VeHookit
import Oat.VeTbTargets

/-!
# The legacy instrumenter: `hookit` of `hookit_a64`

The first version of the tool rewrote the binary: each branch of a hooked
form becomes a BL to the hook of that form, in the mapped file, and its
source and destination go into the table of control flow statements.

The `elif` chain on the instruction is `forms`, in its order; an entry
carries what the `rewrite_*` function it calls differs in from the
others, under the name of that function. The loops are the machine of
`Ve.step` over other variables: `code` is what was read of the file at
the last restart, and the rewritten words are in `mm` only.
-/

namespace Oat

namespace Legacy

open Ve

/-! ## Instructions in detail -/

inductive InsnId where
  | b | br | bl | blr | ret | ldp | cbnz | cbz | tbz | tbnz
  | other
deriving Repr, DecidableEq

inductive Reg where
  | x0 | x1 | x2 | x3 | x17 | x20 | x29 | x30 | w0 | sp
  | other (n : Nat)
deriving Repr, DecidableEq

inductive OpType where
  | reg | imm | mem
  | other
deriving Repr, DecidableEq

/-- An operand, with the members that are read of it. -/
structure Operand where
  type : OpType
  reg : Reg
  imm : Int
  memBase : Reg
deriving Repr, DecidableEq

structure CsInsn where
  id : InsnId
  address : Int
  mnemonic : String
  operands : List Operand
  bytes : List UInt8
deriving Repr, DecidableEq

/-- Capstone on one word; the instructions have four bytes each. -/
structure Disasm where
  decode : List UInt8 → Int → Option CsInsn
  address_eq : ∀ word a i, decode word a = some i → i.address = a
  bytes_eq : ∀ word a i, decode word a = some i → i.bytes = word

/-- What `md.disasm(code, base)` yields at `g`. -/
def Disasm.insnAt (md : Disasm) (code : List UInt8) (base g : Int) : Option CsInsn :=
  if g < base then none
  else (window code (g - base).toNat 4).bind fun word => md.decode word g

/-! ## Options and the table -/

/-- The addresses of the hooks. -/
structure Hooks where
  b : Int
  brX1 : Int
  brX2 : Int
  brX17 : Int
  bl : Int
  blrX1 : Int
  blrX3 : Int
  ret : Int
  ldpX29X30Sp16 : Int
  ldpX29X30Sp32 : Int
  ldpX29X30Sp48 : Int
  ldpX29X30Sp64 : Int
  ldpX29X30Sp192 : Int
  bLe : Int
  bNe : Int
  bEq : Int
  bLt : Int
  bGt : Int
  bHi : Int
  bLs : Int
  cbnzW0 : Int
  cbnzX1 : Int
  cbzX0 : Int
  cbzX1 : Int
  cbzX2 : Int
  cbzX20 : Int
  tbzX0_3 : Int
  tbnzX0_3 : Int
deriving Repr, DecidableEq

structure Opts where
  loadAddress : Int
  textStart : Int
  textEnd : Int
  omitAddresses : List Int
  dryRun : Bool
  hooks : Hooks
deriving Repr, DecidableEq

inductive CFS where
  | b | brX1 | brX2 | brX17 | bl | blrX1 | blrX3 | ret
  | ldpX29X30Sp16 | ldpX29X30Sp32 | ldpX29X30Sp48 | ldpX29X30Sp64 | ldpX29X30Sp192
deriving Repr, DecidableEq

/-- `new_cfs`. -/
structure Cfs where
  type : CFS
  instr : List UInt8
  src : Int
  dst : Int
deriving Repr, DecidableEq

/-! ## The hooked forms -/

/-- How a statement gets its source and destination: 0 and 0, or the
address of the instruction and one of the `get_*_target`. -/
inductive SrcDst where
  | zero
  | branchTarget
  | condBranchTarget
  | tbTarget
deriving Repr, DecidableEq

def SrcDst.of (i : CsInsn) : SrcDst → Except PyError (Int × Int)
  | .zero => .ok (0, 0)
  | .branchTarget => (getBranchTarget i.address i.bytes).map (i.address, ·)
  | .condBranchTarget => (getCondBranchTarget i.address i.bytes).map (i.address, ·)
  | .tbTarget => (getTbTarget i.address i.bytes).map (i.address, ·)

/-- A case of the chain: its test, the type and the addresses its
statements have, and its hook. -/
structure Form where
  test : CsInsn → Bool
  type : CFS
  srcDst : SrcDst
  hook : Hooks → Int

def CsInsn.reg (i : CsInsn) (k : Nat) : Option Reg := (i.operands[k]?).map (·.reg)

def CsInsn.isReg (i : CsInsn) (k : Nat) (r : Reg) : Bool :=
  (i.operands[k]?).any fun op => op.type = .reg && op.reg = r

def CsInsn.isImm (i : CsInsn) (k : Nat) : Bool :=
  (i.operands[k]?).any fun op => op.type = .imm

def CsInsn.isImmOf (i : CsInsn) (k : Nat) (v : Int) : Bool :=
  (i.operands[k]?).any fun op => op.type = .imm && op.imm = v

/-- `value.mem.base == 4`: the number of SP. -/
def CsInsn.isMemSp (i : CsInsn) (k : Nat) : Bool :=
  (i.operands[k]?).any fun op => op.type = .mem && op.memBase = .sp

/-- The case of `rewrite_branch` in which it does not look at the condition. -/
def rewriteBranch : Form where
  test i := i.id = .b && !pyIn "b." i.mnemonic
  type := .b
  srcDst := .branchTarget
  hook := Hooks.b

/-- Where `rewrite_branch` hands a conditional branch on. -/
def rewriteBranchCond (mnemonic : String) (hook : Hooks → Int) : Form where
  test i := i.id = .b && pyIn "b." i.mnemonic && i.mnemonic = mnemonic
  type := .b
  srcDst := .condBranchTarget
  hook := hook

def rewriteBranchLe : Form := rewriteBranchCond "b.le" Hooks.bLe
def rewriteBranchNe : Form := rewriteBranchCond "b.ne" Hooks.bNe
def rewriteBranchEq : Form := rewriteBranchCond "b.eq" Hooks.bEq
def rewriteBranchLt : Form := rewriteBranchCond "b.lt" Hooks.bLt
def rewriteBranchGt : Form := rewriteBranchCond "b.gt" Hooks.bGt
def rewriteBranchLs : Form := rewriteBranchCond "b.ls" Hooks.bLs
def rewriteBranchHi : Form := rewriteBranchCond "b.hi" Hooks.bHi

def rewriteReg (id : InsnId) (r : Reg) (type : CFS) (hook : Hooks → Int) : Form where
  test i := i.id = id && i.operands.length = 1 && i.reg 0 = some r
  type := type
  srcDst := .zero
  hook := hook

def rewriteBranchRegX1 : Form := rewriteReg .br .x1 .brX1 Hooks.brX1
def rewriteBranchRegX2 : Form := rewriteReg .br .x2 .brX2 Hooks.brX2
def rewriteBranchRegX17 : Form := rewriteReg .br .x17 .brX17 Hooks.brX17
def rewriteBranchWithLinkRegX1 : Form := rewriteReg .blr .x1 .blrX1 Hooks.blrX1
def rewriteBranchWithLinkRegX3 : Form := rewriteReg .blr .x3 .blrX3 Hooks.blrX3

def rewriteBranchWithLink : Form where
  test i := i.id = .bl
  type := .bl
  srcDst := .branchTarget
  hook := Hooks.bl

def rewriteRet : Form where
  test i := i.id = .ret && i.operands.length = 0
  type := .ret
  srcDst := .zero
  hook := Hooks.ret

/-- The first of the LDP cases asks for the memory operand twice, and not
for X30. -/
def rewriteLdpX29X30Sp16 : Form where
  test i := i.id = .ldp && i.operands.length = 4 && i.reg 0 = some .x29 && i.isMemSp 2
    && i.isImmOf 3 16
  type := .ldpX29X30Sp16
  srcDst := .zero
  hook := Hooks.ldpX29X30Sp16

def rewriteLdpX29X30Sp (n : Int) (type : CFS) (hook : Hooks → Int) : Form where
  test i := i.id = .ldp && i.operands.length = 4 && i.reg 0 = some .x29 && i.reg 1 = some .x30
    && i.isMemSp 2 && i.isImmOf 3 n
  type := type
  srcDst := .zero
  hook := hook

def rewriteLdpX29X30Sp32 : Form := rewriteLdpX29X30Sp 32 .ldpX29X30Sp32 Hooks.ldpX29X30Sp32
def rewriteLdpX29X30Sp48 : Form := rewriteLdpX29X30Sp 48 .ldpX29X30Sp48 Hooks.ldpX29X30Sp48
def rewriteLdpX29X30Sp64 : Form := rewriteLdpX29X30Sp 64 .ldpX29X30Sp64 Hooks.ldpX29X30Sp64
def rewriteLdpX29X30Sp192 : Form := rewriteLdpX29X30Sp 192 .ldpX29X30Sp192 Hooks.ldpX29X30Sp192

def rewriteCompare (id : InsnId) (r : Reg) (hook : Hooks → Int) : Form where
  test i := i.id = id && i.operands.length = 2 && i.isReg 0 r && i.isImm 1
  type := .b
  srcDst := .condBranchTarget
  hook := hook

def rewriteCbnzX1 : Form := rewriteCompare .cbnz .x1 Hooks.cbnzX1
def rewriteCbnzW0 : Form := rewriteCompare .cbnz .w0 Hooks.cbnzW0
def rewriteCbzX0 : Form := rewriteCompare .cbz .x0 Hooks.cbzX0
def rewriteCbzX1 : Form := rewriteCompare .cbz .x1 Hooks.cbzX1
def rewriteCbzX2 : Form := rewriteCompare .cbz .x2 Hooks.cbzX2
def rewriteCbzX20 : Form := rewriteCompare .cbz .x20 Hooks.cbzX20

def rewriteTest (id : InsnId) (hook : Hooks → Int) : Form where
  test i := i.id = id && i.operands.length = 3 && i.isReg 0 .x0 && i.isImmOf 1 3 && i.isImm 2
  type := .b
  srcDst := .tbTarget
  hook := hook

def rewriteTbzX0_3 : Form := rewriteTest .tbz Hooks.tbzX0_3
def rewriteTbnzX0_3 : Form := rewriteTest .tbnz Hooks.tbnzX0_3

/-- The chain, in its order. -/
def forms : List Form :=
  [rewriteBranch, rewriteBranchLe, rewriteBranchNe, rewriteBranchEq, rewriteBranchLt,
    rewriteBranchGt, rewriteBranchLs, rewriteBranchHi, rewriteBranchRegX1, rewriteBranchRegX2,
    rewriteBranchRegX17, rewriteBranchWithLink, rewriteBranchWithLinkRegX1,
    rewriteBranchWithLinkRegX3, rewriteRet, rewriteLdpX29X30Sp16, rewriteLdpX29X30Sp32,
    rewriteLdpX29X30Sp48, rewriteLdpX29X30Sp64, rewriteLdpX29X30Sp192, rewriteCbnzX1,
    rewriteCbnzW0, rewriteCbzX0, rewriteCbzX1, rewriteCbzX2, rewriteCbzX20, rewriteTbzX0_3,
    rewriteTbnzX0_3]

/-- The case an instruction falls into. What is in none is logged only. -/
def formOf (i : CsInsn) : Option Form := forms.find? fun f => f.test i

/-- The first of the LDP cases is blind to the second register. -/
theorem rewriteLdpX29X30Sp16_test {i j : CsInsn} (hid : i.id = j.id)
    (hlen : i.operands.length = j.operands.length)
    (hsame : ∀ k, k ≠ 1 → i.operands[k]? = j.operands[k]?) :
    rewriteLdpX29X30Sp16.test i = rewriteLdpX29X30Sp16.test j := by
  have hreg : i.reg 0 = j.reg 0 := by rw [CsInsn.reg, CsInsn.reg, hsame 0 (by decide)]
  have hmem : i.isMemSp 2 = j.isMemSp 2 := by
    rw [CsInsn.isMemSp, CsInsn.isMemSp, hsame 2 (by decide)]
  have himm : i.isImmOf 3 16 = j.isImmOf 3 16 := by
    rw [CsInsn.isImmOf, CsInsn.isImmOf, hsame 3 (by decide)]
  simp only [rewriteLdpX29X30Sp16]
  rw [hid, hlen, hreg, hmem, himm]

/-- The other LDP cases take X30 only. -/
theorem rewriteLdpX29X30Sp_test {n : Int} {type : CFS} {hook : Hooks → Int} {i : CsInsn}
    (h : (rewriteLdpX29X30Sp n type hook).test i = true) : i.reg 1 = some .x30 := by
  simp only [rewriteLdpX29X30Sp, Bool.and_eq_true, decide_eq_true_eq] at h
  exact h.1.1.2

/-! ## Rewriting -/

/-- `write_back`; seeking or writing outside the file raises. -/
def writeBack (mm : List UInt8) (addr : Int) (word : List UInt8) : Except PyError (List UInt8) :=
  if addr < 0 ∨ mm.length < addr + word.length then .error .valueError
  else .ok (overwrite mm addr.toNat word)

/-- The local variables of `hookit`. -/
structure Vars where
  mm : List UInt8
  controlFlowStatements : List Cfs
  code : List UInt8
  currentAddress : Int
  prevAddress : Int
  i : Option Int
deriving Repr, DecidableEq

/-- The body that the `rewrite_*` functions have in common. -/
def Form.rewrite (f : Form) (opts : Opts) (i : CsInsn) (s : Vars) : Except PyError Vars :=
  match newBranchWithLinkInstruction i.address (f.hook opts.hooks) with
  | none => .error .typeError
  | some word => do
      let (src, dst) ← f.srcDst.of i
      let s := { s with
        controlFlowStatements := s.controlFlowStatements ++ [⟨f.type, i.bytes, src, dst⟩] }
      if opts.dryRun then pure s
      else
        let mm ← writeBack s.mm (i.address - opts.loadAddress) word
        pure { s with mm := mm }

def dispatch (opts : Opts) (i : CsInsn) (s : Vars) : Except PyError Vars :=
  match formOf i with
  | some f => f.rewrite opts i s
  | none => pure s

/-! ## The loops -/

/-- The body of the `for` loop: whether it breaks, and the variables
after. The test for the end of the text comes last. -/
def forBody (opts : Opts) (i : CsInsn) (s : Vars) : Except PyError (Bool × Vars) :=
  let s := { s with i := some i.address }
  -- Workaround for md.disasm returning dublicate instructions
  if i.address = s.prevAddress then pure (false, s)
  else
    let s := { s with prevAddress := i.address }
    if i.address ∈ opts.omitAddresses then pure (decide (opts.textEnd ≤ i.address), s)
    else do
      let s ← dispatch opts i s
      pure (decide (opts.textEnd ≤ i.address), s)

structure Conf where
  vars : Vars
  mode : Mode
deriving Repr, DecidableEq

/-- The end of a turn of the `while` loop. -/
def afterFor (opts : Opts) (s : Vars) : Conf :=
  match s.i with
  | none => ⟨s, .raised .nameError⟩
  | some i =>
      let current := if s.currentAddress < i then i else s.currentAddress + 4
      let s := { s with currentAddress := current }
      if opts.textEnd ≤ current ∨ opts.loadAddress + s.mm.length ≤ current then ⟨s, .finished⟩
      else if current < opts.loadAddress then ⟨s, .raised .valueError⟩
      else ⟨{ s with code := s.mm.drop (current - opts.loadAddress).toNat }, .outer⟩

def step (opts : Opts) (md : Disasm) (c : Conf) : Conf :=
  match c.mode with
  | .outer => { c with mode := .scan c.vars.currentAddress }
  | .scan g =>
      match md.insnAt c.vars.code c.vars.currentAddress g with
      | none => afterFor opts c.vars
      | some i =>
          match forBody opts i c.vars with
          | .error err => ⟨c.vars, .raised err⟩
          | .ok (true, s) => afterFor opts s
          | .ok (false, s) => ⟨s, .scan (g + 4)⟩
  | .finished => c
  | .raised _ => c

/-- `hookit` up to its `while` loop; an empty file cannot be mapped. -/
def hookitStart (opts : Opts) (file : List UInt8) : Except PyError Conf :=
  let offset := opts.textStart - opts.loadAddress
  if file = [] ∨ offset < 0 ∨ file.length < offset then .error .valueError
  else .ok ⟨⟨file, [], file.drop offset.toNat, opts.loadAddress + offset, -0x0001, none⟩, .outer⟩

/-- `hookit` returns, with the file and the table it leaves. -/
def Returns (opts : Opts) (md : Disasm) (file : List UInt8) (mm : List UInt8)
    (table : List Cfs) : Prop :=
  ∃ c₀ n, hookitStart opts file = .ok c₀ ∧ ((step opts md)^[n] c₀).mode = .finished ∧
    ((step opts md)^[n] c₀).vars.mm = mm ∧
    ((step opts md)^[n] c₀).vars.controlFlowStatements = table

end Legacy

end Oat
