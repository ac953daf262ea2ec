import Mathlib.Algebra.Group.Nat.Defs
import Oat.StepRun

/-!
# A machine for A64 code that calls C functions

Registers, memory and the few instructions a call sequence is made of:
additions to the stack pointer, pair stores and loads, register moves,
and the branches with link and return. A C function is not code here but
what it does to the machine between its entry and its return
(`Linked.foreign`); `step` records each such call with its first two
arguments. `Conforms` is what the procedure call standard promises of
one.

`CodeAt` says that a list of instructions lies at an address, and
`run_block` executes a list that does not branch in one go.
-/

namespace Oat

namespace A64

/-! ## State -/

/-- A 64-bit general register, or the zero register. -/
inductive XReg where
  | x (n : Fin 31)
  | zr
deriving Repr, DecidableEq

/-- The general register with the number `n`, which is below 31. -/
def reg (n : Nat) : Fin 31 := ⟨n % 31, Nat.mod_lt n (Nat.succ_pos 30)⟩

def xr (n : Nat) : XReg := .x (reg n)

/-- The value of a register in a register file. -/
def XReg.value (r : XReg) (x : Fin 31 → BitVec 64) : BitVec 64 :=
  match r with
  | .x n => x n
  | .zr => 0

@[simp] theorem XReg.value_x (n : Fin 31) (x : Fin 31 → BitVec 64) : (XReg.x n).value x = x n := rfl

@[simp] theorem XReg.value_zr (x : Fin 31 → BitVec 64) : XReg.zr.value x = 0#64 := rfl

/-- A 64-bit general register, or the stack pointer. -/
inductive SpReg where
  | x (n : Fin 31)
  | sp
deriving Repr, DecidableEq

abbrev Mem := BitVec 64 → BitVec 8

structure Machine where
  x : Fin 31 → BitVec 64
  sp : BitVec 64
  v : Fin 32 → BitVec 128
  nzcv : BitVec 4
  mem : Mem
  pc : BitVec 64

namespace Machine

def getX (m : Machine) (r : XReg) : BitVec 64 := r.value m.x

def setX (m : Machine) (r : XReg) (value : BitVec 64) : Machine :=
  match r with
  | .x n => { m with x := Function.update m.x n value }
  | .zr => m

def getSp (m : Machine) : SpReg → BitVec 64
  | .x n => m.x n
  | .sp => m.sp

def setSp (m : Machine) (r : SpReg) (value : BitVec 64) : Machine :=
  match r with
  | .x n => { m with x := Function.update m.x n value }
  | .sp => { m with sp := value }

def next (m : Machine) : Machine := { m with pc := m.pc + 4 }

@[simp] theorem setX_pc (m : Machine) (r : XReg) (value : BitVec 64) :
    (m.setX r value).pc = m.pc := by
  cases r <;> rfl

@[simp] theorem setSp_pc (m : Machine) (r : SpReg) (value : BitVec 64) :
    (m.setSp r value).pc = m.pc := by
  cases r <;> rfl

@[simp] theorem next_pc (m : Machine) : m.next.pc = m.pc + 4 := rfl

end Machine

/-! ## Words in memory -/

/-- Little-endian. -/
def writeWord (mem : Mem) (a value : BitVec 64) : Mem := fun b =>
  if (b - a).toNat < 8 then value.extractLsb' (8 * (b - a).toNat) 8 else mem b

def readWord (mem : Mem) (a : BitVec 64) : BitVec 64 :=
  mem (a + 7) ++ mem (a + 6) ++ mem (a + 5) ++ mem (a + 4) ++ mem (a + 3) ++ mem (a + 2)
    ++ mem (a + 1) ++ mem a

theorem append_bytes (w : BitVec 64) :
    w.extractLsb' 56 8 ++ w.extractLsb' 48 8 ++ w.extractLsb' 40 8 ++ w.extractLsb' 32 8
      ++ w.extractLsb' 24 8 ++ w.extractLsb' 16 8 ++ w.extractLsb' 8 8 ++ w.extractLsb' 0 8 = w := by
  ext i hi
  simp only [BitVec.getElem_append, BitVec.getElem_extractLsb']
  split_ifs <;>
    (rw [← BitVec.getLsbD_eq_getElem]
     congr 1
     omega)

theorem readWord_writeWord_self (mem : Mem) (a value : BitVec 64) :
    readWord (writeWord mem a value) a = value := by
  have hoff : ∀ k : BitVec 64, a + k - a = k := fun k => by bv_omega
  simp only [readWord, writeWord, hoff, BitVec.sub_self]
  exact append_bytes value

theorem writeWord_of_ge (mem : Mem) {a b : BitVec 64} (value : BitVec 64)
    (h : 8 ≤ (b - a).toNat) : writeWord mem a value b = mem b := by
  rw [writeWord, if_neg (Nat.not_lt.mpr h)]

theorem readWord_congr {mem mem' : Mem} {a : BitVec 64}
    (h : ∀ k : BitVec 64, k.toNat < 8 → mem' (a + k) = mem (a + k)) :
    readWord mem' a = readWord mem a := by
  have h₀ : mem' a = mem a := by simpa using h 0 (by decide)
  rw [readWord, h 7 (by decide), h 6 (by decide), h 5 (by decide), h 4 (by decide),
    h 3 (by decide), h 2 (by decide), h 1 (by decide), h₀, readWord]

/-- Words one after the other. -/
def storeWords (mem : Mem) (base : BitVec 64) : List (BitVec 64) → Mem
  | [] => mem
  | w :: ws => storeWords (writeWord mem base w) (base + 8) ws

theorem storeWords_of_ge {ws : List (BitVec 64)} (hlen : 8 * ws.length < 2 ^ 64) (mem : Mem)
    {base b : BitVec 64} (h : 8 * ws.length ≤ (b - base).toNat) :
    storeWords mem base ws b = mem b := by
  induction ws generalizing mem base with
  | nil => rfl
  | cons w ws ih =>
      rw [List.length_cons] at h hlen
      have hrest : 8 * ws.length ≤ (b - (base + 8)).toNat := by bv_omega
      rw [storeWords, ih (by omega) _ hrest, writeWord_of_ge mem w (by omega)]

theorem readWord_storeWords_of_ge {ws : List (BitVec 64)} (mem : Mem) {base b : BitVec 64}
    (h : 8 * ws.length ≤ (b - base).toNat) (hb : (b - base).toNat + 8 ≤ 2 ^ 64) :
    readWord (storeWords mem base ws) b = readWord mem b := by
  refine readWord_congr fun k hk => storeWords_of_ge (by omega) mem ?_
  have hdiff : b + k - base = b - base + k := by bv_omega
  rw [hdiff]
  bv_omega

/-- A frame is read back word by word. -/
theorem readWord_storeWords {ws : List (BitVec 64)} (hlen : 8 * ws.length < 2 ^ 64) (mem : Mem)
    (base : BitVec 64) {i : Nat} (hi : i < ws.length) :
    readWord (storeWords mem base ws) (base + BitVec.ofNat 64 (8 * i)) = ws[i] := by
  induction ws generalizing mem base i with
  | nil => cases hi
  | cons w ws ih =>
      rw [List.length_cons] at hlen hi
      cases i with
      | zero =>
          have hbase : base + BitVec.ofNat 64 (8 * 0) = base := by simp
          have hbefore : (base - (base + 8)).toNat = 2 ^ 64 - 8 := by
            have hneg : base - (base + 8) = -8 := by bv_omega
            rw [hneg]
            rfl
          rw [hbase, storeWords, readWord_storeWords_of_ge _ (by omega) (by omega),
            readWord_writeWord_self]
          rfl
      | succ i =>
          have hnext : base + BitVec.ofNat 64 (8 * (i + 1))
              = base + 8 + BitVec.ofNat 64 (8 * i) := by bv_omega
          rw [hnext, storeWords, ih (by omega) _ _ (by omega)]
          rfl

/-! ## Instructions -/

/-- How a pair access uses its offset. -/
inductive Indexing where
  | offset
  | pre
  | post
deriving Repr, DecidableEq

inductive Op where
  | addImm (rd rn : SpReg) (imm : Int)
  | subImm (rd rn : SpReg) (imm : Int)
  | orr (rd rn rm : XReg) (amount : Nat)
  | stp (rt rt2 : XReg) (rn : SpReg) (idx : Indexing) (imm : Int)
  | ldp (rt rt2 : XReg) (rn : SpReg) (idx : Indexing) (imm : Int)
  | bl (sym : String)
  | blr (rn : XReg)
  | br (rn : XReg)
  | ret (rn : XReg)
deriving Repr, DecidableEq

def Indexing.address (base imm : BitVec 64) : Indexing → BitVec 64
  | .post => base
  | _ => base + imm

def Indexing.writeback (rn : SpReg) (value : BitVec 64) (m : Machine) : Indexing → Machine
  | .offset => m
  | _ => m.setSp rn value

@[simp] theorem Indexing.writeback_pc (idx : Indexing) (rn : SpReg) (value : BitVec 64)
    (m : Machine) : (idx.writeback rn value m).pc = m.pc := by
  cases idx <;> simp [writeback]

/-- What an instruction does, with the symbols at their addresses. -/
def Op.exec (syms : String → BitVec 64) (m : Machine) : Op → Machine
  | .addImm rd rn imm => (m.setSp rd (m.getSp rn + BitVec.ofInt 64 imm)).next
  | .subImm rd rn imm => (m.setSp rd (m.getSp rn - BitVec.ofInt 64 imm)).next
  | .orr rd rn rm amount => (m.setX rd (m.getX rn ||| (m.getX rm <<< amount))).next
  | .stp rt rt2 rn idx imm =>
      let base := m.getSp rn
      let a := idx.address base (BitVec.ofInt 64 imm)
      let mem := writeWord (writeWord m.mem a (m.getX rt)) (a + 8) (m.getX rt2)
      (idx.writeback rn (base + BitVec.ofInt 64 imm) { m with mem := mem }).next
  | .ldp rt rt2 rn idx imm =>
      let base := m.getSp rn
      let a := idx.address base (BitVec.ofInt 64 imm)
      let m' := (m.setX rt (readWord m.mem a)).setX rt2 (readWord m.mem (a + 8))
      (idx.writeback rn (base + BitVec.ofInt 64 imm) m').next
  | .bl sym => { m.setX (.x (reg 30)) (m.pc + 4) with pc := syms sym }
  | .blr rn => { m.setX (.x (reg 30)) (m.pc + 4) with pc := m.getX rn }
  | .br rn => { m with pc := m.getX rn }
  | .ret rn => { m with pc := m.getX rn }

section Exec

variable (syms : String → BitVec 64) (x : Fin 31 → BitVec 64) (sp : BitVec 64)
  (v : Fin 32 → BitVec 128) (nzcv : BitVec 4) (mem : Mem) (pc : BitVec 64)

theorem exec_subSp (imm : Int) :
    Op.exec syms ⟨x, sp, v, nzcv, mem, pc⟩ (.subImm .sp .sp imm)
      = ⟨x, sp - BitVec.ofInt 64 imm, v, nzcv, mem, pc + 4⟩ := rfl

theorem exec_addSp (imm : Int) :
    Op.exec syms ⟨x, sp, v, nzcv, mem, pc⟩ (.addImm .sp .sp imm)
      = ⟨x, sp + BitVec.ofInt 64 imm, v, nzcv, mem, pc + 4⟩ := rfl

theorem exec_orr (d : Fin 31) (rn rm : XReg) :
    Op.exec syms ⟨x, sp, v, nzcv, mem, pc⟩ (.orr (.x d) rn rm 0)
      = ⟨Function.update x d (rn.value x ||| rm.value x), sp, v, nzcv, mem, pc + 4⟩ := by
  simp [Op.exec, Machine.setX, Machine.getX, Machine.next]

theorem exec_stp_offset (a b : Fin 31) (imm : Int) :
    Op.exec syms ⟨x, sp, v, nzcv, mem, pc⟩ (.stp (.x a) (.x b) .sp .offset imm)
      = ⟨x, sp, v, nzcv, writeWord (writeWord mem (sp + BitVec.ofInt 64 imm) (x a))
          (sp + BitVec.ofInt 64 imm + 8) (x b), pc + 4⟩ := rfl

theorem exec_stp_pre (a b : Fin 31) (imm : Int) :
    Op.exec syms ⟨x, sp, v, nzcv, mem, pc⟩ (.stp (.x a) (.x b) .sp .pre imm)
      = ⟨x, sp + BitVec.ofInt 64 imm, v, nzcv,
          writeWord (writeWord mem (sp + BitVec.ofInt 64 imm) (x a))
            (sp + BitVec.ofInt 64 imm + 8) (x b), pc + 4⟩ := rfl

theorem exec_ldp_offset (a b : Fin 31) (imm : Int) :
    Op.exec syms ⟨x, sp, v, nzcv, mem, pc⟩ (.ldp (.x a) (.x b) .sp .offset imm)
      = ⟨Function.update (Function.update x a (readWord mem (sp + BitVec.ofInt 64 imm))) b
          (readWord mem (sp + BitVec.ofInt 64 imm + 8)), sp, v, nzcv, mem, pc + 4⟩ := rfl

theorem exec_ldp_post (a b : Fin 31) (imm : Int) :
    Op.exec syms ⟨x, sp, v, nzcv, mem, pc⟩ (.ldp (.x a) (.x b) .sp .post imm)
      = ⟨Function.update (Function.update x a (readWord mem sp)) b (readWord mem (sp + 8)),
          sp + BitVec.ofInt 64 imm, v, nzcv, mem, pc + 4⟩ := rfl

end Exec

/-- An instruction after which the next one is executed. -/
def Op.straight : Op → Bool
  | .bl _ => false
  | .blr _ => false
  | .br _ => false
  | .ret _ => false
  | _ => true

/-! ## Programs -/

/-- The instructions lie one after the other from the address on. -/
def CodeAt (code : BitVec 64 → Option Op) : BitVec 64 → List Op → Prop
  | _, [] => True
  | a, op :: ops => code a = some op ∧ CodeAt code (a + 4) ops

instance decidableCodeAt (code : BitVec 64 → Option Op) :
    ∀ (a : BitVec 64) (ops : List Op), Decidable (CodeAt code a ops)
  | _, [] => inferInstanceAs (Decidable True)
  | a, op :: ops =>
      have := decidableCodeAt code (a + 4) ops
      inferInstanceAs (Decidable (code a = some op ∧ CodeAt code (a + 4) ops))

theorem codeAt_append {code : BitVec 64 → Option Op} {a : BitVec 64} {ops ops' : List Op} :
    CodeAt code a (ops ++ ops') ↔
      CodeAt code a ops ∧ CodeAt code (a + 4 * BitVec.ofNat 64 ops.length) ops' := by
  induction ops generalizing a with
  | nil => simp [CodeAt]
  | cons op ops ih =>
      have hend : a + 4 + 4 * BitVec.ofNat 64 ops.length
          = a + 4 * BitVec.ofNat 64 (op :: ops).length := by
        rw [List.length_cons]
        bv_omega
      rw [List.cons_append, CodeAt, CodeAt, ih, hend, and_assoc]

/-- Code at its addresses, symbols, and the C functions at theirs: what
each does to the machine until it returns. -/
structure Linked where
  code : BitVec 64 → Option Op
  syms : String → BitVec 64
  foreign : BitVec 64 → Option (Machine → Machine)

/-- A call of a C function: its address and its first two arguments. -/
structure Call where
  callee : BitVec 64
  arg0 : BitVec 64
  arg1 : BitVec 64
deriving Repr, DecidableEq

structure Config where
  machine : Machine
  calls : List Call

namespace Linked

variable (P : Linked)

def step (c : Config) : Config :=
  match P.code c.machine.pc with
  | some op => { c with machine := op.exec P.syms c.machine }
  | none =>
      match P.foreign c.machine.pc with
      | some body =>
          ⟨body c.machine, c.calls ++ [⟨c.machine.pc, c.machine.x (reg 0), c.machine.x (reg 1)⟩]⟩
      | none => c

/-- The effect of instructions none of which branches. -/
def execAll (m : Machine) (ops : List Op) : Machine :=
  ops.foldl (fun m op => op.exec P.syms m) m

variable {P}

theorem step_code {c : Config} {op : Op} (h : P.code c.machine.pc = some op) :
    P.step c = { c with machine := op.exec P.syms c.machine } := by
  rw [step, h]

theorem step_foreign {c : Config} {body : Machine → Machine} (hc : P.code c.machine.pc = none)
    (he : P.foreign c.machine.pc = some body) :
    P.step c = ⟨body c.machine,
      c.calls ++ [⟨c.machine.pc, c.machine.x (reg 0), c.machine.x (reg 1)⟩]⟩ := by
  rw [step, hc, he]

theorem exec_pc {op : Op} (h : op.straight = true) (m : Machine) :
    (op.exec P.syms m).pc = m.pc + 4 := by
  cases op with
  | bl sym => cases h
  | blr rn => cases h
  | br rn => cases h
  | ret rn => cases h
  | addImm | subImm | orr | stp | ldp => simp [Op.exec]

/-- A block that does not branch is executed from its first instruction
to past its last. -/
theorem run_block {ops : List Op} (hs : ∀ op ∈ ops, op.straight = true) {m : Machine}
    (h : CodeAt P.code m.pc ops) (calls : List Call) :
    P.step^[ops.length] ⟨m, calls⟩ = ⟨P.execAll m ops, calls⟩ := by
  induction ops generalizing m with
  | nil => rfl
  | cons op ops ih =>
      have hpc := exec_pc (P := P) (hs op (List.mem_cons_self ..)) m
      rw [List.length_cons, Function.iterate_succ_apply, step_code h.1]
      refine ih (fun o ho => hs o (List.mem_cons_of_mem _ ho)) ?_
      rw [hpc]
      exact h.2

end Linked

/-! ## The procedure call standard -/

/-- What a conforming function guarantees its caller: it comes back, with
x19 to x29, the stack pointer, the low halves of v8 to v15, and all
memory from the stack pointer up as they were. -/
structure Conforms (body : Machine → Machine) : Prop where
  returns : ∀ m, (body m).pc = m.x (reg 30)
  saved : ∀ m (n : Fin 31), 19 ≤ n.val → n.val ≤ 29 → (body m).x n = m.x n
  sp : ∀ m, (body m).sp = m.sp
  vLow : ∀ m (n : Fin 32), 8 ≤ n.val → n.val ≤ 15 →
    ((body m).v n).extractLsb' 0 64 = (m.v n).extractLsb' 0 64
  mem : ∀ m a, m.sp ≤ a → (body m).mem a = m.mem a

end A64

end Oat
