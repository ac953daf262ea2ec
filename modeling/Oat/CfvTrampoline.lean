import Mathlib.Data.Fintype.Basic
import Mathlib.Tactic.FinCases
import Oat.CfvPass

/-!
# The check sequence and its trampoline

What happens when the six instructions of the pass run, up to the branch
they were put in front of: they call a trampoline (`trampoline.S`), which
calls the hook (a C function of `nova.c`) and comes back.

Every register a conforming hook may change has to be saved by one of the
two layers. The pass saves x0 and x30, the trampoline x0 to x15 and x30;
x16, x17, x18 and the vector registers are saved by neither.
`check_run` follows the run; by `check_transparent_iff` the check is
transparent exactly when the hook leaves these alone.
-/

namespace Oat

namespace Cfv

open A64

/-! ## The code -/

inductive TransferKind where
  | icall
  | ijmp
  | ret
deriving Repr, DecidableEq

namespace TransferKind

def sym : TransferKind → String
  | icall => symICall
  | ijmp => symIJmp
  | ret => symRet

def hook : TransferKind → String
  | icall => "cfv_icall"
  | ijmp => "cfv_ijmp"
  | ret => "cfv_ret"

def op (k : TransferKind) (rn : XReg) : Op :=
  match k with
  | icall => .blr rn
  | ijmp => .br rn
  | ret => .ret rn

theorem op_exec_pc (k : TransferKind) (rn : XReg) (syms : String → BitVec 64) (m : Machine) :
    ((k.op rn).exec syms m).pc = rn.value m.x := by
  cases k <;> rfl

end TransferKind

def prologueOps (targetReg : XReg) : List Op :=
  [.subImm .sp .sp 16, .stp x0 lr .sp .offset 0, .orr x0 targetReg .zr 0]

def epilogueOps : List Op := [.ldp x0 lr .sp .offset 0, .addImm .sp .sp 16]

/-- The check as it is printed. -/
def checkOps (sym : String) (targetReg : XReg) : List Op :=
  prologueOps targetReg ++ [.bl sym] ++ epilogueOps

theorem emit_handleControlTransfer (sym : String) (targetReg : XReg) :
    (handleControlTransfer sym targetReg).flatMap emitInstruction
      = (checkOps sym targetReg).map .op := rfl

/-- Before the call of the hook. -/
def saveOps : List Op :=
  [.stp (xr 0) (xr 1) .sp .pre (-144),
   .stp (xr 2) (xr 3) .sp .offset 16,
   .stp (xr 4) (xr 5) .sp .offset 32,
   .stp (xr 6) (xr 7) .sp .offset 48,
   .stp (xr 8) (xr 9) .sp .offset 64,
   .stp (xr 10) (xr 11) .sp .offset 80,
   .stp (xr 12) (xr 13) .sp .offset 96,
   .stp (xr 14) (xr 15) .sp .offset 112,
   .stp (xr 0) (xr 30) .sp .offset 128,
   .orr (xr 1) .zr (xr 30) 0]

/-- After it. -/
def restoreOps : List Op :=
  [.ldp (xr 2) (xr 3) .sp .offset 16,
   .ldp (xr 4) (xr 5) .sp .offset 32,
   .ldp (xr 6) (xr 7) .sp .offset 48,
   .ldp (xr 8) (xr 9) .sp .offset 64,
   .ldp (xr 10) (xr 11) .sp .offset 80,
   .ldp (xr 12) (xr 13) .sp .offset 96,
   .ldp (xr 14) (xr 15) .sp .offset 112,
   .ldp (xr 0) (xr 30) .sp .offset 128,
   .ldp (xr 0) (xr 1) .sp .post 144]

/-- The three trampolines differ in the hook only. -/
def trampoline (hook : String) : List Op := saveOps ++ [.bl hook] ++ restoreOps ++ [.ret (xr 30)]

/-- `__cfv_icall`, `__cfv_ijmp` or `__cfv_ret`. -/
def TransferKind.trampoline (k : TransferKind) : List Op := Cfv.trampoline k.hook

/-- At `p` lies a check with the transfer it is for, the trampoline and
the hook are where their symbols say, and the hook is `body`. -/
structure Installed (P : Linked) (k : TransferKind) (targetReg : XReg)
    (body : Machine → Machine) (p : BitVec 64) : Prop where
  check : CodeAt P.code p (checkOps k.sym targetReg ++ [k.op targetReg])
  trampoline : CodeAt P.code (P.syms k.sym) k.trampoline
  notCode : P.code (P.syms k.hook) = none
  foreign : P.foreign (P.syms k.hook) = some body

/-! ## The four stretches of code -/

theorem prologueOps_straight (targetReg : XReg) :
    ∀ op ∈ prologueOps targetReg, op.straight = true := by
  simp [prologueOps, Op.straight]

theorem saveOps_straight : ∀ op ∈ saveOps, op.straight = true := by decide

theorem restoreOps_straight : ∀ op ∈ restoreOps, op.straight = true := by decide

theorem epilogueOps_straight : ∀ op ∈ epilogueOps, op.straight = true := by decide

section Stretches

variable (P : Linked) (x : Fin 31 → BitVec 64) (base : BitVec 64) (v : Fin 32 → BitVec 128)
  (nzcv : BitVec 4) (mem : Mem) (pc : BitVec 64)

theorem exec_prologue (targetReg : XReg) :
    P.execAll ⟨x, base + 16, v, nzcv, mem, pc⟩ (prologueOps targetReg)
      = ⟨Function.update x (reg 0) (targetReg.value x), base, v, nzcv,
          storeWords mem base [x (reg 0), x (reg 30)], pc + 12⟩ := by
  simp only [Linked.execAll, prologueOps, List.foldl_cons, List.foldl_nil, x0, lr, xr, exec_subSp,
    exec_stp_offset, exec_orr, storeWords, XReg.value_zr, BitVec.or_zero, BitVec.reduceOfInt,
    BitVec.ofNat_eq_ofNat, BitVec.add_sub_cancel, BitVec.add_assoc, BitVec.reduceAdd,
    BitVec.add_zero]

/-- What `saveOps` saves. -/
def frameWords : List (BitVec 64) :=
  [x (reg 0), x (reg 1), x (reg 2), x (reg 3), x (reg 4), x (reg 5), x (reg 6), x (reg 7),
   x (reg 8), x (reg 9), x (reg 10), x (reg 11), x (reg 12), x (reg 13), x (reg 14), x (reg 15),
   x (reg 0), x (reg 30)]

theorem exec_saveOps :
    P.execAll ⟨x, base + 144, v, nzcv, mem, pc⟩ saveOps
      = ⟨Function.update x (reg 1) (x (reg 30)), base, v, nzcv,
          storeWords mem base (frameWords x), pc + 40⟩ := by
  simp only [Linked.execAll, saveOps, frameWords, List.foldl_cons, List.foldl_nil, xr, exec_stp_pre,
    exec_stp_offset, exec_orr, storeWords, XReg.value_x, XReg.value_zr, BitVec.zero_or,
    BitVec.reduceOfInt, BitVec.ofNat_eq_ofNat, BitVec.add_assoc, BitVec.reduceAdd, BitVec.add_zero]

/-- The registers after `restoreOps`: x0 to x15 and x30 are read from the
frame. -/
def restored : Fin 31 → BitVec 64 := fun n =>
  if n.val ≤ 15 then readWord mem (base + BitVec.ofNat 64 (8 * n.val))
  else if n = reg 30 then readWord mem (base + 136)
  else x n

theorem exec_restoreOps :
    P.execAll ⟨x, base, v, nzcv, mem, pc⟩ restoreOps
      = ⟨restored x base mem, base + 144, v, nzcv, mem, pc + 36⟩ := by
  simp only [Linked.execAll, restoreOps, List.foldl_cons, List.foldl_nil, xr, exec_ldp_post,
    exec_ldp_offset, BitVec.reduceOfInt, BitVec.ofNat_eq_ofNat, BitVec.add_assoc, BitVec.reduceAdd,
    Machine.mk.injEq, and_true]
  funext n
  fin_cases n <;> simp [restored, reg]

theorem exec_epilogue :
    P.execAll ⟨x, base, v, nzcv, mem, pc⟩ epilogueOps
      = ⟨Function.update (Function.update x (reg 0) (readWord mem base)) (reg 30)
          (readWord mem (base + 8)), base + 16, v, nzcv, mem, pc + 8⟩ := by
  simp only [Linked.execAll, epilogueOps, List.foldl_cons, List.foldl_nil, x0, lr, xr,
    exec_ldp_offset, exec_addSp, BitVec.reduceOfInt, BitVec.ofNat_eq_ofNat, BitVec.add_assoc, BitVec.reduceAdd,
    BitVec.add_zero]

end Stretches

/-! ## The run -/

section Run

variable {P : Linked} {k : TransferKind} {targetReg : XReg} {body : Machine → Machine}
  {p : BitVec 64}

/-- The code of an installed check, stretch by stretch. -/
theorem Installed.blocks (hi : Installed P k targetReg body p) :
    CodeAt P.code p (prologueOps targetReg)
      ∧ P.code (p + 12) = some (.bl k.sym)
      ∧ CodeAt P.code (P.syms k.sym) saveOps
      ∧ P.code (P.syms k.sym + 40) = some (.bl k.hook)
      ∧ CodeAt P.code (P.syms k.sym + 44) restoreOps
      ∧ P.code (P.syms k.sym + 80) = some (.ret (xr 30))
      ∧ CodeAt P.code (p + 16) epilogueOps := by
  have hc := hi.check
  have ht := hi.trampoline
  simp only [checkOps, codeAt_append] at hc
  simp only [TransferKind.trampoline, Cfv.trampoline, codeAt_append] at ht
  obtain ⟨⟨⟨hpro, hbl⟩, hepi⟩, -⟩ := hc
  obtain ⟨⟨⟨hsave, hblHook⟩, hrestore⟩, hret⟩ := ht
  refine ⟨hpro, ?_, hsave, ?_, ?_, ?_, ?_⟩
  · simpa [prologueOps] using hbl.1
  · simpa [saveOps] using hblHook.1
  · simpa [saveOps, BitVec.add_assoc] using hrestore
  · simpa [saveOps, restoreOps, BitVec.add_assoc] using hret.1
  · simpa [prologueOps, BitVec.add_assoc] using hepi

/-- The registers when the trampoline is entered. -/
def calledX (x : Fin 31 → BitVec 64) (targetReg : XReg) (p : BitVec 64) : Fin 31 → BitVec 64 :=
  Function.update (Function.update x (reg 0) (targetReg.value x)) (reg 30) (p + 16)

/-- The registers when the hook is entered. -/
def entryX (x : Fin 31 → BitVec 64) (targetReg : XReg) (p ret : BitVec 64) : Fin 31 → BitVec 64 :=
  Function.update (Function.update (calledX x targetReg p) (reg 1) (p + 16)) (reg 30) ret

/-- The memory when the hook is entered: two frames on the stack. -/
def entryMem (x : Fin 31 → BitVec 64) (targetReg : XReg) (p base : BitVec 64) (mem : Mem) : Mem :=
  storeWords (storeWords mem (base + 144) [x (reg 0), x (reg 30)]) base
    (frameWords (calledX x targetReg p))

variable (x : Fin 31 → BitVec 64) (base : BitVec 64) (v : Fin 32 → BitVec 128)
  (nzcv : BitVec 4) (mem : Mem) (calls : List Call)

/-- The check up to the entry of the hook. -/
theorem run_to_hook (hi : Installed P k targetReg body p) :
    P.step^[15] ⟨⟨x, base + 160, v, nzcv, mem, p⟩, calls⟩
      = ⟨⟨entryX x targetReg p (P.syms k.sym + 44), base, v, nzcv,
          entryMem x targetReg p base mem, P.syms k.hook⟩, calls⟩ := by
  obtain ⟨hpro, hbl, hsave, hblHook, -, -, -⟩ := hi.blocks
  let m₁ : Machine := ⟨Function.update x (reg 0) (targetReg.value x), base + 144, v, nzcv,
    storeWords mem (base + 144) [x (reg 0), x (reg 30)], p + 12⟩
  let m₂ : Machine := ⟨calledX x targetReg p, base + 144, v, nzcv,
    storeWords mem (base + 144) [x (reg 0), x (reg 30)], P.syms k.sym⟩
  let m₃ : Machine := ⟨Function.update (calledX x targetReg p) (reg 1) (p + 16), base, v, nzcv,
    entryMem x targetReg p base mem, P.syms k.sym + 40⟩
  have h₁ : P.step^[3] ⟨⟨x, base + 160, v, nzcv, mem, p⟩, calls⟩ = ⟨m₁, calls⟩ := by
    have hsp : base + 160 = base + 144 + 16 := by bv_omega
    rw [hsp]
    exact (Linked.run_block (prologueOps_straight targetReg) hpro calls).trans
      (congrArg (Config.mk · calls) (exec_prologue P x (base + 144) v nzcv mem p targetReg))
  have h₂ : P.step ⟨m₁, calls⟩ = ⟨m₂, calls⟩ := by
    rw [Linked.step_code hbl]
    simp [Op.exec, Machine.setX, m₁, m₂, calledX, BitVec.add_assoc]
  have h₃ : P.step^[10] ⟨m₂, calls⟩ = ⟨m₃, calls⟩ := by
    refine (Linked.run_block saveOps_straight hsave calls).trans
      (congrArg (Config.mk · calls) ?_)
    rw [exec_saveOps]
    simp [m₃, calledX, entryMem]
  have h₄ : P.step ⟨m₃, calls⟩
      = ⟨⟨entryX x targetReg p (P.syms k.sym + 44), base, v, nzcv,
          entryMem x targetReg p base mem, P.syms k.hook⟩, calls⟩ := by
    rw [Linked.step_code hblHook]
    simp [Op.exec, Machine.setX, m₃, entryX, BitVec.add_assoc]
  show P.step^[1 + (10 + (1 + 3))] _ = _
  rw [Function.iterate_add_apply, Function.iterate_add_apply, Function.iterate_add_apply, h₁,
    Function.iterate_one, h₂, h₃, h₄]

/-- The return from the hook, up to the transfer. -/
theorem run_from_hook (hi : Installed P k targetReg body p)
    (hlr : readWord mem (base + 136) = p + 16) :
    P.step^[12] ⟨⟨x, base, v, nzcv, mem, P.syms k.sym + 44⟩, calls⟩
      = ⟨⟨Function.update (Function.update (restored x base mem) (reg 0)
            (readWord mem (base + 144))) (reg 30) (readWord mem (base + 152)), base + 160, v, nzcv,
          mem, p + 24⟩, calls⟩ := by
  obtain ⟨-, -, -, -, hrestore, hret, hepi⟩ := hi.blocks
  let m₁ : Machine := ⟨restored x base mem, base + 144, v, nzcv, mem, P.syms k.sym + 80⟩
  let m₂ : Machine := ⟨restored x base mem, base + 144, v, nzcv, mem, p + 16⟩
  have h₁ : P.step^[9] ⟨⟨x, base, v, nzcv, mem, P.syms k.sym + 44⟩, calls⟩ = ⟨m₁, calls⟩ := by
    refine (Linked.run_block restoreOps_straight hrestore calls).trans
      (congrArg (Config.mk · calls) ?_)
    rw [exec_restoreOps]
    simp [m₁, BitVec.add_assoc]
  have h₂ : P.step ⟨m₁, calls⟩ = ⟨m₂, calls⟩ := by
    rw [Linked.step_code hret]
    have hx : restored x base mem (reg 30) = p + 16 := hlr
    simp [Op.exec, Machine.getX, m₁, m₂, xr, hx]
  have h₃ : P.step^[2] ⟨m₂, calls⟩
      = ⟨⟨Function.update (Function.update (restored x base mem) (reg 0)
            (readWord mem (base + 144))) (reg 30) (readWord mem (base + 152)), base + 160, v, nzcv,
          mem, p + 24⟩, calls⟩ := by
    refine (Linked.run_block epilogueOps_straight hepi calls).trans
      (congrArg (Config.mk · calls) ?_)
    rw [exec_epilogue]
    simp [BitVec.add_assoc]
  show P.step^[2 + (1 + 9)] _ = _
  rw [Function.iterate_add_apply, Function.iterate_add_apply, h₁, Function.iterate_one, h₂, h₃]

/-! ## What is on the stack -/

theorem frameWords_getElem (x : Fin 31 → BitVec 64) {n : Fin 31} (hn : n.val ≤ 15) :
    (frameWords x)[n.val]? = some (x n) := by
  fin_cases n <;> first | rfl | (simp at hn)

theorem entryMem_frame {i : Nat} (hi : i < 18) :
    some (readWord (entryMem x targetReg p base mem) (base + BitVec.ofNat 64 (8 * i)))
      = (frameWords (calledX x targetReg p))[i]? := by
  have hlen : (frameWords (calledX x targetReg p)).length = 18 := rfl
  rw [entryMem, readWord_storeWords (by rw [hlen]; decide) _ _ (by rw [hlen]; exact hi),
    List.getElem?_eq_getElem (by rw [hlen]; exact hi)]

/-- The frame of the check, above that of the trampoline. -/
theorem entryMem_outer :
    readWord (entryMem x targetReg p base mem) (base + 144) = x (reg 0)
      ∧ readWord (entryMem x targetReg p base mem) (base + 152) = x (reg 30) := by
  have hlen : (frameWords (calledX x targetReg p)).length = 18 := rfl
  have houter : ∀ i, (hi : i < [x (reg 0), x (reg 30)].length) →
      readWord (entryMem x targetReg p base mem) (base + 144 + BitVec.ofNat 64 (8 * i))
        = [x (reg 0), x (reg 30)][i] := by
    intro i hi
    have hi' : i < 2 := hi
    have hoff : (base + 144 + BitVec.ofNat 64 (8 * i) - base).toNat = 144 + 8 * i := by bv_omega
    rw [entryMem, readWord_storeWords_of_ge _ (by rw [hlen, hoff]; omega) (by rw [hoff]; omega),
      readWord_storeWords (by simp) _ _ hi]
  constructor
  · simpa using houter 0 (by simp)
  · simpa [BitVec.add_assoc] using houter 1 (by simp)

theorem entryMem_above {a : BitVec 64} (hroom : base.toNat + 160 < 2 ^ 64)
    (ha : base.toNat + 160 ≤ a.toNat) : entryMem x targetReg p base mem a = mem a := by
  have hlen : (frameWords (calledX x targetReg p)).length = 18 := rfl
  rw [entryMem, storeWords_of_ge (by rw [hlen]; decide) _ (by rw [hlen]; bv_omega),
    storeWords_of_ge (by simp) _ (by simp only [List.length_cons, List.length_nil]; bv_omega)]

/-- What a run of the check from `m` comes to: the state `e` at the entry
of the hook, and the configuration `c` at the transfer. -/
structure CheckRun (P : Linked) (k : TransferKind) (targetReg : XReg) (body : Machine → Machine)
    (p : BitVec 64) (m e : Machine) (c : Config) : Prop where
  toHook : P.step^[15] ⟨m, []⟩ = ⟨e, []⟩
  atHook : e.pc = P.syms k.hook
  toTransfer : P.step^[28] ⟨m, []⟩ = c
  atTransfer : c.machine.pc = p + 24
  entryX : ∀ n : Fin 31, 16 ≤ n.val → n.val ≤ 29 → e.x n = m.x n
  entryV : e.v = m.v
  x : ∀ n : Fin 31,
    c.machine.x n = if n.val ≤ 15 ∨ n = reg 30 then m.x n else (body e).x n
  sp : c.machine.sp = m.sp
  v : c.machine.v = (body e).v
  mem : ∀ a, m.sp ≤ a → c.machine.mem a = m.mem a
  calls : c.calls = [⟨P.syms k.hook, targetReg.value m.x, p + 16⟩]

theorem check_run (hi : Installed P k targetReg body p) (hb : Conforms body) {m : Machine}
    (hpc : m.pc = p) (hroom : 160 ≤ m.sp.toNat) : ∃ e c, CheckRun P k targetReg body p m e c := by
  obtain ⟨x, sp, v, nzcv, mem, pc⟩ := m
  obtain rfl : pc = p := hpc
  -- the stack from the deeper frame on does not wrap
  obtain ⟨base, rfl⟩ : ∃ base, sp = base + 160 := ⟨sp - 160, by bv_omega⟩
  have hbase : base.toNat + 160 < 2 ^ 64 := by
    simp only at hroom
    bv_omega
  let e : Machine := ⟨entryX x targetReg pc (P.syms k.sym + 44), base, v, nzcv,
    entryMem x targetReg pc base mem, P.syms k.hook⟩
  have hkeep : ∀ i, i < 20 → readWord (body e).mem (base + BitVec.ofNat 64 (8 * i))
      = readWord e.mem (base + BitVec.ofNat 64 (8 * i)) := by
    intro i hi'
    exact readWord_congr fun j hj => hb.mem e _ (by simp only [e]; bv_omega)
  have hslot : ∀ i, i < 18 → some (readWord (body e).mem (base + BitVec.ofNat 64 (8 * i)))
      = (frameWords (calledX x targetReg pc))[i]? := by
    intro i hi'
    rw [hkeep i (by omega)]
    exact entryMem_frame x base mem hi'
  have hx0 : readWord (body e).mem (base + 144) = x (reg 0) :=
    (hkeep 18 (by decide)).trans (entryMem_outer x base mem).1
  have hx30 : readWord (body e).mem (base + 152) = x (reg 30) :=
    (hkeep 19 (by decide)).trans (entryMem_outer x base mem).2
  have hlr : readWord (body e).mem (base + 136) = pc + 16 := by
    have h := hslot 17 (by decide)
    exact Option.some.inj (h.trans (by simp [frameWords, calledX]))
  have hbody : body e = ⟨(body e).x, base, (body e).v, (body e).nzcv, (body e).mem,
      P.syms k.sym + 44⟩ := by
    calc body e = ⟨(body e).x, (body e).sp, (body e).v, (body e).nzcv, (body e).mem,
          (body e).pc⟩ := rfl
      _ = _ := by
        rw [hb.returns e, hb.sp e]
        simp [e, entryX]
  have hto := run_to_hook x base v nzcv mem [] hi
  have hcall : P.step ⟨e, []⟩ = ⟨body e, [⟨P.syms k.hook, targetReg.value x, pc + 16⟩]⟩ := by
    rw [Linked.step_foreign hi.notCode hi.foreign]
    simp [e, entryX, calledX, reg]
  have hfrom := run_from_hook (body e).x base (body e).v (body e).nzcv (body e).mem
    [⟨P.syms k.hook, targetReg.value x, pc + 16⟩] hi hlr
  rw [← hbody] at hfrom
  rw [hx0, hx30] at hfrom
  refine ⟨e, ⟨⟨Function.update (Function.update (restored (body e).x base (body e).mem) (reg 0)
      (x (reg 0))) (reg 30) (x (reg 30)), base + 160, (body e).v, (body e).nzcv, (body e).mem,
      pc + 24⟩, [⟨P.syms k.hook, targetReg.value x, pc + 16⟩]⟩,
    hto, rfl, ?_, rfl, ?_, rfl, ?_, rfl, rfl, ?_, rfl⟩
  · show P.step^[12 + (1 + 15)] _ = _
    rw [Function.iterate_add_apply, Function.iterate_add_apply, hto, Function.iterate_one, hcall,
      hfrom]
  · intro n h16 h29
    have h0 : n ≠ reg 0 := by rintro rfl; simp [reg] at h16
    have h1 : n ≠ reg 1 := by rintro rfl; simp [reg] at h16
    have h30 : n ≠ reg 30 := by rintro rfl; simp [reg] at h29
    simp [e, entryX, calledX, h0, h1, h30]
  · intro n
    rcases eq_or_ne n (reg 30) with rfl | h30
    · simp
    rcases eq_or_ne n (reg 0) with rfl | h0
    · simp [reg]
    by_cases hn : n.val ≤ 15
    · have hword := (hslot n.val (by omega)).trans (frameWords_getElem _ hn)
      simp [h30, h0, hn, restored, Option.some.inj hword, calledX]
    · simp [h30, h0, hn, restored]
  · intro a ha
    have hsp : base.toNat + 160 ≤ a.toNat := by
      simp only at ha
      bv_omega
    exact (hb.mem e a (by simp only [e]; bv_omega)).trans (entryMem_above x base mem hbase hsp)

end Run

/-! ## Transparency -/

/-- The hook leaves alone what neither layer saves. -/
def KeepsScratch (body : Machine → Machine) (e : Machine) : Prop :=
  (∀ n : Fin 31, 16 ≤ n.val → n.val ≤ 18 → (body e).x n = e.x n) ∧ (body e).v = e.v

/-- The run from `m` to the configuration `c`, where the transfer is due,
has changed no general or vector register and nothing on the stack, and
has called the hook once, with the address the transfer leads to and the
address after the inserted BL. -/
structure Transparent (P : Linked) (k : TransferKind) (targetReg : XReg) (p : BitVec 64)
    (m : Machine) (c : Config) : Prop where
  x : ∀ n, c.machine.x n = m.x n
  sp : c.machine.sp = m.sp
  v : ∀ n, c.machine.v n = m.v n
  mem : ∀ a, m.sp ≤ a → c.machine.mem a = m.mem a
  calls : c.calls
    = [⟨P.syms k.hook, ((k.op targetReg).exec P.syms c.machine).pc, p + 16⟩]

/-- The check is transparent exactly when the hook, in the state it is
entered in, leaves alone what neither layer saves. -/
theorem check_transparent_iff {P : Linked} {k : TransferKind} {targetReg : XReg}
    {body : Machine → Machine} {p : BitVec 64} (hi : Installed P k targetReg body p)
    (hb : Conforms body) {m : Machine} (hpc : m.pc = p) (hroom : 160 ≤ m.sp.toNat) :
    ∃ e c, P.step^[15] ⟨m, []⟩ = ⟨e, []⟩ ∧ e.pc = P.syms k.hook
      ∧ P.step^[28] ⟨m, []⟩ = c ∧ c.machine.pc = p + 24
      ∧ (Transparent P k targetReg p m c ↔ KeepsScratch body e) := by
  obtain ⟨e, c, h⟩ := check_run hi hb hpc hroom
  refine ⟨e, c, h.toHook, h.atHook, h.toTransfer, h.atTransfer, ?_⟩
  constructor
  · rintro ⟨hx, -, hv, -, -⟩
    refine ⟨?_, ?_⟩
    · intro n h16 h18
      have hn : ¬ (n.val ≤ 15 ∨ n = reg 30) := by
        rintro (h15 | rfl)
        · omega
        · exact absurd h18 (by decide)
      have hbody : c.machine.x n = (body e).x n := by rw [h.x n, if_neg hn]
      rw [← hbody, hx n, h.entryX n h16 (by omega)]
    · rw [← h.v, h.entryV]
      exact funext hv
  · rintro ⟨hx, hv⟩
    have hxs : ∀ n, c.machine.x n = m.x n := by
      intro n
      rw [h.x n]
      split
      · rfl
      · rename_i hn
        rw [not_or] at hn
        have h29 : n.val ≤ 29 := by
          have h30 : n.val ≠ 30 := fun h => hn.2 (Fin.ext h)
          omega
        rw [← h.entryX n (by omega) h29]
        rcases Nat.lt_or_ge 18 n.val with h18 | h18
        · exact hb.saved e n h18 h29
        · exact hx n (by omega) h18
    refine ⟨hxs, h.sp, ?_, h.mem, ?_⟩
    · intro n
      rw [h.v, hv, h.entryV]
    · rw [h.calls, TransferKind.op_exec_pc, funext hxs]

/-! ## A return -/

/-- Instructions laid out from `base` on. -/
def placed (base : BitVec 64) (ops : List Op) (a : BitVec 64) : Option Op :=
  if (a - base).toNat % 4 = 0 then ops[(a - base).toNat / 4]? else none

def sampleCode (a : BitVec 64) : Option Op :=
  (placed 0x400000 (checkOps symRet lr ++ [.ret lr]) a).or (placed 0x500000 (trampoline "cfv_ret") a)

/-- A return at `0x400018` with its check, linked to a hook. -/
def sampleReturn (body : Machine → Machine) : Linked where
  code := sampleCode
  syms sym := if sym = symRet then 0x500000 else 0x600000
  foreign a := if a = 0x600000 then some body else none

theorem sampleReturn_installed (body : Machine → Machine) :
    Installed (sampleReturn body) .ret lr body 0x400000 := by
  have hsym : (sampleReturn body).syms symRet = 0x500000 := by simp [sampleReturn]
  have hhook : (sampleReturn body).syms "cfv_ret" = 0x600000 := by simp [sampleReturn, symRet]
  refine ⟨?_, ?_, ?_, ?_⟩
  · show CodeAt sampleCode 0x400000 (checkOps symRet lr ++ [.ret lr])
    decide
  · show CodeAt sampleCode ((sampleReturn body).syms symRet) (trampoline "cfv_ret")
    rw [hsym]
    decide
  · show sampleCode ((sampleReturn body).syms "cfv_ret") = none
    rw [hhook]
    decide
  · show (sampleReturn body).foreign ((sampleReturn body).syms "cfv_ret") = some body
    rw [hhook]
    rfl

/-- About to return 1 in v0. -/
def sampleMachine : Machine where
  x := fun _ => 0
  sp := 0x700000
  v := fun _ => 1
  nzcv := 0
  mem := fun _ => 0
  pc := 0x400000

/-- A hook that does nothing. -/
def idleHook (m : Machine) : Machine := { m with pc := m.x (reg 30) }

theorem idleHook_conforms : Conforms idleHook :=
  ⟨fun _ => rfl, fun _ _ _ _ => rfl, fun _ => rfl, fun _ _ _ _ => rfl, fun _ _ _ => rfl⟩

theorem check_transparent_idle :
    ∃ c, (sampleReturn idleHook).step^[28] ⟨sampleMachine, []⟩ = c
      ∧ Transparent (sampleReturn idleHook) .ret lr 0x400000 sampleMachine c := by
  obtain ⟨e, c, -, -, hc, -, hiff⟩ := check_transparent_iff (sampleReturn_installed idleHook)
    idleHook_conforms (m := sampleMachine) rfl (by decide)
  exact ⟨c, hc, hiff.mpr ⟨fun _ _ _ => rfl, rfl⟩⟩

/-- A hook that computes with v0. -/
def floatHook (m : Machine) : Machine :=
  { m with v := fun n => if n.val = 0 then 0 else m.v n, pc := m.x (reg 30) }

theorem floatHook_conforms : Conforms floatHook := by
  refine ⟨fun _ => rfl, fun _ _ _ _ => rfl, fun _ => rfl, ?_, fun _ _ _ => rfl⟩
  intro m n h8 _
  show (if n.val = 0 then 0 else m.v n).extractLsb' 0 64 = (m.v n).extractLsb' 0 64
  rw [if_neg (by omega)]

/-- The value to be returned in v0 is lost on the way. -/
theorem return_value_lost :
    Installed (sampleReturn floatHook) .ret lr floatHook 0x400000 ∧ Conforms floatHook
      ∧ ¬ Transparent (sampleReturn floatHook) .ret lr 0x400000 sampleMachine
        ((sampleReturn floatHook).step^[28] ⟨sampleMachine, []⟩) := by
  refine ⟨sampleReturn_installed floatHook, floatHook_conforms, ?_⟩
  obtain ⟨e, c, h⟩ := check_run (sampleReturn_installed floatHook) floatHook_conforms
    (m := sampleMachine) rfl (by decide)
  intro htrans
  have hv := htrans.v ⟨0, by decide⟩
  rw [h.toTransfer, h.v] at hv
  have hzero : (0 : BitVec 128) = 1 := hv
  exact absurd hzero (by decide)

end Cfv

end Oat
