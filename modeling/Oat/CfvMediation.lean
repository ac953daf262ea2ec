import Oat.CfvTrampoline

/-!
# Whole runs of an instrumented program

A program with its checks, run on the machine: `Bare` is a step it would
take without them, and `Guarded.step` the same step with the check and
its trampoline in one go. `mediated_run` is the refinement over whole
runs. The registers, the stack and all other memory from the stack
pointer up are those of a run without checks, and the hooks have been
called for exactly the indirect transfers of that run, in their order
and before each of them.

A run is followed as long as it does not get behind a check or into a
hook in some other way, and as long as the hooks leave alone what neither
layer saves.
-/

namespace Oat

namespace Cfv

open A64

/-! ## A program with checks -/

def isIndirect : Op → Bool
  | .blr _ => true
  | .br _ => true
  | .ret _ => true
  | _ => false

/-- `site p` is the transfer whose check begins at `p`. -/
structure Guarded (P : Linked) where
  site : BitVec 64 → Option (TransferKind × XReg)
  body : TransferKind → Machine → Machine
  installed : ∀ p k r, site p = some (k, r) → Installed P k r (body k) p
  conforms : ∀ k, Conforms (body k)
  hooks : ∀ k k' : TransferKind, P.syms k.hook = P.syms k'.hook → k = k'

/-- An indirect transfer, with the address its hook is given as the
source. -/
structure Transfer where
  kind : TransferKind
  target : BitVec 64
  source : BitVec 64
deriving Repr, DecidableEq

def transferOf (P : Linked) (call : Call) : Option Transfer :=
  if call.callee = P.syms TransferKind.icall.hook then some ⟨.icall, call.arg0, call.arg1⟩
  else if call.callee = P.syms TransferKind.ijmp.hook then some ⟨.ijmp, call.arg0, call.arg1⟩
  else if call.callee = P.syms TransferKind.ret.hook then some ⟨.ret, call.arg0, call.arg1⟩
  else none

/-- Alike but for the flags and what lies below the stack pointer. -/
structure Alike (m m' : Machine) : Prop where
  x : m'.x = m.x
  sp : m'.sp = m.sp
  v : m'.v = m.v
  mem : ∀ a, m.sp ≤ a → m'.mem a = m.mem a

/-- What the program would do without its checks, with the indirect
transfer that it makes. No code may rely on the flags across a transfer,
nor on memory below the stack pointer. -/
inductive Bare {P : Linked} (g : Guarded P) (m : Machine) : Option Transfer → Machine → Prop where
  | plain (hsite : g.site m.pc = none) (hop : ∀ op, P.code m.pc = some op → isIndirect op = false) :
      Bare g m none (P.step ⟨m, []⟩).machine
  | transfer {k : TransferKind} {r : XReg} {m' : Machine} (hsite : g.site m.pc = some (k, r))
      (halike : Alike m m') (hpc : m'.pc = m.pc + 24) :
      Bare g m (some ⟨k, r.value m.x, m.pc + 16⟩) ((k.op r).exec P.syms m')

inductive BareRun {P : Linked} (g : Guarded P) : Machine → List Transfer → Machine → Prop where
  | start (m : Machine) : BareRun g m [] m
  | step {m m₁ m₂ : Machine} {ts : List Transfer} {t : Option Transfer} :
      BareRun g m ts m₁ → Bare g m₁ t m₂ → BareRun g m (ts ++ t.toList) m₂

variable {P : Linked} (g : Guarded P)

namespace Guarded

/-- A check is run up to behind its transfer. -/
def step (c : Config) : Config :=
  if (g.site c.machine.pc).isSome then P.step^[29] c else P.step c

/-- Where a run is followed: at a check that has room for its frames and
whose hook leaves the scratch registers alone, or at anything else but a
transfer or a hook. -/
structure Follows (c : Config) : Prop where
  room : (g.site c.machine.pc).isSome → 160 ≤ c.machine.sp.toNat
  scratch : ∀ k r, g.site c.machine.pc = some (k, r) →
    KeepsScratch (g.body k) (P.step^[15] ⟨c.machine, []⟩).machine
  plain : g.site c.machine.pc = none → ∀ op, P.code c.machine.pc = some op → isIndirect op = false
  noHook : ∀ k : TransferKind, c.machine.pc ≠ P.syms k.hook

end Guarded

/-! ## The calls on record -/

theorem step_calls (m : Machine) (past calls : List Call) :
    P.step ⟨m, past ++ calls⟩
      = ⟨(P.step ⟨m, calls⟩).machine, past ++ (P.step ⟨m, calls⟩).calls⟩ := by
  simp only [Linked.step]
  cases P.code m.pc with
  | some op => rfl
  | none =>
      cases P.foreign m.pc with
      | some body => simp
      | none => rfl

theorem iterate_calls (n : Nat) (m : Machine) (past : List Call) :
    P.step^[n] ⟨m, past⟩
      = ⟨(P.step^[n] ⟨m, []⟩).machine, past ++ (P.step^[n] ⟨m, []⟩).calls⟩ := by
  induction n with
  | zero => simp
  | succ n ih =>
      rw [Function.iterate_succ_apply', Function.iterate_succ_apply', ih, step_calls]

theorem transferOf_hook (g : Guarded P) (k : TransferKind) (arg0 arg1 : BitVec 64) :
    transferOf P ⟨P.syms k.hook, arg0, arg1⟩ = some ⟨k, arg0, arg1⟩ := by
  have hne : ∀ k k' : TransferKind, k ≠ k' → P.syms k.hook ≠ P.syms k'.hook :=
    fun k k' hk h => hk (g.hooks k k' h)
  cases k with
  | icall => simp [transferOf]
  | ijmp => simp [transferOf, hne .ijmp .icall (by simp)]
  | ret => simp [transferOf, hne .ret .icall (by simp), hne .ret .ijmp (by simp)]

theorem transferOf_other {call : Call} (h : ∀ k : TransferKind, call.callee ≠ P.syms k.hook) :
    transferOf P call = none := by
  simp [transferOf, h .icall, h .ijmp, h .ret]

/-! ## One step -/

/-- All registers are back when the transfer is due. -/
theorem CheckRun.alike {k : TransferKind} {targetReg : XReg} {body : Machine → Machine}
    {p : BitVec 64} {m e : Machine} {c : Config} (h : CheckRun P k targetReg body p m e c)
    (hb : Conforms body) (hs : KeepsScratch body e) : Alike m c.machine := by
  refine ⟨funext fun n => ?_, h.sp, ?_, h.mem⟩
  · rw [h.x n]
    split
    · rfl
    · rename_i hn
      rw [not_or] at hn
      have h30 : n.val ≠ 30 := fun h => hn.2 (Fin.ext h)
      rw [← h.entryX n (by omega) (by omega)]
      rcases Nat.lt_or_ge 18 n.val with h18 | h18
      · exact hb.saved e n h18 (by omega)
      · exact hs.1 n (by omega) h18
  · rw [h.v, hs.2, h.entryV]

theorem step_site {k : TransferKind} {r : XReg} {c : Config}
    (hsite : g.site c.machine.pc = some (k, r)) (hf : g.Follows c) :
    Bare g c.machine (some ⟨k, r.value c.machine.x, c.machine.pc + 16⟩) (P.step^[29] c).machine
      ∧ (P.step^[29] c).calls
        = c.calls ++ [⟨P.syms k.hook, r.value c.machine.x, c.machine.pc + 16⟩] := by
  obtain ⟨m, past⟩ := c
  have hi := g.installed m.pc k r hsite
  obtain ⟨e, c', h⟩ := check_run hi (g.conforms k) rfl (hf.room (by simp [hsite]))
  have hscratch := hf.scratch k r hsite
  have hentry : (P.step^[15] ⟨m, []⟩).machine = e := by rw [h.toHook]
  rw [hentry] at hscratch
  have hrun : P.step^[28] ⟨m, past⟩ = ⟨c'.machine, past ++ c'.calls⟩ := by
    rw [iterate_calls, h.toTransfer]
  have hop : P.code (m.pc + 24) = some (k.op r) := by
    have hc := hi.check
    rw [codeAt_append] at hc
    simpa [checkOps, prologueOps, epilogueOps] using hc.2.1
  have hstep : P.step^[29] ⟨m, past⟩
      = ⟨(k.op r).exec P.syms c'.machine, past ++ c'.calls⟩ := by
    rw [Function.iterate_succ_apply', hrun, Linked.step_code (by simpa [h.atTransfer] using hop)]
  rw [hstep]
  constructor
  · exact Bare.transfer hsite (h.alike (g.conforms k) hscratch) h.atTransfer
  · simp [h.calls]

theorem step_plain {c : Config} (hsite : g.site c.machine.pc = none) (hf : g.Follows c) :
    Bare g c.machine none (P.step c).machine
      ∧ (P.step c).calls.filterMap (transferOf P) = c.calls.filterMap (transferOf P) := by
  obtain ⟨m, past⟩ := c
  have hcalls := step_calls (P := P) m past []
  rw [List.append_nil] at hcalls
  rw [hcalls]
  refine ⟨Bare.plain hsite (hf.plain hsite), ?_⟩
  have hnone : ∀ call ∈ (P.step ⟨m, []⟩).calls, transferOf P call = none := by
    intro call hcall
    rw [Linked.step] at hcall
    split at hcall
    · simp at hcall
    · split at hcall
      · obtain rfl : call = ⟨m.pc, m.x (reg 0), m.x (reg 1)⟩ := by simpa using hcall
        exact transferOf_other hf.noHook
      · simp at hcall
  rw [List.filterMap_append, List.filterMap_eq_nil_iff.mpr hnone, List.append_nil]

theorem guarded_step {c : Config} (hf : g.Follows c) :
    ∃ t, Bare g c.machine t (g.step c).machine
      ∧ (g.step c).calls.filterMap (transferOf P)
        = c.calls.filterMap (transferOf P) ++ t.toList
      ∧ Reaches P.step c (g.step c) := by
  cases hsite : g.site c.machine.pc with
  | none =>
      have hstep : g.step c = P.step c := by simp [Guarded.step, hsite]
      obtain ⟨hbare, hcalls⟩ := step_plain g hsite hf
      rw [hstep]
      exact ⟨none, hbare, by simp [hcalls], .single c⟩
  | some kr =>
      obtain ⟨k, r⟩ := kr
      have hstep : g.step c = P.step^[29] c := by simp [Guarded.step, hsite]
      obtain ⟨hbare, hcalls⟩ := step_site g hsite hf
      rw [hstep]
      refine ⟨_, hbare, ?_, 29, rfl⟩
      rw [hcalls, List.filterMap_append]
      simp [transferOf_hook g]

/-! ## The run -/

/-- Complete mediation. What a run under checks does is what the program
does without them, and its hooks have been called for exactly the
indirect transfers it has made, in their order. -/
theorem mediated_run (c : Config) (n : Nat) (hf : ∀ i < n, g.Follows (g.step^[i] c)) :
    ∃ ts, BareRun g c.machine ts (g.step^[n] c).machine
      ∧ (g.step^[n] c).calls.filterMap (transferOf P) = c.calls.filterMap (transferOf P) ++ ts
      ∧ Reaches P.step c (g.step^[n] c) := by
  induction n with
  | zero => exact ⟨[], .start _, by simp, .refl c⟩
  | succ n ih =>
      obtain ⟨ts, hrun, hcalls, hreach⟩ := ih fun i hi => hf i (Nat.lt_succ_of_lt hi)
      obtain ⟨t, hbare, hcall, hstep⟩ := guarded_step g (hf n (Nat.lt_succ_self n))
      rw [Function.iterate_succ_apply']
      refine ⟨ts ++ t.toList, hrun.step hbare, ?_, hreach.trans hstep⟩
      rw [hcall, hcalls, List.append_assoc]

/-! ## A call and its return -/

def callOps : List Op := checkOps symICall (xr 9) ++ [.blr (xr 9)]

def returnOps : List Op := checkOps symRet lr ++ [.ret lr]

def roundTripCode (a : BitVec 64) : Option Op :=
  ((((placed 0x400000 callOps a).or (placed 0x410000 returnOps a)).or
    (placed 0x500000 (TransferKind.trampoline .icall) a)).or
    (placed 0x510000 (TransferKind.trampoline .ijmp) a)).or
    (placed 0x520000 (TransferKind.trampoline .ret) a)

/-- A call through x9 of a function that returns at once. -/
def roundTrip : Linked where
  code := roundTripCode
  syms sym :=
    if sym = symICall then 0x500000
    else if sym = symIJmp then 0x510000
    else if sym = symRet then 0x520000
    else if sym = "cfv_icall" then 0x600000
    else if sym = "cfv_ijmp" then 0x610000
    else 0x620000
  foreign a := if a = 0x600000 ∨ a = 0x610000 ∨ a = 0x620000 then some idleHook else none

theorem idleHook_keepsScratch (e : Machine) : KeepsScratch idleHook e := ⟨fun _ _ _ => rfl, rfl⟩

def roundTripGuarded : Guarded roundTrip where
  site p :=
    if p = 0x400000 then some (.icall, xr 9) else if p = 0x410000 then some (.ret, lr) else none
  body _ := idleHook
  installed := by
    intro p k r h
    split at h
    · rename_i hp
      obtain ⟨rfl, rfl⟩ : k = .icall ∧ r = xr 9 := by simpa [eq_comm] using h
      subst hp
      exact ⟨by decide, by decide, by decide, rfl⟩
    · split at h
      · rename_i hp
        obtain ⟨rfl, rfl⟩ : k = .ret ∧ r = lr := by simpa [eq_comm] using h
        subst hp
        exact ⟨by decide, by decide, by decide, rfl⟩
      · cases h
  conforms _ := idleHook_conforms
  hooks := by
    intro k k'
    cases k <;> cases k' <;> decide

def roundTripStart : Config :=
  ⟨{ sampleMachine with x := fun n => if n = reg 9 then 0x410000 else 0 }, []⟩

theorem roundTrip_follows :
    ∀ i < 2, roundTripGuarded.Follows (roundTripGuarded.step^[i] roundTripStart) := by
  have h₀ : roundTripGuarded.Follows roundTripStart :=
    ⟨fun _ => by decide, fun _ _ _ => idleHook_keepsScratch _, fun h => absurd h (by decide),
      fun k => by cases k <;> decide⟩
  have hpc : (roundTripGuarded.step roundTripStart).machine.pc = 0x410000 := by decide +kernel
  have hsp : (roundTripGuarded.step roundTripStart).machine.sp = 0x700000 := by decide +kernel
  have h₁ : roundTripGuarded.Follows (roundTripGuarded.step roundTripStart) := by
    refine ⟨fun _ => ?_, fun _ _ _ => idleHook_keepsScratch _, fun h => ?_, fun k => ?_⟩
    · rw [hsp]
      decide
    · rw [hpc] at h
      exact absurd h (by decide)
    · rw [hpc]
      cases k <;> decide
  intro i hi
  obtain rfl | rfl : i = 0 ∨ i = 1 := by omega
  · exact h₀
  · rw [Function.iterate_one]
    exact h₁

theorem roundTripStart_calls : roundTripStart.calls = [] := rfl

theorem roundTrip_calls : (roundTripGuarded.step^[2] roundTripStart).calls
    = [⟨0x600000, 0x410000, 0x400010⟩, ⟨0x620000, 0x40001c, 0x410010⟩] := by
  decide +kernel

end Cfv

end Oat
