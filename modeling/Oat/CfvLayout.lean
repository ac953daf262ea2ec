import Oat.Measured

/-!
# From the output of the pass to the run

A program whose text is the output of the pass, printed and laid out
(`Compiled`). Its checks are found in the text (`siteOf`), so that it is
a program under checks in the sense of `Guarded`; and an indirect
transfer is nowhere else but at the end of a check.

As long as such a run is in the open (not behind the beginning of a
check, nor in a trampoline or a hook), `mediated_run` follows it.
`bypass_on_record` is about where it stops to be: the transfer that leads
behind a check has been recorded before it is made, with the address it
leads to.
-/

namespace Oat

namespace Cfv

open A64

/-! ## Checks in the text -/

def transferKind? : Op → Option (TransferKind × XReg)
  | .blr rn => some (.icall, rn)
  | .br rn => some (.ijmp, rn)
  | .ret rn => some (.ret, rn)
  | _ => none

/-- The transfer of the check that begins at `p`. -/
def siteOf (P : Linked) (p : BitVec 64) : Option (TransferKind × XReg) := do
  let op ← P.code (p + 24)
  let (k, r) ← transferKind? op
  if CodeAt P.code p (checkOps k.sym r) then some (k, r) else none

theorem transferKind?_eq_some {op : Op} {k : TransferKind} {r : XReg} :
    transferKind? op = some (k, r) ↔ op = k.op r := by
  cases op <;> cases k <;> simp [transferKind?, TransferKind.op]

theorem isIndirect_iff {op : Op} : isIndirect op = true ↔ ∃ k r, op = TransferKind.op k r := by
  constructor
  · intro h
    cases op with
    | blr rn => exact ⟨.icall, rn, rfl⟩
    | br rn => exact ⟨.ijmp, rn, rfl⟩
    | ret rn => exact ⟨.ret, rn, rfl⟩
    | _ => cases h
  · rintro ⟨k, r, rfl⟩
    cases k <;> rfl

theorem siteOf_iff {P : Linked} {p : BitVec 64} {k : TransferKind} {r : XReg} :
    siteOf P p = some (k, r) ↔ CodeAt P.code p (checkOps k.sym r ++ [k.op r]) := by
  have hlen : 4 * BitVec.ofNat 64 (checkOps k.sym r).length = (24 : BitVec 64) := rfl
  rw [codeAt_append, hlen]
  constructor
  · intro h
    simp only [siteOf, Option.bind_eq_bind, Option.bind_eq_some_iff] at h
    obtain ⟨op, hop, ⟨k', r'⟩, hkind, hif⟩ := h
    split at hif
    · rename_i hcheck
      obtain ⟨rfl, rfl⟩ := Prod.mk.inj (Option.some.inj hif)
      refine ⟨hcheck, ?_, trivial⟩
      rw [hop, transferKind?_eq_some.mp hkind]
    · cases hif
  · rintro ⟨hcheck, hop, -⟩
    simp only [siteOf, hop, Option.bind_eq_bind, Option.bind_some,
      transferKind?_eq_some.mpr rfl, hcheck, if_true]

/-! ## The text of a function -/

def printed (mf : MachineFunction) : List MCInst := mf.flatten.flatMap emitInstruction

/-- The instruction the machine knows; another one is code of some other
kind (`Linked.foreign`). -/
def MCInst.op? : MCInst → Option Op
  | .op o => some o
  | _ => none

def PlacedAt (P : Linked) (base : BitVec 64) (insts : List MCInst) : Prop :=
  ∀ i inst, insts[i]? = some inst → P.code (base + 4 * BitVec.ofNat 64 i) = inst.op?

/-- What comes of one instruction of the input. -/
def chunk (mi : MachineInstr) : List MCInst :=
  (inserted mi).flatMap emitInstruction ++ emitInstruction mi

theorem printed_runOnMachineFunction (mf : MachineFunction) :
    printed (runOnMachineFunction mf).2 = mf.flatten.flatMap chunk := by
  have hblock : ∀ mbb : MachineBasicBlock,
      (runOnBlock mbb).flatMap emitInstruction = mbb.flatMap chunk := by
    intro mbb
    simp only [runOnBlock, List.flatMap_assoc, List.flatMap_append, List.flatMap_singleton]
    rfl
  induction mf with
  | nil => rfl
  | cons mbb mf ih =>
      simp only [printed, runOnMachineFunction, List.map_cons, List.flatten_cons,
        List.flatMap_append, hblock] at ih ⊢
      rw [ih]

theorem chunk_instrumented {mi : MachineInstr} (h : instrumented mi ≠ none) :
    ∃ (k : TransferKind) (r : XReg), chunk mi = (checkOps k.sym r ++ [k.op r]).map .op := by
  cases mi with
  | blr rn => exact ⟨.icall, rn, rfl⟩
  | br rn => exact ⟨.ijmp, rn, rfl⟩
  | ret rn => exact ⟨.ret, rn, rfl⟩
  | retReallyLR => exact ⟨.ret, lr, rfl⟩
  | _ => exact absurd rfl h

/-- An element of a concatenation, with the piece it is in. -/
theorem getElem?_flatMap {α β : Type} {f : α → List β} {l : List α} {i : Nat} {b : β}
    (h : (l.flatMap f)[i]? = some b) :
    ∃ pre a post n, l = pre ++ a :: post ∧ i = (pre.flatMap f).length + n ∧ (f a)[n]? = some b := by
  induction l generalizing i with
  | nil => cases h
  | cons a l ih =>
      rw [List.flatMap_cons] at h
      rcases Nat.lt_or_ge i (f a).length with hi | hi
      · rw [List.getElem?_append_left hi] at h
        exact ⟨[], a, l, i, rfl, by simp, h⟩
      · rw [List.getElem?_append_right hi] at h
        obtain ⟨pre, a', post, n, rfl, hn, hget⟩ := ih h
        refine ⟨a :: pre, a', post, n, rfl, ?_, hget⟩
        rw [List.flatMap_cons, List.length_append]
        omega

/-- Of a piece, only the last instruction transfers. -/
theorem chunk_indirect {mi : MachineInstr} (hearly : mi.loweredLate = false) {n : Nat} {op : Op}
    (h : (chunk mi)[n]? = some (.op op)) (hop : isIndirect op = true) :
    ∃ (k : TransferKind) (r : XReg), op = k.op r ∧ n = 6
      ∧ chunk mi = (checkOps k.sym r ++ [k.op r]).map .op := by
  by_cases hi : instrumented mi = none
  · have hchunk : chunk mi = emitInstruction mi := by
      rw [chunk, inserted_of_not_instrumented hi]
      rfl
    rw [hchunk] at h
    obtain ⟨k, r, rfl⟩ := isIndirect_iff.mp hop
    have hlate := loweredLate_of_transfers hi (List.mem_of_getElem? h) (r := r) (by cases k <;> rfl)
    rw [hearly] at hlate
    cases hlate
  · obtain ⟨k, r, hchunk⟩ := chunk_instrumented hi
    rw [hchunk] at h
    have hn : n < 7 := by
      have hlt := (List.getElem?_eq_some_iff.mp h).1
      simpa [checkOps, prologueOps, epilogueOps] using hlt
    -- the six instructions of the check do not transfer
    obtain rfl | hn : n = 6 ∨ n < 6 := by omega
    · have hlast : k.op r = op := by simpa [checkOps, prologueOps, epilogueOps] using h
      exact ⟨k, r, hlast.symm, rfl, hchunk⟩
    · have hplain : ∀ o ∈ checkOps k.sym r, isIndirect o = false := by
        simp [checkOps, prologueOps, epilogueOps, isIndirect]
      have hget : (checkOps k.sym r)[n]? = some op := by
        rw [List.getElem?_map, List.getElem?_append_left (by exact hn)] at h
        simpa using h
      rw [hplain op (List.mem_of_getElem? hget)] at hop
      cases hop

theorem PlacedAt.codeAt {P : Linked} {base : BitVec 64} {pre post : List MCInst} {ops : List Op}
    (h : PlacedAt P base (pre ++ ops.map .op ++ post)) :
    CodeAt P.code (base + 4 * BitVec.ofNat 64 pre.length) ops := by
  induction ops generalizing pre with
  | nil => trivial
  | cons op ops ih =>
      have hnext : base + 4 * BitVec.ofNat 64 pre.length + 4
          = base + 4 * BitVec.ofNat 64 (pre ++ [MCInst.op op]).length := by
        rw [List.length_append, List.length_singleton]
        bv_omega
      refine ⟨h _ (.op op) (by simp), ?_⟩
      rw [hnext]
      exact ih (by simpa using h)

/-! ## A compiled program -/

/-- Behind the beginning of a check, or in the code that it calls. -/
def Inside (P : Linked) (a : BitVec 64) : Prop :=
  (∃ p, siteOf P p ≠ none ∧ ∃ j < 6, a = p + 4 * BitVec.ofNat 64 (j + 1))
    ∨ (∃ k : TransferKind, ∃ i < 21, a = P.syms k.sym + 4 * BitVec.ofNat 64 i)
    ∨ ∃ k : TransferKind, a = P.syms k.hook

/-- All code is either the text of a function that went through the pass,
without transfers that are lowered late, or one of the trampolines. No
direct call leads behind a check, and nothing runs on into a trampoline or
a hook. -/
structure Compiled (P : Linked) where
  functions : List (BitVec 64 × MachineFunction)
  body : TransferKind → Machine → Machine
  placed : ∀ f ∈ functions, PlacedAt P f.1 (printed (runOnMachineFunction f.2).2)
  early : ∀ f ∈ functions, ∀ mi ∈ f.2.flatten, mi.loweredLate = false
  trampoline : ∀ k : TransferKind, CodeAt P.code (P.syms k.sym) k.trampoline
  complete : ∀ a op, P.code a = some op →
    (∃ f ∈ functions, ∃ i < (printed (runOnMachineFunction f.2).2).length,
      a = f.1 + 4 * BitVec.ofNat 64 i)
    ∨ ∃ k : TransferKind, ∃ i < 21, a = P.syms k.sym + 4 * BitVec.ofNat 64 i
  notCode : ∀ k : TransferKind, P.code (P.syms k.hook) = none
  foreign : ∀ k : TransferKind, P.foreign (P.syms k.hook) = some (body k)
  conforms : ∀ k, Conforms (body k)
  hooks : ∀ k k' : TransferKind, P.syms k.hook = P.syms k'.hook → k = k'
  direct : ∀ a sym, P.code a = some (.bl sym) → ¬ Inside P a → ¬ Inside P (P.syms sym)
  runsOn : ∀ a op, P.code a = some op → op.straight = true →
    ∀ k : TransferKind, a + 4 ≠ P.syms k.sym ∧ a + 4 ≠ P.syms k.hook

namespace Compiled

variable {P : Linked} (C : Compiled P)

/-- A compiled program is a program under checks. -/
def guarded : Guarded P where
  site := siteOf P
  body := C.body
  installed _ k _ h := ⟨siteOf_iff.mp h, C.trampoline k, C.notCode k, C.foreign k⟩
  conforms := C.conforms
  hooks := C.hooks

/-- An indirect transfer is at the end of a check, or in a trampoline. -/
theorem indirect_inside (C : Compiled P) {a : BitVec 64} {op : Op} (h : P.code a = some op)
    (hop : isIndirect op = true) : Inside P a := by
  obtain ⟨f, hf, i, hi, rfl⟩ | ⟨k, i, hi, rfl⟩ := C.complete a op h
  · obtain ⟨inst, hinst⟩ : ∃ inst, (printed (runOnMachineFunction f.2).2)[i]? = some inst :=
      ⟨_, List.getElem?_eq_getElem hi⟩
    have hplaced := C.placed f hf
    rw [hplaced i inst hinst] at h
    obtain rfl : inst = .op op := by
      cases inst with
      | op o => exact congrArg MCInst.op (Option.some.inj h)
      | _ => cases h
    rw [printed_runOnMachineFunction] at hinst hplaced
    obtain ⟨pre, mi, post, n, hsplit, rfl, hchunk⟩ := getElem?_flatMap hinst
    have hearly := C.early f hf mi (by simp [hsplit])
    obtain ⟨k, r, -, rfl, hcheck⟩ := chunk_indirect hearly hchunk hop
    rw [hsplit, List.flatMap_append, List.flatMap_cons, hcheck, ← List.append_assoc] at hplaced
    refine .inl ⟨f.1 + 4 * BitVec.ofNat 64 (pre.flatMap chunk).length, ?_, 5, by decide, ?_⟩
    · rw [siteOf_iff.mpr hplaced.codeAt]
      simp
    · bv_omega
  · exact .inr (.inl ⟨k, i, hi, rfl⟩)

/-- At a check, there is room for the frames, and the hook leaves alone
what neither layer saves. -/
structure Fits (C : Compiled P) (c : Config) : Prop where
  room : siteOf P c.machine.pc ≠ none → 160 ≤ c.machine.sp.toNat
  scratch : ∀ k r, siteOf P c.machine.pc = some (k, r) →
    KeepsScratch (C.body k) (P.step^[15] ⟨c.machine, []⟩).machine

/-- In the open, the run is followed. -/
theorem follows (C : Compiled P) {c : Config} (hopen : ¬ Inside P c.machine.pc) (hfit : C.Fits c) :
    C.guarded.Follows c := by
  refine ⟨fun h => hfit.room (Option.isSome_iff_ne_none.mp h), hfit.scratch, ?_, ?_⟩
  · intro _ op hop
    by_contra hind
    exact hopen (C.indirect_inside hop (by simpa using hind))
  · rintro k hk
    exact hopen (.inr (.inr ⟨k, hk⟩))

/-! ## The way behind a check -/

/-- To go on to the next instruction does not lead behind a check. -/
theorem next_open (C : Compiled P) {a : BitVec 64} {op : Op} (hcode : P.code a = some op)
    (hstraight : op.straight = true) (hopen : ¬ Inside P a) (hsite : siteOf P a = none) :
    ¬ Inside P (a + 4) := by
  rintro (⟨p, hp, j, hj, ha⟩ | ⟨k, i, hi, ha⟩ | ⟨k, hk⟩)
  · cases j with
    | zero =>
        obtain rfl : a = p := by bv_omega
        exact hp hsite
    | succ j => exact hopen (.inl ⟨p, hp, j, by omega, by bv_omega⟩)
  · cases i with
    | zero => exact (C.runsOn a op hcode hstraight k).1 (by simpa using ha)
    | succ i => exact hopen (.inr (.inl ⟨k, i, by omega, by bv_omega⟩))
  · exact (C.runsOn a op hcode hstraight k).2 hk

theorem target_of_bare (C : Compiled P) {m m' : Machine} {t : Transfer}
    (h : Bare C.guarded m (some t) m') : m'.pc = t.target := by
  cases h with
  | transfer hsite halike hpc => rw [TransferKind.op_exec_pc, halike.x]

/-- A step of the code out of the open is a transfer on record. -/
theorem step_inside (C : Compiled P) {c : Config} (hopen : ¬ Inside P c.machine.pc)
    (hfit : C.Fits c) (hcode : P.code c.machine.pc ≠ none)
    (hin : Inside P (C.guarded.step c).machine.pc) :
    ∃ t, Bare C.guarded c.machine (some t) (C.guarded.step c).machine
      ∧ (C.guarded.step c).calls.filterMap (transferOf P) = c.calls.filterMap (transferOf P) ++ [t]
      ∧ t.target = (C.guarded.step c).machine.pc := by
  obtain ⟨t, hbare, hcalls, -⟩ := guarded_step C.guarded (C.follows hopen hfit)
  cases t with
  | some t => exact ⟨t, hbare, hcalls, (C.target_of_bare hbare).symm⟩
  | none =>
      exfalso
      cases hsite : siteOf P c.machine.pc with
      | some kr =>
          obtain ⟨k, r⟩ := kr
          have hother := (step_site C.guarded hsite (C.follows hopen hfit)).2
          have hstep : C.guarded.step c = P.step^[29] c := by
            simp only [Guarded.step, guarded, hsite, Option.isSome_some, if_true]
          rw [← hstep] at hother
          rw [hother, List.filterMap_append, List.filterMap_cons_some (transferOf_hook C.guarded k _ _)]
            at hcalls
          simp at hcalls
      | none =>
          obtain ⟨op, hop⟩ := Option.ne_none_iff_exists'.mp hcode
          have hstep : C.guarded.step c = P.step c := by
            simp [Guarded.step, guarded, hsite]
          rw [hstep, Linked.step_code hop] at hin
          by_cases hstraight : op.straight = true
          · rw [Linked.exec_pc hstraight] at hin
            exact C.next_open hop hstraight hopen hsite hin
          · cases op with
            | bl sym => exact C.direct _ sym hop hopen hin
            | blr | br | ret => exact hopen (C.indirect_inside hop rfl)
            | addImm | subImm | orr | stp | ldp => exact hstraight rfl

end Compiled

/-! ## The call and its return, compiled -/

theorem placedAt_map {P : Linked} {base : BitVec 64} {ops : List Op} (h : CodeAt P.code base ops) :
    PlacedAt P base (ops.map .op) := by
  induction ops generalizing base with
  | nil => intro i inst hi; simp at hi
  | cons op ops ih =>
      intro i inst hi
      cases i with
      | zero =>
          obtain rfl : MCInst.op op = inst := by simpa using hi
          simpa [MCInst.op?] using h.1
      | succ i =>
          have hnext : base + 4 * BitVec.ofNat 64 (i + 1) = base + 4 + 4 * BitVec.ofNat 64 i := by
            bv_omega
          rw [hnext]
          exact ih h.2 i inst (by simpa using hi)

theorem placed_eq_some {base a : BitVec 64} {ops : List Op} {op : Op}
    (h : placed base ops a = some op) :
    ∃ i < ops.length, a = base + 4 * BitVec.ofNat 64 i ∧ ops[i]? = some op := by
  unfold placed at h
  split at h
  · rename_i hmod
    exact ⟨(a - base).toNat / 4, (List.getElem?_eq_some_iff.mp h).1, by bv_omega, h⟩
  · cases h

theorem roundTrip_code {a : BitVec 64} {op : Op} (h : roundTrip.code a = some op) :
    (∃ i < 7, a = 0x400000 + 4 * BitVec.ofNat 64 i ∧ callOps[i]? = some op)
      ∨ (∃ i < 7, a = 0x410000 + 4 * BitVec.ofNat 64 i ∧ returnOps[i]? = some op)
      ∨ ∃ k : TransferKind, ∃ i < 21, a = roundTrip.syms k.sym + 4 * BitVec.ofNat 64 i
        ∧ k.trampoline[i]? = some op := by
  have h : roundTripCode a = some op := h
  simp only [roundTripCode, Option.or_eq_some_iff] at h
  obtain (((h | ⟨-, h⟩) | ⟨-, h⟩) | ⟨-, h⟩) | ⟨-, h⟩ := h
  · exact .inl (placed_eq_some h)
  · exact .inr (.inl (placed_eq_some h))
  · exact .inr (.inr ⟨.icall, placed_eq_some h⟩)
  · exact .inr (.inr ⟨.ijmp, placed_eq_some h⟩)
  · exact .inr (.inr ⟨.ret, placed_eq_some h⟩)

theorem siteOf_call : siteOf roundTrip 0x400000 ≠ none :=
  Option.ne_none_iff_exists'.mpr ⟨(.icall, xr 9), siteOf_iff.mpr (by decide)⟩

theorem siteOf_return : siteOf roundTrip 0x410000 ≠ none :=
  Option.ne_none_iff_exists'.mpr ⟨(.ret, lr), siteOf_iff.mpr (by decide)⟩

/-- A check begins with a subtraction, and there are two. -/
theorem roundTrip_site {p : BitVec 64} (h : siteOf roundTrip p ≠ none) :
    p = 0x400000 ∨ p = 0x410000 := by
  obtain ⟨⟨k, r⟩, hsite⟩ := Option.ne_none_iff_exists'.mp h
  have hcode : roundTrip.code p = some (.subImm .sp .sp 16) := (siteOf_iff.mp hsite).1
  obtain ⟨i, hi, rfl, hget⟩ | ⟨i, hi, rfl, hget⟩ | ⟨k, i, hi, rfl, hget⟩ := roundTrip_code hcode
  · have hzero : ∀ i < 7, callOps[i]? = some (.subImm .sp .sp 16) → i = 0 := by decide
    obtain rfl := hzero i hi hget
    exact .inl rfl
  · have hzero : ∀ i < 7, returnOps[i]? = some (.subImm .sp .sp 16) → i = 0 := by decide
    obtain rfl := hzero i hi hget
    exact .inr rfl
  · have hnone : ∀ i < 21, k.trampoline[i]? ≠ some (.subImm .sp .sp 16) := by
      cases k <;> decide
    exact absurd hget (hnone i hi)

theorem roundTrip_inside {i : Nat} (hi : i < 7) (hpos : i ≠ 0) :
    Inside roundTrip (0x400000 + 4 * BitVec.ofNat 64 i)
      ∧ Inside roundTrip (0x410000 + 4 * BitVec.ofNat 64 i) := by
  obtain ⟨j, rfl⟩ := Nat.exists_eq_succ_of_ne_zero hpos
  exact ⟨.inl ⟨_, siteOf_call, j, by omega, rfl⟩,
    .inl ⟨_, siteOf_return, j, by omega, rfl⟩⟩

/-- The two functions, each at its address. -/
def roundTripFunctions : List (BitVec 64 × MachineFunction) :=
  [(0x400000, [[.blr (xr 9)]]), (0x410000, [[.retReallyLR]])]

theorem roundTrip_placed : ∀ f ∈ roundTripFunctions,
    PlacedAt roundTrip f.1 (printed (runOnMachineFunction f.2).2) := by
  intro f hf
  simp only [roundTripFunctions, List.mem_cons, List.not_mem_nil, or_false] at hf
  rcases hf with rfl | rfl
  · show PlacedAt roundTrip 0x400000 (callOps.map .op)
    exact placedAt_map (by decide)
  · show PlacedAt roundTrip 0x410000 (returnOps.map .op)
    exact placedAt_map (by decide)

theorem roundTrip_early :
    ∀ f ∈ roundTripFunctions, ∀ mi ∈ f.2.flatten, mi.loweredLate = false := by
  decide

theorem roundTrip_trampoline (k : TransferKind) :
    CodeAt roundTrip.code (roundTrip.syms k.sym) k.trampoline := by
  cases k <;> decide

theorem roundTrip_complete (a : BitVec 64) (op : Op) (h : roundTrip.code a = some op) :
    (∃ f ∈ roundTripFunctions, ∃ i < (printed (runOnMachineFunction f.2).2).length,
      a = f.1 + 4 * BitVec.ofNat 64 i)
    ∨ ∃ k : TransferKind, ∃ i < 21, a = roundTrip.syms k.sym + 4 * BitVec.ofNat 64 i := by
  obtain ⟨i, hi, ha, -⟩ | ⟨i, hi, ha, -⟩ | ⟨k, i, hi, ha, -⟩ := roundTrip_code h
  · exact .inl ⟨_, List.mem_cons_self, i, hi, ha⟩
  · exact .inl ⟨_, List.mem_cons_of_mem _ List.mem_cons_self, i, hi, ha⟩
  · exact .inr ⟨k, i, hi, ha⟩

theorem roundTrip_notCode (k : TransferKind) : roundTrip.code (roundTrip.syms k.hook) = none := by
  cases k <;> decide

theorem roundTrip_foreign (k : TransferKind) :
    roundTrip.foreign (roundTrip.syms k.hook) = some idleHook := by
  cases k <;> rfl

theorem roundTrip_hooks (k k' : TransferKind)
    (h : roundTrip.syms k.hook = roundTrip.syms k'.hook) : k = k' := by
  revert h
  cases k <;> cases k' <;> decide

theorem roundTrip_direct (a : BitVec 64) (sym : String) (h : roundTrip.code a = some (.bl sym))
    (hopen : ¬ Inside roundTrip a) : ¬ Inside roundTrip (roundTrip.syms sym) := by
  exfalso
  obtain ⟨i, hi, rfl, hget⟩ | ⟨i, hi, rfl, hget⟩ | ⟨k, i, hi, rfl, -⟩ := roundTrip_code h
  · obtain rfl | hpos := Nat.eq_zero_or_pos i
    · simp [callOps, checkOps, prologueOps] at hget
    · exact hopen (roundTrip_inside hi (Nat.ne_of_gt hpos)).1
  · obtain rfl | hpos := Nat.eq_zero_or_pos i
    · simp [returnOps, checkOps, prologueOps] at hget
    · exact hopen (roundTrip_inside hi (Nat.ne_of_gt hpos)).2
  · exact hopen (.inr (.inl ⟨k, i, hi, rfl⟩))

theorem roundTrip_runsOn (a : BitVec 64) (op : Op) (h : roundTrip.code a = some op)
    (_ : op.straight = true) (k : TransferKind) :
    a + 4 ≠ roundTrip.syms k.sym ∧ a + 4 ≠ roundTrip.syms k.hook := by
  obtain ⟨i, hi, rfl, -⟩ | ⟨i, hi, rfl, -⟩ | ⟨k', i, hi, rfl, -⟩ := roundTrip_code h
  · clear h
    revert i
    cases k <;> decide
  · clear h
    revert i
    cases k <;> decide
  · clear h
    revert i
    cases k <;> cases k' <;> decide

def roundTripCompiled : Compiled roundTrip where
  functions := roundTripFunctions
  body _ := idleHook
  placed := roundTrip_placed
  early := roundTrip_early
  trampoline := roundTrip_trampoline
  complete := roundTrip_complete
  notCode := roundTrip_notCode
  foreign := roundTrip_foreign
  conforms _ := idleHook_conforms
  hooks := roundTrip_hooks
  direct := roundTrip_direct
  runsOn := roundTrip_runsOn

theorem bypassStart_open : ¬ Inside roundTrip bypassStart.machine.pc := by
  rintro (⟨p, hp, j, hj, ha⟩ | ⟨k, hk⟩ | ⟨k, hk⟩)
  · obtain rfl | rfl := roundTrip_site hp
    · revert j
      decide
    · revert j
      decide
  · revert hk
    cases k <;> decide
  · revert hk
    cases k <;> decide

end Cfv

end Oat
