import Oat.LegacyHookit
import Oat.VeScan

/-!
# What a run of the legacy `hookit` leaves

The loops go through the text as a linear scan does (`scanView`), over a
file that they change. What has been written so far are the hooked words
among those visited (`patched`), and the words after them are as they
were, in the file and in what has been read of it (`Kept`): so the scan
is that of the original file, and so is the table (`hookit_returns`).
-/

namespace Oat

namespace Legacy

open Ve

variable (opts : Opts) (md : Disasm) (file : List UInt8)

/-! ## What the scan sees and writes -/

/-- The instruction of the original file at an address. -/
def insnOf (a : Int) : Option CsInsn := md.insnAt file opts.loadAddress a

/-- The word that goes in place of the instruction at an address. -/
def hookedWord (a : Int) : Option (List UInt8) :=
  (insnOf opts md file a).bind fun i =>
    if a ∈ opts.omitAddresses then none
    else (formOf i).bind fun f => newBranchWithLinkInstruction a (f.hook opts.hooks)

/-- The statement of the instruction at an address. -/
def statement (a : Int) : Option Cfs :=
  (insnOf opts md file a).bind fun i =>
    if a ∈ opts.omitAddresses then none
    else (formOf i).bind fun f =>
      match f.srcDst.of i with
      | .error _ => none
      | .ok (src, dst) => some ⟨f.type, i.bytes, src, dst⟩

/-- The writes of a scan that has visited `V`. -/
def writes (V : List Int) : List (Nat × List UInt8) :=
  V.filterMap fun a => (hookedWord opts md file a).map fun w => ((a - opts.loadAddress).toNat, w)

def patched (V : List Int) : List UInt8 := overwriteAll file (writes opts md file V)

def scanView (c : Conf) : Scan :=
  ⟨c.vars.currentAddress, c.vars.prevAddress, c.vars.i, c.mode.scanMode⟩

/-- The address a turn looks at for the first time. -/
def visited (md : Disasm) (c : Conf) : Option Int :=
  match c.mode with
  | .scan g =>
      if g ≠ c.vars.prevAddress ∧
          (md.insnAt c.vars.code c.vars.currentAddress g).isSome = true then some g
      else none
  | _ => none

/-- The file, the table and what has been read, when `V` has been visited. -/
structure Kept (c : Conf) (V : List Int) : Prop where
  quiet : ∀ err, c.mode ≠ .raised err
  mm : c.vars.mm = if opts.dryRun then file else patched opts md file V
  table : c.vars.controlFlowStatements = V.filterMap (statement opts md file)
  code : c.mode ≠ .finished → ∀ a, c.vars.currentAddress ≤ a → (∀ v ∈ V, v + 4 ≤ a) →
    md.insnAt c.vars.code c.vars.currentAddress a = insnOf opts md file a

variable {opts md file}

/-! ## One instruction -/

theorem insnAt_some {code : List UInt8} {base a : Int} {i : CsInsn}
    (h : md.insnAt code base a = some i) : base ≤ a ∧ i.address = a ∧ i.bytes.length = 4 ∧
      window code (a - base).toNat 4 = some i.bytes := by
  unfold Disasm.insnAt at h
  split at h
  · cases h
  · rename_i hbase
    obtain ⟨word, hword, hdecode⟩ := Option.bind_eq_some_iff.mp h
    have hbytes := md.bytes_eq word a i hdecode
    refine ⟨Int.not_lt.mp hbase, md.address_eq word a i hdecode, ?_, ?_⟩
    · rw [hbytes]
      exact (window_length hword).2
    · rw [hbytes, hword]

variable (md) in
/-- What is read from an address on is the file. -/
theorem insnAt_drop (mm : List UInt8) {base current a : Int} (hbase : base ≤ current)
    (ha : current ≤ a) :
    md.insnAt (mm.drop (current - base).toNat) current a = md.insnAt mm base a := by
  have hoff : (a - current).toNat = (a - base).toNat - (current - base).toNat := by omega
  rw [Disasm.insnAt, Disasm.insnAt, if_neg (by omega), if_neg (by omega), hoff,
    window_drop mm (by omega) (by decide)]

theorem getBranchTarget_ok (a : Int) (d₀ d₁ d₂ d₃ : UInt8) :
    ∃ t, getBranchTarget a [d₀, d₁, d₂, d₃] = .ok t := by
  have htake : (frombytes [d₀, d₁, d₂, d₃]).take 24 = frombytes [d₀, d₁, d₂] :=
    take_frombytes 3 [d₀, d₁, d₂, d₃]
  have hbytes : bytesToLong [d₀, d₁, d₂] .little = bytesToLongBig [d₂, d₁, d₀] := rfl
  rw [getBranchTarget, htake, tobytes_frombytes, hbytes, bytesToLongBig_eq]
  exact ⟨_, rfl⟩

/-- The statements never fail. -/
theorem srcDst_ok {i : CsInsn} (h : i.bytes.length = 4) (kind : SrcDst) :
    ∃ src dst, kind.of i = .ok (src, dst) := by
  match hbytes : i.bytes, h with
  | [d₀, d₁, d₂, d₃], _ =>
      cases kind with
      | zero => exact ⟨0, 0, rfl⟩
      | branchTarget =>
          obtain ⟨t, ht⟩ := getBranchTarget_ok i.address d₀ d₁ d₂ d₃
          exact ⟨i.address, t, by rw [SrcDst.of, hbytes, ht]; rfl⟩
      | condBranchTarget =>
          exact ⟨i.address, _, by rw [SrcDst.of, hbytes, getCondBranchTarget_bytes]; rfl⟩
      | tbTarget => exact ⟨i.address, _, by rw [SrcDst.of, hbytes, getTbTarget_bytes]; rfl⟩

theorem newBranch_some (pc t : Int) :
    ∃ w, newBranchWithLinkInstruction pc t = some w ∧ w.length = 4 :=
  ⟨_, newBranchWithLinkInstruction_eq pc t, leBytes_length 4 _⟩

theorem hookedWord_some {a : Int} {w : List UInt8} (h : hookedWord opts md file a = some w) :
    opts.loadAddress ≤ a ∧ (insnOf opts md file a).isSome = true ∧ w.length = 4 ∧
      (a - opts.loadAddress).toNat + w.length ≤ file.length := by
  obtain ⟨i, hi, hrest⟩ := Option.bind_eq_some_iff.mp h
  obtain ⟨hload, -, -, hwindow⟩ := insnAt_some hi
  split at hrest
  · cases hrest
  · obtain ⟨f, -, hw⟩ := Option.bind_eq_some_iff.mp hrest
    obtain ⟨w', hw', hlen⟩ := newBranch_some a (f.hook opts.hooks)
    obtain rfl := Option.some.inj (hw'.symm.trans hw)
    have hbound := (window_length hwindow).1
    exact ⟨hload, by rw [hi]; rfl, hlen, by omega⟩

theorem writes_append (V : List Int) (a : Int) : writes opts md file (V ++ [a]) =
    writes opts md file V ++ ((hookedWord opts md file a).map fun w =>
      ((a - opts.loadAddress).toNat, w)).toList := by
  rw [writes, filterMap_snoc, writes]

theorem mem_writes {V : List Int} {op : Nat × List UInt8} (h : op ∈ writes opts md file V) :
    ∃ a ∈ V, hookedWord opts md file a = some op.2 ∧ op.1 = (a - opts.loadAddress).toNat ∧
      op.2.length = 4 ∧ op.1 + op.2.length ≤ file.length ∧ opts.loadAddress ≤ a := by
  obtain ⟨a, ha, hop⟩ := List.mem_filterMap.mp h
  obtain ⟨w, hw, rfl⟩ := Option.map_eq_some_iff.mp hop
  obtain ⟨hload, -, hlen, hbound⟩ := hookedWord_some hw
  exact ⟨a, ha, hw, rfl, hlen, hbound, hload⟩

theorem writes_bounds (V : List Int) :
    ∀ op ∈ writes opts md file V, op.1 + op.2.length ≤ file.length := fun op hop => by
  obtain ⟨a, -, -, -, -, hbound, -⟩ := mem_writes hop
  exact hbound

theorem patched_length (V : List Int) : (patched opts md file V).length = file.length :=
  overwriteAll_length (writes_bounds V)

/-- After what has been visited, the file is as it was. -/
theorem window_patched {V : List Int} {a : Int} (ha : opts.loadAddress ≤ a)
    (hV : ∀ v ∈ V, v + 4 ≤ a) :
    window (patched opts md file V) (a - opts.loadAddress).toNat 4 =
      window file (a - opts.loadAddress).toNat 4 := by
  refine window_congr (patched_length V) fun k hk _ =>
    overwriteAll_getElem? (writes_bounds V) fun op hop => ?_
  obtain ⟨v, hv, -, hoff, hlen, -, hload⟩ := mem_writes hop
  have := hV v hv
  omega

/-- **Step**, of the file and the table: the rewriting of one instruction. -/
theorem dispatch_ok {s : Vars} {a : Int} {i : CsInsn} (hi : insnOf opts md file a = some i)
    (homit : a ∉ opts.omitAddresses) (hlen : s.mm.length = file.length) :
    dispatch opts i s = .ok { s with
      mm := if opts.dryRun then s.mm else
        ((hookedWord opts md file a).map fun w =>
          overwrite s.mm (a - opts.loadAddress).toNat w).getD s.mm
      controlFlowStatements :=
        s.controlFlowStatements ++ (statement opts md file a).toList } := by
  obtain ⟨hload, haddr, hbytes, -⟩ := insnAt_some hi
  have hword : hookedWord opts md file a =
      (formOf i).bind fun f => newBranchWithLinkInstruction a (f.hook opts.hooks) := by
    rw [hookedWord, hi, Option.bind_some, if_neg homit]
  rw [statement, hi, Option.bind_some, if_neg homit, dispatch]
  cases hform : formOf i with
  | none =>
      rw [hform] at hword
      simp [hword, pure, Except.pure]
  | some f =>
      obtain ⟨w, hw, hwlen⟩ := newBranch_some a (f.hook opts.hooks)
      obtain ⟨src, dst, hsrc⟩ := srcDst_ok hbytes f.srcDst
      rw [hform, Option.bind_some, hw] at hword
      obtain ⟨-, -, -, hbound⟩ := hookedWord_some hword
      have hwrite : writeBack s.mm (a - opts.loadAddress) w =
          .ok (overwrite s.mm (a - opts.loadAddress).toNat w) := by
        rw [writeBack, if_neg (by omega)]
      simp only [Form.rewrite, haddr, hw, hsrc, hword, bind, Except.bind, Option.bind_some,
        Option.map_some, Option.getD_some, Option.toList_some]
      cases opts.dryRun with
      | true => rfl
      | false =>
          simp only [hwrite, Bool.false_eq_true, if_false]
          rfl

/-! ## Turns -/

/-- The end of a turn of the `while` loop is a restart of the scan, on the
file as it is then. -/
theorem kept_afterFor {s : Vars} {V : List Int} (mode : Mode) {j : Int} (hj : s.i = some j)
    (hload : opts.loadAddress ≤ s.currentAddress)
    (hmm : s.mm = if opts.dryRun then file else patched opts md file V)
    (htable : s.controlFlowStatements = V.filterMap (statement opts md file)) :
    Kept opts md file (afterFor opts s) V ∧ scanView (afterFor opts s) =
      (scanView ⟨s, mode⟩).turn opts.textEnd (opts.loadAddress + file.length) j := by
  have hlen : s.mm.length = file.length := by
    rw [hmm]
    split
    · rfl
    · exact patched_length V
  generalize hcurrent : (if s.currentAddress < j then j else s.currentAddress + 4) = current
  have hpast : opts.loadAddress ≤ current := by
    rw [← hcurrent]
    split <;> omega
  have hturn : (scanView ⟨s, mode⟩).turn opts.textEnd (opts.loadAddress + file.length) j =
      ⟨current, s.prevAddress, s.i, if opts.textEnd ≤ current ∨
        opts.loadAddress + file.length ≤ current then .finished else .outer⟩ := by
    rw [← hcurrent]
    rfl
  rw [hturn]
  by_cases hfin : opts.textEnd ≤ current ∨ opts.loadAddress + (file.length : Int) ≤ current
  · have hafter : afterFor opts s = ⟨{ s with currentAddress := current }, .finished⟩ := by
      simp only [afterFor, hj, hcurrent, hlen, if_pos hfin]
    rw [hafter, if_pos hfin]
    exact ⟨⟨by simp, hmm, htable, fun h => absurd rfl h⟩, rfl⟩
  · have hafter : afterFor opts s = ⟨{ s with
        currentAddress := current
        code := s.mm.drop (current - opts.loadAddress).toNat }, .outer⟩ := by
      simp only [afterFor, hj, hcurrent, hlen, if_neg hfin, if_neg (Int.not_lt.mpr hpast)]
    rw [hafter, if_neg hfin]
    refine ⟨⟨by simp, hmm, htable, fun _ a ha hV => ?_⟩, rfl⟩
    dsimp only at ha ⊢
    have hword : window s.mm (a - opts.loadAddress).toNat 4 =
        window file (a - opts.loadAddress).toNat 4 := by
      rw [hmm]
      split
      · rfl
      · exact window_patched (by omega) hV
    rw [insnAt_drop md s.mm hpast ha, insnOf, Disasm.insnAt, Disasm.insnAt, hword]

/-- The variables after the visit of `g`. -/
structure Visit (opts : Opts) (md : Disasm) (file : List UInt8) (s s' : Vars) (g : Int)
    (V : List Int) : Prop where
  mm : s'.mm = if opts.dryRun then file else patched opts md file V
  table : s'.controlFlowStatements = V.filterMap (statement opts md file)
  code : s'.code = s.code
  current : s'.currentAddress = s.currentAddress
  prev : s'.prevAddress = g
  i : s'.i = some g

/-- The body of the loop, on a new word. -/
theorem kept_visit {c : Conf} {V : List Int} (h : Kept opts md file c V) {g : Int} {i : CsInsn}
    (hi : insnOf opts md file g = some i) (hlen : c.vars.mm.length = file.length)
    (hnew : g ≠ c.vars.prevAddress) :
    ∃ s, forBody opts i c.vars = .ok (decide (opts.textEnd ≤ g), s) ∧
      Visit opts md file c.vars s g (V ++ [g]) := by
  obtain ⟨-, haddr, -, -⟩ := insnAt_some hi
  by_cases homit : g ∈ opts.omitAddresses
  · have hword : hookedWord opts md file g = none := by
      rw [hookedWord, hi, Option.bind_some, if_pos homit]
    have hstatement : statement opts md file g = none := by
      rw [statement, hi, Option.bind_some, if_pos homit]
    refine ⟨{ c.vars with i := some g, prevAddress := g }, ?_, ?_, ?_, rfl, rfl, rfl, rfl⟩
    · simp only [forBody, haddr, if_neg hnew, if_pos homit]
      rfl
    · rw [h.mm, patched, patched, writes_append, hword, Option.map_none, Option.toList_none,
        List.append_nil]
    · rw [h.table, filterMap_snoc, hstatement, Option.toList_none, List.append_nil]
  · have hlen' : ({ c.vars with i := some g, prevAddress := g } : Vars).mm.length = file.length :=
      hlen
    have hdispatch := dispatch_ok hi homit hlen'
    refine ⟨?_, ?_, ?_⟩
    rotate_left
    · simp only [forBody, haddr, if_neg hnew, if_neg homit, hdispatch]
      rfl
    refine ⟨?_, ?_, rfl, rfl, rfl, rfl⟩
    · dsimp only
      rw [h.mm]
      cases opts.dryRun with
      | true => rfl
      | false =>
          simp only [Bool.false_eq_true, if_false, patched, writes_append]
          cases hookedWord opts md file g with
          | none => rw [Option.map_none, Option.map_none, Option.toList_none, List.append_nil]; rfl
          | some w => exact (overwriteAll_append ..).symm
    · rw [filterMap_snoc, ← h.table]

/-- A turn that reads a new word. -/
theorem kept_new {c : Conf} {V : List Int} (h : Kept opts md file c V)
    (hcur : opts.loadAddress ≤ c.vars.currentAddress) (hlen : c.vars.mm.length = file.length)
    {g : Int} {i : CsInsn} (hmode : c.mode = .scan g) (hnew : g ≠ c.vars.prevAddress)
    (hread : md.insnAt c.vars.code c.vars.currentAddress g = some i)
    (hi : insnOf opts md file g = some i) :
    ScanStep (fun a => (insnOf opts md file a).isSome) opts.textEnd
        (opts.loadAddress + file.length) (scanView c) (some g) (scanView (step opts md c)) ∧
      Kept opts md file (step opts md c) (V ++ [g]) := by
  have hview : (scanView c).mode = .scan g := by simp [scanView, hmode, Mode.scanMode]
  have hsome : (insnOf opts md file g).isSome = true := by rw [hi]; rfl
  obtain ⟨s, hbody, hvisit⟩ := kept_visit h hi hlen hnew
  have hstep : step opts md c =
      if opts.textEnd ≤ g then afterFor opts s else ⟨s, .scan (g + 4)⟩ := by
    simp only [step, hmode, hread, hbody]
    by_cases hend : opts.textEnd ≤ g
    · simp only [if_pos hend, decide_eq_true hend]
    · simp only [if_neg hend, decide_eq_false hend]
  rw [hstep]
  by_cases hend : opts.textEnd ≤ g
  · obtain ⟨hkept, hturn⟩ := kept_afterFor c.mode hvisit.i
      (by rw [hvisit.current]; exact hcur) hvisit.mm hvisit.table
    have hshow : scanView ⟨s, c.mode⟩ = { scanView c with prev := g, last := some g } := by
      simp only [scanView, hvisit.current, hvisit.prev, hvisit.i]
    rw [if_pos hend, hturn, hshow]
    exact ⟨.leave hview hnew hsome hend, hkept⟩
  · have hshow : scanView ⟨s, .scan (g + 4)⟩ =
        { scanView c with prev := g, last := some g, mode := .scan (g + 4) } := by
      simp only [scanView, hvisit.current, hvisit.prev, hvisit.i, Mode.scanMode]
    rw [if_neg hend, hshow]
    refine ⟨.visit hview hnew hsome (Int.not_le.mp hend), by simp, hvisit.mm,
      hvisit.table, fun _ a ha hV => ?_⟩
    rw [hvisit.current] at ha
    rw [hvisit.code, hvisit.current]
    exact h.code (by simp [hmode]) a ha fun v hv => hV v (List.mem_append_left _ hv)

/-- **Step**: a turn is a step of the scan of the original file. -/
theorem kept_step (hfirst : (insnOf opts md file opts.textStart).isSome = true)
    (hload : opts.loadAddress ≤ opts.textStart) {c : Conf} {V : List Int}
    (h : Kept opts md file c V)
    (hinv : ScanInv (fun a => (insnOf opts md file a).isSome) opts.textStart opts.textEnd
      (scanView c) V) (hgoing : (scanView c).mode ≠ .finished) :
    ScanStep (fun a => (insnOf opts md file a).isSome) opts.textEnd
        (opts.loadAddress + file.length) (scanView c) (visited md c)
        (scanView (step opts md c)) ∧
      Kept opts md file (step opts md c) (V ++ (visited md c).toList) := by
  have hcur : opts.loadAddress ≤ c.vars.currentAddress :=
    Int.le_trans hload (hinv.start_le hgoing)
  have hlen : c.vars.mm.length = file.length := by
    rw [h.mm]
    split
    · rfl
    · exact patched_length V
  cases hmode : c.mode with
  | finished => exact absurd (by simp [scanView, hmode, Mode.scanMode]) hgoing
  | raised err => exact absurd hmode (h.quiet err)
  | outer =>
      have hstep : step opts md c = { c with mode := .scan c.vars.currentAddress } := by
        simp only [step, hmode]
      have hseen : visited md c = none := by simp [visited, hmode]
      have hview : (scanView c).mode = .outer := by simp [scanView, hmode, Mode.scanMode]
      rw [hstep, hseen, Option.toList_none, List.append_nil]
      exact ⟨.enter hview, by simp, h.mm, h.table, fun _ => h.code (by simp [hmode])⟩
  | scan g =>
      have hview : (scanView c).mode = .scan g := by simp [scanView, hmode, Mode.scanMode]
      have hle : c.vars.currentAddress ≤ g := hinv.current_le hview
      have hcode := h.code (by simp [hmode])
      by_cases hprev : g = c.vars.prevAddress
      · obtain rfl := hprev
        have hseen : visited md c = none := by simp [visited, hmode]
        rw [hseen, Option.toList_none, List.append_nil]
        cases hread : md.insnAt c.vars.code c.vars.currentAddress c.vars.prevAddress with
        | none =>
            cases hj : c.vars.i with
            | none => exact absurd rfl (hinv.last_none hview hj).2
            | some j =>
                have hstep : step opts md c = afterFor opts c.vars := by
                  simp only [step, hmode, hread]
                obtain ⟨hkept, hturn⟩ := kept_afterFor c.mode hj hcur h.mm h.table
                rw [hstep, hturn]
                exact ⟨.ends hview (fun hne => absurd rfl hne) hj, hkept⟩
        | some i =>
            obtain ⟨-, haddr, -, -⟩ := insnAt_some hread
            have hstep : step opts md c =
                ⟨{ c.vars with i := some c.vars.prevAddress }, .scan (c.vars.prevAddress + 4)⟩ := by
              simp only [step, hmode, hread, forBody, haddr, if_true]
              rfl
            rw [hstep]
            exact ⟨.again hview, by simp, h.mm, h.table, fun _ => hcode⟩
      · obtain ⟨k, -, hk, hV⟩ := hinv.visited hview hprev
        have hbefore : ∀ v ∈ V, v + 4 ≤ g := by
          intro v hv
          rw [hV] at hv
          obtain ⟨k', hk', rfl, -⟩ := mem_decodedBelow.mp hv
          omega
        have hread := hcode g hle hbefore
        cases hi : insnOf opts md file g with
        | none =>
            have hseen : visited md c = none := by simp [visited, hmode, hread, hi]
            rw [hi] at hread
            cases hj : c.vars.i with
            | none =>
                obtain ⟨rfl, -⟩ := hinv.last_none hview hj
                rw [hi] at hfirst
                cases hfirst
            | some j =>
                have hstep : step opts md c = afterFor opts c.vars := by
                  simp only [step, hmode, hread]
                obtain ⟨hkept, hturn⟩ := kept_afterFor c.mode hj hcur h.mm h.table
                rw [hstep, hseen, hturn, Option.toList_none, List.append_nil]
                exact ⟨.ends hview (fun _ => by simp [hi]) hj, hkept⟩
        | some i =>
            have hseen : visited md c = some g := by simp [visited, hmode, hprev, hread, hi]
            rw [hseen, Option.toList_some]
            exact kept_new h hcur hlen hmode hprev (hread.trans hi) hi

/-! ## The run -/

theorem load_le_of_start {c₀ : Conf} (h₀ : hookitStart opts file = .ok c₀) :
    opts.loadAddress ≤ opts.textStart ∧ c₀ = ⟨⟨file, [],
      file.drop (opts.textStart - opts.loadAddress).toNat, opts.textStart, -1, none⟩, .outer⟩ := by
  simp only [hookitStart] at h₀
  split at h₀
  · cases h₀
  · rename_i hoffset
    have hcurrent : opts.loadAddress + (opts.textStart - opts.loadAddress) = opts.textStart := by
      omega
    rw [hcurrent] at h₀
    exact ⟨by omega, (Except.ok.inj h₀).symm⟩

theorem hookitStart_ok (hfirst : (insnOf opts md file opts.textStart).isSome = true) :
    hookitStart opts file = .ok ⟨⟨file, [], file.drop (opts.textStart - opts.loadAddress).toNat,
      opts.textStart, -1, none⟩, .outer⟩ := by
  obtain ⟨i, hi⟩ := Option.isSome_iff_exists.mp hfirst
  obtain ⟨hload, -, -, hwindow⟩ := insnAt_some hi
  obtain ⟨hbound, -⟩ := window_length hwindow
  have hne : file ≠ [] := by
    rintro rfl
    simp at hbound
  have hoffset : ¬ (file = [] ∨ opts.textStart - opts.loadAddress < 0 ∨
      (file.length : Int) < opts.textStart - opts.loadAddress) := by
    rintro (h | h | h)
    · exact hne h
    · omega
    · omega
  have hcurrent : opts.loadAddress + (opts.textStart - opts.loadAddress) = opts.textStart := by
    omega
  simp only [hookitStart, if_neg hoffset, hcurrent]

/-- **Run**: the scan comes to its end. -/
theorem kept_run (hstart : 0 ≤ opts.textStart)
    (hfirst : (insnOf opts md file opts.textStart).isSome = true) {c₀ : Conf}
    (h₀ : hookitStart opts file = .ok c₀) :
    ∃ n, ScanRun (fun a => (insnOf opts md file a).isSome) opts.textStart opts.textEnd
        (opts.loadAddress + file.length) (step opts md) scanView (visited md)
        (Kept opts md file) c₀ n ∧ ((step opts md)^[n] c₀).mode = .finished := by
  obtain ⟨i, hi⟩ := Option.isSome_iff_exists.mp hfirst
  obtain ⟨hload, -⟩ := insnAt_some hi
  obtain rfl := Except.ok.inj ((hookitStart_ok hfirst).symm.trans h₀)
  have hkept : Kept opts md file ⟨⟨file, [], file.drop (opts.textStart - opts.loadAddress).toNat,
      opts.textStart, -1, none⟩, .outer⟩ [] :=
    ⟨by simp, (ite_self file).symm, rfl, fun _ a ha _ => insnAt_drop md file hload ha⟩
  have hfile : ∀ a, (insnOf opts md file a).isSome = true →
      a < opts.loadAddress + (file.length : Int) := by
    intro a ha
    obtain ⟨j, hj⟩ := Option.isSome_iff_exists.mp ha
    obtain ⟨hle, -, -, hwindow⟩ := insnAt_some hj
    have := (window_length hwindow).1
    omega
  obtain ⟨n, hrun, hend⟩ := scan_run scanView (visited md) hstart hfirst hfile
    rfl hkept fun c V h hinv hgoing => Or.inr (a := False) (kept_step hfirst hload h hinv hgoing)
  refine ⟨n, hrun, ?_⟩
  have hfin := hend.resolve_right id
  have hquiet := (hrun.inv n (Nat.le_refl n)).1.quiet
  generalize (step opts md)^[n] _ = c at hfin hquiet ⊢
  obtain ⟨vars, mode⟩ := c
  cases mode with
  | finished => rfl
  | raised err => exact absurd rfl (hquiet err)
  | outer => cases hfin
  | scan g => cases hfin

variable (opts md file) in
/-- The scan handles each word of the section, and is over. -/
def ScansText : Prop :=
  ∃ c₀ n, hookitStart opts file = .ok c₀ ∧
    Handles (fun a => (insnOf opts md file a).isSome) opts.textStart opts.textEnd
      (opts.loadAddress + file.length) (step opts md) scanView (visited md) c₀ n
      (sectionWords opts.textStart opts.textEnd) ∧
    ((step opts md)^[n] c₀).mode = .finished

theorem hookit_scans (hstart : 0 ≤ opts.textStart)
    (hfirst : (insnOf opts md file opts.textStart).isSome = true) :
    ScansText opts md file := by
  have h₀ := hookitStart_ok hfirst
  obtain ⟨n, hrun, hfin⟩ := kept_run hstart hfirst h₀
  exact ⟨_, n, h₀, hrun.handles (by rw [scanView, hfin]; rfl), hfin⟩

variable (opts md file) in
/-- The words that the run visits. -/
def words : List Int :=
  scanned (fun a => (insnOf opts md file a).isSome) opts.textStart opts.textEnd

variable (opts) in
/-- `hookit` returns if it can decode the first word, and it leaves the file
with the hooked words that it visited in their places. -/
theorem hookit_returns (hstart : 0 ≤ opts.textStart)
    (hfirst : (insnOf opts md file opts.textStart).isSome = true) :
    Returns opts md file (if opts.dryRun then file else patched opts md file (words opts md file))
      ((words opts md file).filterMap (statement opts md file)) := by
  have h₀ := hookitStart_ok hfirst
  obtain ⟨n, hrun, hfin⟩ := kept_run hstart hfirst h₀
  obtain ⟨hkept, hinv⟩ := hrun.inv n (Nat.le_refl n)
  have hwords : visits (step opts md) (visited md) _ n = words opts md file :=
    hinv.scanned (by rw [scanView, hfin]; rfl)
  rw [hwords] at hkept
  exact ⟨_, n, h₀, hfin, hkept.mm, hkept.table⟩

theorem step_finished {c : Conf} (h : c.mode = .finished) : step opts md c = c := by
  simp only [step, h]

/-- A run returns one file and one table. -/
theorem Returns.unique {mm mm' : List UInt8} {table table' : List Cfs}
    (h : Returns opts md file mm table) (h' : Returns opts md file mm' table') :
    mm = mm' ∧ table = table' := by
  obtain ⟨c₀, n, h₀, hfin, rfl, rfl⟩ := h
  obtain ⟨c₀', n', h₀', hfin', rfl, rfl⟩ := h'
  obtain rfl := Except.ok.inj (h₀.symm.trans h₀')
  have hstay {m : Nat} (hm : ((step opts md)^[m] c₀).mode = .finished) (k : Nat) :
      (step opts md)^[k + m] c₀ = (step opts md)^[m] c₀ := by
    rw [Function.iterate_add_apply, Function.iterate_fixed (step_finished hm)]
  have heq : (step opts md)^[n] c₀ = (step opts md)^[n'] c₀ :=
    ((hstay hfin n').symm.trans (by rw [Nat.add_comm])).trans (hstay hfin' n)
  rw [heq]
  exact ⟨rfl, rfl⟩

variable (opts) in
/-- Without an instruction at the start, the loop variable is never bound. -/
theorem not_returns (hfirst : (insnOf opts md file opts.textStart).isSome = false)
    (mm : List UInt8) (table : List Cfs) : ¬ Returns opts md file mm table := by
  rintro ⟨c₀, n, h₀, hfin, -⟩
  obtain ⟨hload, rfl⟩ := load_le_of_start h₀
  have hread := insnAt_drop md file hload (Int.le_refl opts.textStart)
  have hnone : md.insnAt file opts.loadAddress opts.textStart = none :=
    Option.not_isSome_iff_eq_none.mp (by rw [← insnOf, hfirst]; exact Bool.false_ne_true)
  rw [hnone] at hread
  match n with
  | 0 => cases hfin
  | 1 => cases hfin
  | n + 2 =>
      rw [Function.iterate_add_apply, Function.iterate_succ_apply, Function.iterate_one] at hfin
      simp only [step, hread, afterFor] at hfin
      rw [Function.iterate_fixed rfl] at hfin
      cases hfin

end Legacy

end Oat
