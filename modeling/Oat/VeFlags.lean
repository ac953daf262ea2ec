import Mathlib.Data.List.Induction
import Oat.VeRun

/-!
# The direction of a branch, against the CSETs that came before it

The compiler computes the condition of a branch into a register with
CSET and passes it to the hint call, so a trace symbol says whether the
condition `d` of the last CSET held. A branch on `d` goes the way of the
symbol, a branch on the inverse of `d` the other way.

`hookit` keeps three flags of the CSETs it has replayed. `flags_run`
says what they are: a fold over the history. Read back from there
(`branchFlag_eq`), the flag used for a B.cond is that of the last CSET
among ne, gt and lt, so an eq, ge or le in between goes unnoticed; and a
condition other than eq, ne, lt, gt is always flipped.
`branch_direction_iff` says exactly when that is right.
-/

namespace Oat

namespace Ve

open A64

/-! ## The flags as a fold over the history -/

theorem dispatch_error_no_cset {opts : Opts} {a : Int} {insn : Insn} {s : Replay} {err : PyError}
    (h : dispatch opts (capstone a insn) s = .error err) : csetCond insn = none := by
  cases insn with
  | cset sf cond rd =>
      cases hs : s.replayStart with
      | true =>
          rw [dispatch_cset hs] at h
          cases h
      | false =>
          rw [dispatch_idle hs (by simp)] at h
          cases h
  | _ => rfl

variable {opts : Opts} {img : Image} {fetch : Int → Option Insn}

/-- **Step**: a replayed instruction updates the flags, and nothing else
does. -/
theorem step_flags (hdis : Disassembles img fetch) (c : Conf) :
    (step opts img c).vars.flags
      = ((replayed opts fetch c).map (·.2)).elim c.vars.flags c.vars.flags.after := by
  cases hd : dispatched opts fetch c with
  | none =>
      rw [(step_quiet hdis hd).flags, replayed, hd, ite_self]
      rfl
  | some p =>
      obtain ⟨g, insn⟩ := p
      rw [step_dispatched hdis hd, replayed, hd]
      cases hres : dispatch opts (capstone g insn) (c.vars.enter g) with
      | error err =>
          have hnone := dispatch_error_no_cset hres
          cases c.vars.replayStart with
          | false => rfl
          | true => simp [Flags.after, hnone]
      | ok r =>
          obtain ⟨flow, s'⟩ := r
          simp only
          have hflags : s'.flags = if c.vars.replayStart then c.vars.flags.after insn
              else c.vars.flags := (dispatch_ok hres).flags
          rw [(afterFlow_keeps g s' flow).flags, hflags]
          cases c.vars.replayStart <;> rfl

/-- **Run**: the flags are the fold over what has been replayed. -/
theorem flags_run (hdis : Disassembles img fetch) {c₀ : Conf} (h₀ : c₀.vars.flags = Flags.init)
    (n : Nat) :
    ((step opts img)^[n] c₀).vars.flags
      = (replayedStream opts fetch (trail (step opts img) c₀ n)).foldl Flags.after Flags.init := by
  refine trail_inv (I := fun past c => c.vars.flags
    = (replayedStream opts fetch past).foldl Flags.after Flags.init) h₀ ?_ n
  intro past c hi
  rw [step_flags hdis, hi, replayedStream, replayedStream, List.filterMap_append,
    List.foldl_append]
  cases hr : replayed opts fetch c <;> simp [hr]

/-! ## The flags read back -/

def csets (stream : List Insn) : List Cond := stream.filterMap csetCond

theorem foldl_after (stream : List Insn) (f : Flags) :
    stream.foldl Flags.after f = (csets stream).foldl Flags.onCset f := by
  induction stream generalizing f with
  | nil => rfl
  | cons insn stream ih =>
      rw [List.foldl_cons, ih, csets, csets, List.filterMap_cons, Flags.after]
      cases csetCond insn <;> rfl

/-- The last CSET among ne, gt and lt, which is what `last_flag` follows. -/
def lastOrder (ds : List Cond) : Option Cond :=
  ds.reverse.find? fun d => d = .ne ∨ d = .gt ∨ d = .lt

/-- Whether the last CSET among ne and eq is ne. -/
def lastIsNe (ds : List Cond) : Bool :=
  (ds.reverse.find? fun d => d = .ne ∨ d = .eq) = some .ne

/-- The flag a B.cond is decided with. -/
def branchFlag (ds : List Cond) : Bool :=
  match lastOrder ds with
  | some .ne => lastIsNe ds
  | some .lt => true
  | _ => false

theorem lastOrder_concat (ds : List Cond) (d : Cond) :
    lastOrder (ds ++ [d])
      = if d = .ne ∨ d = .gt ∨ d = .lt then some d else lastOrder ds := by
  unfold lastOrder
  rw [List.reverse_append, List.reverse_singleton, List.singleton_append, List.find?_cons]
  by_cases h : d = .ne ∨ d = .gt ∨ d = .lt
  · simp [h]
  · simp [h]

theorem lastIsNe_concat (ds : List Cond) (d : Cond) :
    lastIsNe (ds ++ [d]) = if d = .ne then true else if d = .eq then false else lastIsNe ds := by
  unfold lastIsNe
  rw [List.reverse_append, List.reverse_singleton, List.singleton_append, List.find?_cons]
  cases d <;> simp

/-- What the three flags record of a history. -/
structure FlagsOf (ds : List Cond) (f : Flags) : Prop where
  ne : f.lastNeFlag = lastIsNe ds
  kind : f.lastFlag = (match lastOrder ds with | none => .eq | some .ne => .e | some _ => .lg)
  order : lastOrder ds ≠ some .ne → f.lastLtFlag = decide (lastOrder ds = some .lt)

theorem flagsOf_concat {ds : List Cond} {f : Flags} (h : FlagsOf ds f) (d : Cond) :
    FlagsOf (ds ++ [d]) (f.onCset d) := by
  obtain ⟨hne, hkind, horder⟩ := h
  cases d with
  | ne =>
      refine ⟨by simp [lastIsNe_concat, Flags.onCset],
        by simp [lastOrder_concat, Flags.onCset], ?_⟩
      intro h
      exact absurd (by simp [lastOrder_concat]) h
  | gt =>
      refine ⟨by simp [lastIsNe_concat, Flags.onCset, hne],
        by simp [lastOrder_concat, Flags.onCset], ?_⟩
      intro _
      simp [lastOrder_concat, Flags.onCset]
  | lt =>
      refine ⟨by simp [lastIsNe_concat, Flags.onCset, hne],
        by simp [lastOrder_concat, Flags.onCset], ?_⟩
      intro _
      simp [lastOrder_concat, Flags.onCset]
  | eq =>
      refine ⟨by simp [lastIsNe_concat, Flags.onCset],
        by simpa [lastOrder_concat, Flags.onCset] using hkind, ?_⟩
      intro h
      have hbefore : lastOrder ds ≠ some .ne := by simpa [lastOrder_concat] using h
      simpa [lastOrder_concat, Flags.onCset] using horder hbefore
  | _ =>
      refine ⟨by simp [lastIsNe_concat, Flags.onCset, hne],
        by simpa [lastOrder_concat, Flags.onCset] using hkind, ?_⟩
      intro h
      have hbefore : lastOrder ds ≠ some .ne := by simpa [lastOrder_concat] using h
      simpa [lastOrder_concat, Flags.onCset] using horder hbefore

theorem flagsOf_history (ds : List Cond) : FlagsOf ds (ds.foldl Flags.onCset Flags.init) := by
  induction ds using List.reverseRecOn with
  | nil => exact ⟨rfl, rfl, fun _ => rfl⟩
  | append_singleton ds d ih =>
      rw [List.foldl_append]
      exact flagsOf_concat ih d

theorem branchFlag_eq (ds : List Cond) :
    (ds.foldl Flags.onCset Flags.init).forBranch = branchFlag ds := by
  obtain ⟨hne, hkind, horder⟩ := flagsOf_history ds
  unfold Flags.forBranch branchFlag
  rw [hkind, hne]
  cases hl : lastOrder ds with
  | none => simpa [hl] using horder (by simp [hl])
  | some d =>
      cases d with
      | ne => rfl
      | _ => simpa [hl] using horder (by simp [hl])

/-! ## When the direction is right -/

def testsCond : Insn → Option Cond
  | .bCond c _ => some c
  | .cbz _ _ _ => some .eq
  | .tbz _ _ _ => some .eq
  | .cbnz _ _ _ => some .ne
  | .tbnz _ _ _ => some .ne
  | _ => none

/-- A B.c after the CSETs `ds`, of which the last materialised `d`, is
followed in the right direction. -/
def rightFor (c : Cond) (ds : List Cond) (d : Cond) : Prop :=
  match c with
  | .eq => d = .ne ∨ lastOrder ds ≠ some .lt
  | .ne => d = .ne ∨ lastOrder ds ≠ some .lt
  | .lt => d = .lt ∨ branchFlag ds = false
  | .gt => d = .gt ∨ branchFlag ds = true
  | _ => d ≠ c

/-- The other conditional branches look at the ne flag, which is always
right for them. -/
def RightDirection (insn : Insn) (ds : List Cond) (d : Cond) : Prop :=
  match insn with
  | .bCond c _ => rightFor c ds d
  | _ => True

theorem flipCond_name (c : Cond) (f : Bool) :
    flipCond ("b." ++ c.name) f
      = match c with
        | .eq => f
        | .ne => !f
        | .lt => !f
        | .gt => f
        | _ => true := by
  cases c <;> cases f <;> decide

theorem branchFlag_concat_eq (ds : List Cond) :
    branchFlag (ds ++ [.eq]) = decide (lastOrder (ds ++ [.eq]) = some .lt) := by
  unfold branchFlag
  rw [lastIsNe_concat]
  cases lastOrder (ds ++ [.eq]) with
  | none => rfl
  | some d => cases d <;> rfl

theorem branchFlag_concat_order (ds : List Cond) :
    branchFlag (ds ++ [.ne]) = true ∧ branchFlag (ds ++ [.lt]) = true
      ∧ branchFlag (ds ++ [.gt]) = false := by
  simp [branchFlag, lastOrder_concat, lastIsNe_concat]

theorem flipCond_iff {c d : Cond} (pre : List Cond) (hdc : d = c ∨ d = c.inverse) :
    flipCond ("b." ++ c.name) (branchFlag (pre ++ [d])) = decide (d ≠ c)
      ↔ rightFor c (pre ++ [d]) d := by
  obtain ⟨hne, hlt, hgt⟩ := branchFlag_concat_order pre
  have heq := branchFlag_concat_eq pre
  rw [flipCond_name]
  unfold rightFor
  cases c with
  | eq => rcases hdc with rfl | rfl <;> simp [Cond.inverse, heq, hne]
  | ne => rcases hdc with rfl | rfl <;> simp [Cond.inverse, heq, hne]
  | lt => rcases hdc with rfl | rfl <;> simp [Cond.inverse, hlt]
  | gt => rcases hdc with rfl | rfl <;> simp [Cond.inverse, hgt]
  | _ => rcases hdc with rfl | rfl <;> simp [Cond.inverse]

theorem lastIsNe_last {d : Cond} (pre : List Cond) (h : d = .eq ∨ d = .ne) :
    lastIsNe (pre ++ [d]) = decide (d = .ne) := by
  rcases h with rfl | rfl <;> simp [lastIsNe_concat]

/-- Whether the flip is the one that `d` asks for. -/
theorem flip_iff {insn : Insn} {c d : Cond} {ds : List Cond} (hc : testsCond insn = some c)
    (hd : ds.getLast? = some d) (hdc : d = c ∨ d = c.inverse) :
    flipFor insn (ds.foldl Flags.onCset Flags.init) = decide (d ≠ c)
      ↔ RightDirection insn ds d := by
  obtain ⟨pre, rfl⟩ := List.getLast?_eq_some_iff.mp hd
  have hneFlag := (flagsOf_history (pre ++ [d])).ne
  cases insn with
  | bCond c' imm19 =>
      obtain rfl := Option.some.inj hc
      have hflag := branchFlag_eq (pre ++ [d])
      simp only [flipFor, hflag, RightDirection]
      exact flipCond_iff pre hdc
  | cbz sf imm19 rt =>
      obtain rfl := Option.some.inj hc
      simp only [flipFor, hneFlag, lastIsNe_last pre hdc, RightDirection]
      rcases hdc with rfl | rfl <;> decide
  | cbnz sf imm19 rt =>
      obtain rfl := Option.some.inj hc
      simp only [flipFor, hneFlag, lastIsNe_last pre hdc.symm, RightDirection]
      rcases hdc with rfl | rfl <;> decide
  | tbz bit imm14 rt =>
      obtain rfl := Option.some.inj hc
      simp only [flipFor, hneFlag, lastIsNe_last pre hdc, RightDirection]
      rcases hdc with rfl | rfl <;> decide
  | tbnz bit imm14 rt =>
      obtain rfl := Option.some.inj hc
      simp only [flipFor, hneFlag, lastIsNe_last pre hdc.symm, RightDirection]
      rcases hdc with rfl | rfl <;> decide
  | _ => cases hc

/-! ## In a run -/

variable (opts img) in
/-- The turn writes the line of its branch with a target. -/
def FollowsTaken (c : Conf) (a : Int) (insn : Insn) : Prop :=
  ∃ t, (step opts img c).vars.ofd = c.vars.ofd ++ [condLine a (some t) insn]

theorem condLine_ne (a t : Int) (insn : Insn) : condLine a none insn ≠ condLine a (some t) insn := by
  cases insn <;> simp [condLine]

theorem testsCond_isCondBranch {insn : Insn} {c : Cond} (h : testsCond insn = some c) :
    insn.isCondBranch = true := by
  cases insn <;> first | rfl | cases h

/-- A conditional branch is followed as taken when the answer of the
trace, flipped or not, is `'y'`. -/
theorem followsTaken_iff (hdis : Disassembles img fetch) {c : Conf} {a : Int} {insn : Insn}
    {nb : NextBranch} {trace : ExecutionTrace} (hrep : replayed opts fetch c = some (a, insn))
    (hc : insn.isCondBranch = true) (hnb : c.vars.trace.nextBranch = .ok (nb, trace)) :
    FollowsTaken opts img c a insn ↔ takes insn c.vars.flags nb = true := by
  obtain ⟨hs, hdisp⟩ := replayed_eq_some.mp hrep
  have hres : dispatch opts (capstone a insn) (c.vars.enter a)
      = .ok (branchOn (c.vars.enter a) (branchResult a insn (takes insn c.vars.flags nb)) trace
        fun t => condLine a t insn) := by
    have hs' : (c.vars.enter a).replayStart = true := hs
    have hnb' : (c.vars.enter a).trace.nextBranch = .ok (nb, trace) := hnb
    rw [dispatch_condBranch hc hs', hnb']
    rfl
  unfold FollowsTaken
  rw [step_dispatched hdis hdisp, hres]
  simp only
  rw [(afterFlow_keeps ..).ofd]
  cases htake : takes insn c.vars.flags nb with
  | true => exact iff_of_true ⟨seenTarget a insn, rfl⟩ rfl
  | false =>
      refine iff_of_false ?_ (by simp)
      rintro ⟨t, ht⟩
      exact condLine_ne a t insn (List.singleton_inj.mp (List.append_cancel_left ht))

theorem flip_y_iff (nb : NextBranch) (flipIt : Bool) (hnb : nb ≠ .e) :
    (if flipIt then nb.flip else nb) = .y ↔ (nb = .y ↔ flipIt = false) := by
  cases nb <;> cases flipIt <;> simp [NextBranch.flip] at hnb ⊢

/-- At any point of any run: a conditional branch on `c`, reached after
CSETs of which the last materialised `c` or its inverse, with a symbol
of the trace to go by, is followed in the direction the symbol gives
exactly when the flags say so for this history. -/
theorem branch_direction_iff (hdis : Disassembles img fetch) {file : List UInt8} {c₀ : Conf}
    (h₀ : hookitStart opts img file = .ok c₀) {n : Nat} {a : Int} {insn : Insn} {c d : Cond}
    {yes : Bool}
    (hrep : replayed opts fetch ((step opts img)^[n] c₀) = some (a, insn))
    (hc : testsCond insn = some c)
    (hd : (csets (replayedStream opts fetch (trail (step opts img) c₀ n))).getLast? = some d)
    (hdc : d = c ∨ d = c.inverse)
    (hsym : ((step opts img)^[n] c₀).vars.trace.trace[((step opts img)^[n] c₀).vars.trace.idx]?
      = some (if yes then symY else symN)) :
    (FollowsTaken opts img ((step opts img)^[n] c₀) a insn ↔ (yes = true ↔ d = c))
      ↔ RightDirection insn (csets (replayedStream opts fetch (trail (step opts img) c₀ n))) d := by
  have hinit : c₀.vars.flags = Flags.init := by
    obtain ⟨-, symbols, rfl⟩ := hookitStart_ok h₀
    rfl
  have hflags := @flags_run opts img fetch hdis c₀ hinit n
  rw [foldl_after] at hflags
  have hclass : ExecutionTrace.classify (if yes then symY else symN) = if yes then .y else .n := by
    cases yes <;> decide
  have hnb := ExecutionTrace.nextBranch_symbol hsym
  rw [hclass] at hnb
  have hne : (if yes then NextBranch.y else .n) ≠ .e := by cases yes <;> decide
  rw [followsTaken_iff hdis hrep (testsCond_isCondBranch hc) hnb, takes, decide_eq_true_eq,
    flip_y_iff _ _ hne, hflags, ← flip_iff hc hd hdc]
  by_cases hdceq : d = c
  · cases yes <;> simp [hdceq]
  · cases yes <;> simp [hdceq]

/-- A CSET of `d`, then a branch on `c`. -/
def csetThen (d c : Cond) : List Insn :=
  [blTo 0x1000 0x800, .cset false d x0, .bCond c 2, .other 0, blTo 0x1010 0x900]

/-- After three turns the replay is at the branch. -/
def atBranch (d c : Cond) : Conf :=
  (step (sampleOpts 5) (imageOf 0x1000 (csetThen d c)))^[3] (sampleStart [symY])

theorem branch_direction_sample :
    FollowsTaken (sampleOpts 5) (imageOf 0x1000 (csetThen .eq .eq)) (atBranch .eq .eq) 0x1008
      (.bCond .eq 2) := by
  have h₀ : hookitStart (sampleOpts 5) (imageOf 0x1000 (csetThen .eq .eq)) [symY]
      = .ok (sampleStart [symY]) := rfl
  have hrep : replayed (sampleOpts 5) (programAt 0x1000 (csetThen .eq .eq)) (atBranch .eq .eq)
      = some (0x1008, .bCond .eq 2) := by decide +kernel
  have hsym : (atBranch .eq .eq).vars.trace.trace[(atBranch .eq .eq).vars.trace.idx]?
      = some (if true then symY else symN) := by decide +kernel
  have htests : testsCond (.bCond .eq 2) = some .eq := rfl
  have hiff := branch_direction_iff (imageOf_disassembles 0x1000 (csetThen .eq .eq)) h₀ hrep htests
    (by decide +kernel) (Or.inl rfl) hsym
  refine (hiff.mpr (Or.inr ?_)).mpr (iff_of_true rfl rfl)
  decide +kernel

/-- With the trace `"y"`, a CSET of ge and a branch on ge: the condition
held, and the branch is not followed. -/
theorem bge_not_followed :
    replayed (sampleOpts 5) (programAt 0x1000 (csetThen .ge .ge)) (atBranch .ge .ge)
        = some (0x1008, .bCond .ge 2)
      ∧ csets (replayedStream (sampleOpts 5) (programAt 0x1000 (csetThen .ge .ge))
          (trail (step (sampleOpts 5) (imageOf 0x1000 (csetThen .ge .ge))) (sampleStart [symY]) 3))
        = [.ge]
      ∧ (atBranch .ge .ge).vars.trace = ⟨0, [symY]⟩
      ∧ ¬ (FollowsTaken (sampleOpts 5) (imageOf 0x1000 (csetThen .ge .ge)) (atBranch .ge .ge)
            0x1008 (.bCond .ge 2)
          ↔ (true = true ↔ Cond.ge = .ge)) := by
  refine ⟨by decide +kernel, by decide +kernel, by decide +kernel, ?_⟩
  intro hiff
  obtain ⟨t, ht⟩ := hiff.mpr (iff_of_true rfl rfl)
  have hbefore : (atBranch .ge .ge).vars.ofd = [.start] := by decide +kernel
  have hafter : (step (sampleOpts 5) (imageOf 0x1000 (csetThen .ge .ge))
      (atBranch .ge .ge)).vars.ofd = [.start, .b 0x1008 none] := by decide +kernel
  rw [hbefore, hafter] at ht
  cases ht

end Ve

end Oat
