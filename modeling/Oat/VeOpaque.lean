import Oat.VeTransfer

/-!
# Library code and the replay

What lies below the text is library code. `SkipsLibrary` says of a turn
that it replays nothing there, and that a transfer to there comes back:
a BL at the next instruction, a B at the return address of the pending
call. `handle_branch_with_link` tests its target for this, and
`handle_branch` does not: it takes the branch, and the call stays
pending. `StaysInText` is the condition on the turns under which all of
it holds (`library_skipped`). The invariant is `Inside`: whatever the
loops look at next, they come to the text before they come to an
instruction.
-/

namespace Oat

namespace Ve

open A64

variable (opts : Opts) (img : Image) (fetch : Int → Option Insn)

/-! ## A turn that leaves the text -/

/-- The replay goes on at `r` with this stack, or ends because `r` is past
the end. -/
def Resumes (r : Int) (stack : List Int) (c : Conf) : Prop :=
  c.vars.stack = stack
    ∧ (c.mode = .scan r ∨ (c.mode = .outer ∧ c.vars.currentAddress = r)
      ∨ (c.mode = .finished ∧ (opts.textEnd ≤ r ∨ opts.loadAddress + img.size ≤ r)))

structure SkipsLibrary (c : Conf) : Prop where
  inside : ∀ g insn, replayed opts fetch c = some (g, insn) → opts.textStart ≤ g
  bl : ∀ g imm26, replayed opts fetch c = some (g, .bl imm26) → target g imm26 < opts.textStart →
    Resumes opts img (g + 4) c.vars.stack (step opts img c)
  b : ∀ g imm26, replayed opts fetch c = some (g, .b imm26) → target g imm26 < opts.textStart →
    ∀ r stack, c.vars.stack = r :: stack → Resumes opts img r stack (step opts img c)

/-! ## The condition -/

/-- From `t` up to the text there is no instruction, or an omitted one. -/
def Blank (t : Int) : Prop :=
  ∀ k : Nat, t + 4 * k < opts.textStart → fetch (t + 4 * k) = none ∨ t + 4 * k ∈ opts.omitAddresses

/-- A branch to `t` replays nothing below the text. -/
def Landing (t : Int) : Prop :=
  t < opts.textStart → t < opts.loadAddress ∨ fetch t = none ∨ Blank opts fetch t

instance (t : Int) : Decidable (Blank opts fetch t) :=
  decidable_of_iff (∀ k < (opts.textStart - t).toNat, t + 4 * (k : Int) < opts.textStart →
      fetch (t + 4 * k) = none ∨ t + 4 * (k : Int) ∈ opts.omitAddresses)
    ⟨fun h k hk => h k (by omega) hk, fun h k _ hk => h k hk⟩

instance (t : Int) : Decidable (Landing opts fetch t) := inferInstanceAs (Decidable (_ → _))

/-- Of the instruction a turn is about to replay: a BL to a library is
seen as one, a B to a library comes with no call pending, and no branch
that is taken lands on library code. -/
def keepsOut (s : Replay) (g : Int) : Insn → Bool
  | .bl imm26 => target g imm26 < opts.textStart →
      target g imm26 = opts.cfvInit ∨ target g imm26 = opts.cfvQuote
        ∨ blCalls opts g imm26 = false
  | .b imm26 => target g imm26 < opts.textStart →
      s.stack = [] ∧ (target g imm26 < opts.textEnd → Landing opts fetch (target g imm26))
  | insn => insn.isCondBranch = true → ∀ r ∈ s.trace.nextBranch.toOption,
      takes insn s.flags r.1 = true → Landing opts fetch (seenTarget g insn)

def StaysInText (c : Conf) : Prop :=
  ∀ p ∈ replayed opts fetch c, keepsOut opts fetch c.vars p.1 p.2 = true

instance (c : Conf) : Decidable (StaysInText opts fetch c) :=
  inferInstanceAs (Decidable (∀ p ∈ replayed opts fetch c, _))

/-! ## The invariant -/

/-- The `while` loop may begin at `a`: what is there is blank, or is not
disassembled, and then the loop goes back to the loop variable. -/
def Quiet (a : Int) (i : Option Int) : Prop :=
  Blank opts fetch a ∨ (fetch a = none ∧ ∃ j, i = some j ∧ a < j)

structure Inside (c : Conf) : Prop where
  stack : ∀ r ∈ c.vars.stack, opts.textStart ≤ r
  i : ∀ j, c.vars.i = some j → Blank opts fetch j
  mode : match c.mode with
    | .outer => Quiet opts fetch c.vars.currentAddress c.vars.i
    | .scan g => c.vars.taken = false ∧ Quiet opts fetch c.vars.currentAddress c.vars.i
        ∧ (Blank opts fetch g ∧ Blank opts fetch c.vars.currentAddress
          ∨ g = c.vars.currentAddress)
    | _ => True

variable {opts img fetch}

theorem blank_of_le {t : Int} (h : opts.textStart ≤ t) : Blank opts fetch t := by
  intro k hk
  omega

theorem Blank.next {t : Int} (h : Blank opts fetch t) : Blank opts fetch (t + 4) := by
  intro k hk
  have hk' := h (k + 1)
  rw [show t + 4 * ((k + 1 : Nat) : Int) = t + 4 + 4 * k by omega] at hk'
  exact hk' hk

/-- What is not omitted in a blank stretch lies in the text. -/
theorem Blank.le {t : Int} {insn : Insn} (h : Blank opts fetch t) (hfetch : fetch t = some insn)
    (homit : t ∉ opts.omitAddresses) : opts.textStart ≤ t := by
  by_contra hlt
  have hhere := h 0 (by omega)
  rw [show t + 4 * ((0 : Nat) : Int) = t by omega, hfetch] at hhere
  rcases hhere with hnone | hmem
  · cases hnone
  · exact homit hmem

theorem Landing.quiet {g t : Int} (h : Landing opts fetch t) (hg : opts.textStart ≤ g) :
    t < opts.loadAddress ∨ Quiet opts fetch t (some g) := by
  by_cases ht : opts.textStart ≤ t
  · exact Or.inr (Or.inl (blank_of_le ht))
  · have hlt : t < opts.textStart := by omega
    rcases h hlt with hload | hnone | hblank
    · exact Or.inl hload
    · exact Or.inr (Or.inr ⟨hnone, g, rfl, by omega⟩)
    · exact Or.inr (Or.inl hblank)

/-! ## The end of the `for` loop -/

theorem nextAddress_quiet {s : Replay} (hnext : s.taken = false)
    (hi : ∀ j, s.i = some j → Blank opts fetch j) (hbound : s.i ≠ none)
    (hcurrent : Quiet opts fetch s.currentAddress s.i) : Blank opts fetch (nextAddress s) := by
  obtain ⟨j, hj⟩ := Option.ne_none_iff_exists'.mp hbound
  simp only [nextAddress, hnext, hj, Option.getD_some, Bool.false_eq_true, if_false]
  split
  · exact hi j hj
  · rename_i hle
    rcases hcurrent with hblank | ⟨-, j', hj', hlt⟩
    · exact hblank.next
    · obtain rfl : j = j' := Option.some.inj (hj.symm.trans hj')
      exact absurd hlt hle

/-- The next turn of the `while` loop begins quietly, unless it ends. -/
theorem afterFor_inside {s : Replay} (hstack : ∀ r ∈ s.stack, opts.textStart ≤ r)
    (hi : ∀ j, s.i = some j → Blank opts fetch j)
    (hnext : s.taken = false ∧ Quiet opts fetch s.currentAddress s.i
      ∨ s.taken = true ∧ (s.targetAddress < opts.loadAddress
        ∨ Quiet opts fetch s.targetAddress s.i)) :
    Inside opts fetch (afterFor opts img s) := by
  unfold afterFor
  split
  · exact ⟨hstack, hi, trivial⟩
  · rename_i hbound
    have hquiet : nextAddress s < opts.loadAddress ∨ Quiet opts fetch (nextAddress s) s.i := by
      rcases hnext with ⟨htaken, hcurrent⟩ | ⟨htaken, htarget⟩
      · have hsome : s.i ≠ none := fun hnone => hbound ⟨htaken, hnone⟩
        exact Or.inr (Or.inl (nextAddress_quiet htaken hi hsome hcurrent))
      · simpa only [nextAddress, htaken, if_true] using htarget
    refine ⟨hstack, hi, ?_⟩
    dsimp only
    split
    · rename_i hmode
      split at hmode
      · cases hmode
      · split at hmode
        · cases hmode
        · rename_i hload
          exact hquiet.resolve_left hload
    · rename_i hmode
      repeat' split at hmode
      all_goals cases hmode
    · trivial

/-! ## One turn -/

/-- Under the condition, whatever leaves the `for` loop lands where
nothing is replayed below the text. -/
theorem BreaksOff.lands {s : Replay} {g t : Int} {insn : Insn} {stack : List Int}
    (h : BreaksOff opts g s insn t stack) (hg : opts.textStart ≤ g)
    (hstack : ∀ r ∈ s.stack, opts.textStart ≤ r)
    (hkeeps : keepsOut opts fetch s g insn = true) :
    (t < opts.loadAddress ∨ Quiet opts fetch t (some g)) ∧ ∀ r ∈ stack, opts.textStart ≤ r := by
  cases h with
  | b imm26 hend =>
      have hland : Landing opts fetch (target g imm26) := fun hlt =>
        (of_decide_eq_true hkeeps hlt).2 hend hlt
      exact ⟨hland.quiet hg, hstack⟩
  | bl imm26 hcalls =>
      have hle : opts.textStart ≤ blTarget g imm26 := (of_decide_eq_true hcalls).2.2
      refine ⟨Or.inr (Or.inl (blank_of_le hle)), fun r hr => ?_⟩
      rcases List.mem_cons.mp hr with rfl | hr
      · omega
      · exact hstack r hr
  | ret rn hpop =>
      rw [hpop] at hstack
      obtain ⟨ht, hrest⟩ := List.forall_mem_cons.mp hstack
      exact ⟨Or.inr (Or.inl (blank_of_le ht)), hrest⟩
  | @cond _ nb trace hc hnb htakes =>
      have hland : Landing opts fetch (seenTarget g insn) := by
        have hr : (nb, trace) ∈ s.trace.nextBranch.toOption := by rw [hnb]; rfl
        cases insn <;> first | exact of_decide_eq_true hkeeps hc _ hr htakes | cases hc
      exact ⟨hland.quiet hg, hstack⟩

theorem Inside.blank {c : Conf} {g : Int} (h : Inside opts fetch c) (hmode : c.mode = .scan g)
    (hfetch : (fetch g).isSome = true) :
    Blank opts fetch g ∧ Blank opts fetch c.vars.currentAddress := by
  have hscan := h.mode
  simp only [hmode] at hscan
  obtain ⟨-, hcurrent, hboth | rfl⟩ := hscan
  · exact hboth
  · rcases hcurrent with hblank | ⟨hnone, -⟩
    · exact ⟨hblank, hblank⟩
    · rw [hnone] at hfetch
      cases hfetch

theorem Inside.taken {c : Conf} {g : Int} (h : Inside opts fetch c) (hmode : c.mode = .scan g) :
    c.vars.taken = false := by
  have hscan := h.mode
  simp only [hmode] at hscan
  exact hscan.1

/-- The instruction a turn replays lies in the text. -/
theorem Inside.dispatched_le {c : Conf} {g : Int} {insn : Insn} (h : Inside opts fetch c)
    (hd : dispatched opts fetch c = some (g, insn)) : opts.textStart ≤ g := by
  obtain ⟨hmode, -, homit, hfetch⟩ := dispatched_mode hd
  exact (h.blank hmode (by rw [hfetch]; rfl)).1.le hfetch homit

variable (img) in
/-- What is past `g` in the `for` loop, with `g` as the loop variable. -/
theorem inside_past {c : Conf} {s : Replay} {g : Int} (hstack : ∀ r ∈ s.stack, opts.textStart ≤ r)
    (hi : s.i = some g) (hg : Blank opts fetch g) (hcurrent : Blank opts fetch s.currentAddress)
    (htaken : s.taken = false) (hc : c = ⟨s, .scan (g + 4)⟩ ∨ c = afterFor opts img s) :
    Inside opts fetch c := by
  have hblank : ∀ j, s.i = some j → Blank opts fetch j := by
    intro j hj
    obtain rfl := Option.some.inj (hi.symm.trans hj)
    exact hg
  rcases hc with rfl | rfl
  · exact ⟨hstack, hblank, htaken, Or.inl hcurrent, Or.inl ⟨hg.next, hcurrent⟩⟩
  · exact afterFor_inside hstack hblank (Or.inl ⟨htaken, Or.inl hcurrent⟩)

theorem inside_skipped (hdis : Disassembles img fetch) {c : Conf} {g : Int}
    (h : Inside opts fetch c) (hmode : c.mode = .scan g) (hd : dispatched opts fetch c = none) :
    Inside opts fetch (step opts img c) := by
  have htaken := h.taken hmode
  have hscan := h.mode
  simp only [hmode] at hscan
  rcases step_skipped hdis hmode hd with ⟨-, hstep⟩ | ⟨hsome, -, hstep⟩ | ⟨hsome, -, hstep⟩
  · rw [hstep]
    exact afterFor_inside h.stack h.i (Or.inl ⟨htaken, hscan.2.1⟩)
  · obtain ⟨hg, hcurrent⟩ := h.blank hmode hsome
    exact inside_past img (s := c.vars.move (some g) c.vars.prevAddress) h.stack rfl hg
      hcurrent htaken (Or.inl hstep)
  · obtain ⟨hg, hcurrent⟩ := h.blank hmode hsome
    refine inside_past img (s := c.vars.enter g) h.stack rfl hg hcurrent htaken ?_
    split at hstep
    · exact Or.inr hstep
    · exact Or.inl hstep

theorem inside_dispatched (hdis : Disassembles img fetch) {c : Conf} {g : Int} {insn : Insn}
    (h : Inside opts fetch c) (hd : dispatched opts fetch c = some (g, insn))
    (hkeeps : StaysInText opts fetch c) : Inside opts fetch (step opts img c) := by
  obtain ⟨hmode, -, -, hfetch⟩ := dispatched_mode hd
  have htaken := h.taken hmode
  obtain ⟨hg, hcurrent⟩ := h.blank hmode (by rw [hfetch]; rfl)
  rcases step_transfer hdis hd htaken with ⟨err, -, hstep⟩ | ⟨-, s, -, hstays, hleaves⟩
  · rw [hstep]
    exact ⟨h.stack, h.i, trivial⟩
  · have hi : s.i = some g := hstays.i
    have hcurrent' : Blank opts fetch s.currentAddress := hstays.current ▸ hcurrent
    cases htransfer : transfer opts g insn c.vars with
    | none =>
        rw [htransfer] at hleaves
        obtain ⟨htaken', hstack, hstep⟩ := hleaves
        refine inside_past img (hstack ▸ h.stack) hi hg hcurrent' htaken' ?_
        exact hstep.imp_right And.right
    | some p =>
        obtain ⟨t, stack⟩ := p
        rw [htransfer] at hleaves
        obtain ⟨htaken', rfl, rfl, hstep⟩ := hleaves
        obtain ⟨hon, hbreaks⟩ := transfer_eq_some htransfer
        have hmem : (g, insn) ∈ replayed opts fetch c := replayed_eq_some.mpr ⟨hon, hd⟩
        obtain ⟨hland, hstack⟩ := hbreaks.lands (h.dispatched_le hd) h.stack (hkeeps _ hmem)
        rw [hstep]
        refine afterFor_inside hstack ?_ (Or.inr ⟨htaken', hi ▸ hland⟩)
        intro j hj
        obtain rfl := Option.some.inj (hi.symm.trans hj)
        exact hg

/-- **Step**: under the condition a turn stays inside. -/
theorem inside_step (hdis : Disassembles img fetch) {c : Conf} (h : Inside opts fetch c)
    (hkeeps : StaysInText opts fetch c) : Inside opts fetch (step opts img c) := by
  cases hmode : c.mode with
  | outer =>
      have hquiet := h.mode
      simp only [hmode] at hquiet
      simp only [step, hmode]
      split
      · exact ⟨h.stack, h.i, trivial⟩
      · exact ⟨h.stack, h.i, rfl, hquiet, Or.inr rfl⟩
  | scan g =>
      cases hd : dispatched opts fetch c with
      | none => exact inside_skipped hdis h hmode hd
      | some p =>
          obtain ⟨g', insn⟩ := p
          exact inside_dispatched hdis h hd hkeeps
  | finished =>
      rw [step_finished hmode]
      exact h
  | raised err =>
      rw [step_raised hmode]
      exact h

/-! ## The run -/

/-- A call of a library resumes at the next instruction. -/
theorem bl_resumes (hdis : Disassembles img fetch) {c : Conf} {g : Int} {imm26 : BitVec 26}
    (htaken : c.vars.taken = false) (hd : dispatched opts fetch c = some (g, .bl imm26))
    (hskips : target g imm26 = opts.cfvInit ∨ target g imm26 = opts.cfvQuote
      ∨ blCalls opts g imm26 = false) :
    Resumes opts img (g + 4) c.vars.stack (step opts img c) := by
  have hon : transfer opts g (.bl imm26) c.vars = none := by
    rcases hskips with h | h | h <;> simp [transfer, h]
  rcases step_transfer hdis hd htaken with ⟨err, herr, -⟩ | ⟨-, s, -, hstays, hleaves⟩
  · rw [dispatch_bl] at herr
    cases herr
  · rw [hon] at hleaves
    obtain ⟨htaken', hstack, hstep | ⟨hend, hstep⟩⟩ := hleaves
    · rw [hstep]
      exact ⟨hstack, Or.inl rfl⟩
    · rw [hstep]
      exact ⟨(afterFor_keeps s).stack.trans hstack,
        Or.inr (Or.inr ⟨afterFor_past htaken' hstays.i hend, Or.inl (by omega)⟩)⟩

theorem Inside.skipsLibrary (hdis : Disassembles img fetch) {c : Conf} (h : Inside opts fetch c)
    (hkeeps : StaysInText opts fetch c) : SkipsLibrary opts img fetch c := by
  refine ⟨?_, ?_, ?_⟩
  · intro g insn hrep
    exact h.dispatched_le (replayed_eq_some.mp hrep).2
  · intro g imm26 hrep hlt
    have hd := (replayed_eq_some.mp hrep).2
    exact bl_resumes hdis (h.taken (dispatched_mode hd).1) hd
      (of_decide_eq_true (hkeeps _ hrep) hlt)
  · intro g imm26 hrep hlt r stack hstack
    -- the condition leaves no call pending
    have hempty : c.vars.stack = [] := (of_decide_eq_true (hkeeps _ hrep) hlt).1
    rw [hempty] at hstack
    cases hstack

/-- **Run**: library code is skipped in every turn, if every turn stays
in the text. -/
theorem library_skipped (hdis : Disassembles img fetch) {file : List UInt8} {c₀ : Conf}
    (h₀ : hookitStart opts img file = .ok c₀)
    (hkeeps : ∀ n, StaysInText opts fetch ((step opts img)^[n] c₀)) (n : Nat) :
    SkipsLibrary opts img fetch ((step opts img)^[n] c₀) := by
  obtain ⟨-, symbols, rfl⟩ := hookitStart_ok h₀
  have hinside : ∀ n, Inside opts fetch
      ((step opts img)^[n] ⟨Replay.init ⟨0, symbols⟩ opts.textStart, .outer⟩) := by
    intro n
    induction n with
    | zero => exact ⟨nofun, nofun, Or.inl (blank_of_le (Int.le_refl _))⟩
    | succ n ih =>
        rw [Function.iterate_succ_apply']
        exact inside_step hdis ih (hkeeps n)
  exact (hinside n).skipsLibrary hdis (hkeeps n)

/-- Two library calls, of which one is made by a function. -/
def libraryCalls : List Insn :=
  [blTo 0x1000 0x800, blTo 0x1004 0x700, blTo 0x1008 0x1010, blTo 0x100c 0x900,
    blTo 0x1010 0x704, .ret lr]

theorem library_skipped_calls : SkipsLibrary (sampleOpts 6) (imageOf 0x1000 libraryCalls)
    (programAt 0x1000 libraryCalls)
    ((step (sampleOpts 6) (imageOf 0x1000 libraryCalls))^[5] (sampleStart [symY])) := by
  have h₀ : hookitStart (sampleOpts 6) (imageOf 0x1000 libraryCalls) [symY]
      = .ok (sampleStart [symY]) := rfl
  refine library_skipped (imageOf_disassembles 0x1000 libraryCalls) h₀
    (run_settles (N := 16) (by decide +kernel) ?_) 5
  decide +kernel

/-! ## A tail call of a library -/

def tailCallOpts : Opts := ⟨0xff8, 0x1000, 0x1010, 0x800, 0x900, []⟩

def toStub : BitVec 26 := BitVec.ofInt 26 ((0xff8 - 0x100c) / 4)

/-- A linkage stub before the text, and a function that ends in a branch
to it. -/
def tailCall : List Insn :=
  [.other 0, .br ⟨17, by decide⟩, blTo 0x1000 0x800, blTo 0x1004 0x100c, blTo 0x1008 0x900,
    .b toStub]

/-- The branch leaves the call pending, and the stub is replayed. -/
theorem tailCall_not_skipped :
    hookitStart tailCallOpts (imageOf 0xff8 tailCall) [symY] = .ok (sampleStart [symY])
      ∧ ¬ SkipsLibrary tailCallOpts (imageOf 0xff8 tailCall) (programAt 0xff8 tailCall)
        ((step tailCallOpts (imageOf 0xff8 tailCall))^[4] (sampleStart [symY]))
      ∧ ¬ SkipsLibrary tailCallOpts (imageOf 0xff8 tailCall) (programAt 0xff8 tailCall)
        ((step tailCallOpts (imageOf 0xff8 tailCall))^[6] (sampleStart [symY])) := by
  refine ⟨rfl, ?_, ?_⟩
  · intro h
    have hstack := (h.b 0x100c toStub (by decide +kernel) (by decide +kernel) 0x1008 []
      (by decide +kernel)).1
    revert hstack
    decide +kernel
  · intro h
    have hinside := h.inside 0xff8 (.other 0) (by decide +kernel)
    revert hinside
    decide +kernel

end Ve

end Oat
