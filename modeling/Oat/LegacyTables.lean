import Mathlib.Data.List.Dedup
import Mathlib.Data.List.Sort
import Mathlib.Order.Bounds.Basic
import Oat.LegacyText

/-!
# The branch table and the loop table

From the table that `hookit` returns, `get_branches` takes the direct
branches and calls. `get_loops` takes the branches that go back: their
destinations are the entries of the loops, and a loop is left behind the
last of the branches to its entry (`hookit_loops`).
-/

namespace Oat

namespace Legacy

open Ve

/-! ## The tables -/

def getBranches (cfs : List Cfs) : List Cfs := cfs.filter fun c => c.type = .b || c.type = .bl

/-- `max` of a list; that of an empty one raises. -/
def pyMax (xs : List Int) : Except PyError Int :=
  match xs.max? with
  | some x => .ok x
  | none => .error .valueError

def backBranches (cfs : List Cfs) : List Cfs := cfs.filter fun c => c.type = .b && c.dst < c.src

/-- A set of the members of `xs`, in the order in which it is gone through. -/
structure SetOrder (xs es : List Int) : Prop where
  nodup : es.Nodup
  mem_iff : ∀ e, e ∈ es ↔ e ∈ xs

/-- `get_loops`; `loopEntries` is its set. -/
def getLoops (cfs : List Cfs) (loopEntries : List Int) : Except PyError (List (Int × Int)) := do
  let branches := backBranches cfs
  let loops ← loopEntries.mapM fun entry => do
    let last ← pyMax ((branches.filter fun b => b.dst = entry).map fun b => b.src)
    pure (entry, 4 + last)
  pure (loops.insertionSort fun x y => x.1 ≤ y.1)

/-! ## What is in them -/

theorem pyMax_eq_ok_iff {xs : List Int} {m : Int} :
    pyMax xs = .ok m ↔ IsGreatest {x | x ∈ xs} m := by
  have hmax : xs.max? = some m ↔ m ∈ xs ∧ ∀ b ∈ xs, b ≤ m := List.max?_eq_some_iff
  rw [pyMax, IsGreatest, mem_upperBounds]
  refine Iff.trans ?_ hmax
  cases xs.max? with
  | none => exact iff_of_false (fun h => by cases h) fun h => by cases h
  | some x => exact ⟨fun h => congrArg some (Except.ok.inj h), fun h => congrArg _ (Option.some.inj h)⟩

theorem mapM_eq_map {α β ε : Type} {f : α → Except ε β} {g : α → β} {xs : List α}
    (h : ∀ x ∈ xs, f x = .ok (g x)) : xs.mapM f = .ok (xs.map g) := by
  induction xs with
  | nil => rfl
  | cons x xs ih =>
      rw [List.mapM_cons, h x List.mem_cons_self, ih fun y hy => h y (List.mem_cons_of_mem _ hy)]
      rfl

section Loops

variable {cfs : List Cfs} {entry exit : Int} {es : List Int}

/-- A branch of the table from `src` back to `entry`. -/
def Back (cfs : List Cfs) (src entry : Int) : Prop :=
  ∃ c ∈ cfs, c.type = .b ∧ c.src = src ∧ c.dst = entry ∧ entry < src

theorem mem_backSources {src : Int} :
    src ∈ ((backBranches cfs).filter fun b => b.dst = entry).map (fun b => b.src) ↔
      Back cfs src entry := by
  simp only [backBranches, List.mem_map, List.mem_filter, Bool.and_eq_true, decide_eq_true_eq, Back]
  constructor
  · rintro ⟨c, ⟨⟨hc, htype, hlt⟩, rfl⟩, rfl⟩
    exact ⟨c, hc, htype, rfl, rfl, hlt⟩
  · rintro ⟨c, hc, htype, rfl, rfl, hlt⟩
    exact ⟨c, ⟨⟨hc, htype, hlt⟩, rfl⟩, rfl⟩

theorem mem_backEntries :
    entry ∈ (backBranches cfs).map (fun b => b.dst) ↔ ∃ src, Back cfs src entry := by
  simp only [backBranches, List.mem_map, List.mem_filter, Bool.and_eq_true, decide_eq_true_eq, Back]
  constructor
  · rintro ⟨c, ⟨hc, htype, hlt⟩, rfl⟩
    exact ⟨c.src, c, hc, htype, rfl, rfl, hlt⟩
  · rintro ⟨-, c, hc, htype, rfl, rfl, hlt⟩
    exact ⟨c, ⟨hc, htype, hlt⟩, rfl⟩

/-- The last branch back to `entry`. -/
def lastBack (cfs : List Cfs) (entry : Int) : Int :=
  ((((backBranches cfs).filter fun b => b.dst = entry).map fun b => b.src).max?).getD 0

theorem pyMax_lastBack (h : ∃ src, Back cfs src entry) :
    pyMax (((backBranches cfs).filter fun b => b.dst = entry).map fun b => b.src) =
      .ok (lastBack cfs entry) := by
  obtain ⟨src, hsrc⟩ := h
  obtain ⟨m, hm⟩ := Option.isSome_iff_exists.mp
    (List.isSome_max?_of_mem (mem_backSources.mpr hsrc))
  rw [pyMax, lastBack, hm, Option.getD_some]

theorem isGreatest_lastBack (h : ∃ src, Back cfs src entry) :
    IsGreatest {src | Back cfs src entry} (lastBack cfs entry) := by
  have hmax := pyMax_eq_ok_iff.mp (pyMax_lastBack h)
  simpa only [mem_backSources] using hmax

/-- Nothing raises: the destinations are those of branches. -/
theorem getLoops_eq (hes : SetOrder ((backBranches cfs).map fun b => b.dst) es) :
    getLoops cfs es = .ok ((es.map fun e => (e, 4 + lastBack cfs e)).insertionSort
      fun x y => x.1 ≤ y.1) := by
  have hmap : (es.mapM fun entry => do
      let last ← pyMax (((backBranches cfs).filter fun b => b.dst = entry).map fun b => b.src)
      pure (entry, 4 + last)) = Except.ok (es.map fun e => (e, 4 + lastBack cfs e)) :=
    mapM_eq_map fun e he => by
      rw [pyMax_lastBack (mem_backEntries.mp ((hes.mem_iff e).mp he))]
      rfl
  simp only [getLoops]
  rw [hmap]
  rfl

theorem getLoops_spec (hes : SetOrder ((backBranches cfs).map fun b => b.dst) es) :
    ∃ loops, getLoops cfs es = .ok loops ∧ loops.Pairwise (fun l l' => l.1 < l'.1) ∧
      ∀ entry exit, (entry, exit) ∈ loops ↔ IsGreatest {src | Back cfs src entry} (exit - 4) := by
  refine ⟨_, getLoops_eq hes, ?_, fun entry exit => ?_⟩
  · have hperm := List.perm_insertionSort (fun x y : Int × Int => x.1 ≤ y.1)
      (es.map fun e => (e, 4 + lastBack cfs e))
    have hne : (es.map fun e => (e, 4 + lastBack cfs e)).Pairwise fun l l' => l.1 ≠ l'.1 :=
      List.pairwise_map.mpr hes.nodup
    have hne' := (hperm.pairwise_iff fun h => Ne.symm h).mpr hne
    have hle := List.pairwise_insertionSort (fun x y : Int × Int => x.1 ≤ y.1)
      (es.map fun e => (e, 4 + lastBack cfs e))
    exact (hle.and hne').imp fun ⟨hle, hne⟩ => lt_of_le_of_ne hle hne
  · rw [List.mem_insertionSort, List.mem_map]
    constructor
    · rintro ⟨e, he, heq⟩
      obtain ⟨rfl, rfl⟩ := Prod.ext_iff.mp heq
      have hback := mem_backEntries.mp ((hes.mem_iff _).mp he)
      rw [Int.add_comm, Int.add_sub_cancel]
      exact isGreatest_lastBack hback
    · intro hgreatest
      have hback : ∃ src, Back cfs src entry := ⟨_, hgreatest.1⟩
      have hlast : exit - 4 = lastBack cfs entry := hgreatest.unique (isGreatest_lastBack hback)
      refine ⟨entry, (hes.mem_iff entry).mpr (mem_backEntries.mpr hback), Prod.ext rfl ?_⟩
      show 4 + lastBack cfs entry = exit
      omega

example : getLoops [⟨.b, [], 4, 0⟩, ⟨.b, [], 12, 0⟩, ⟨.bl, [], 16, 0⟩, ⟨.b, [], 8, 4⟩] [4, 0] =
    .ok [(0, 16), (4, 12)] := rfl

theorem SetOrder.dedup (xs : List Int) : SetOrder xs xs.dedup :=
  ⟨List.nodup_dedup xs, fun _ => List.mem_dedup⟩

/-- The order of the set does not show. -/
theorem getLoops_order {es' : List Int}
    (hes : SetOrder ((backBranches cfs).map fun b => b.dst) es)
    (hes' : SetOrder ((backBranches cfs).map fun b => b.dst) es') :
    getLoops cfs es = getLoops cfs es' := by
  obtain ⟨loops, hloops, hpair, hmem⟩ := getLoops_spec hes
  obtain ⟨loops', hloops', hpair', hmem'⟩ := getLoops_spec hes'
  have : Std.Irrefl fun l l' : Int × Int => l.1 < l'.1 := ⟨fun l => lt_irrefl l.1⟩
  have : Std.Antisymm fun l l' : Int × Int => l.1 < l'.1 :=
    ⟨fun _ _ h h' => absurd h' (lt_asymm h)⟩
  rw [hloops, hloops', hpair.eq_of_mem_iff hpair' fun l => (hmem l.1 l.2).trans (hmem' l.1 l.2).symm]

end Loops

/-! ## The tables of a run -/

section Run

variable {opts : Opts} {md : Disasm} {file : List UInt8}

/-- A form of branches and calls looks at the instruction's address. -/
theorem src_of_form {i : CsInsn} {f : Form} (hf : formOf i = some f)
    (htype : f.type = .b ∨ f.type = .bl) {src dst : Int} (h : f.srcDst.of i = .ok (src, dst)) :
    src = i.address := by
  have hall : forms.all (fun f => (f.type != .b && f.type != .bl) || f.srcDst != .zero) = true := rfl
  have hdst := List.all_eq_true.mp hall f (List.mem_of_find?_eq_some hf)
  have hne : f.srcDst ≠ .zero := by
    rintro heq
    rw [heq] at hdst
    rcases htype with htype | htype <;>
      · rw [htype] at hdst
        cases hdst
  have key : ∀ {target : Except PyError Int},
      target.map (i.address, ·) = .ok (src, dst) → src = i.address := by
    intro target heq
    cases target with
    | error e => cases heq
    | ok t => exact (congrArg Prod.fst (Except.ok.inj heq)).symm
  cases hdst' : f.srcDst with
  | zero => exact absurd hdst' hne
  | branchTarget => rw [hdst'] at h; exact key h
  | condBranchTarget => rw [hdst'] at h; exact key h
  | tbTarget => rw [hdst'] at h; exact key h

theorem statement_src {a : Int} {c : Cfs} (h : statement opts md file a = some c)
    (htype : c.type = .b ∨ c.type = .bl) : c.src = a := by
  obtain ⟨i, hi, h⟩ := Option.bind_eq_some_iff.mp h
  split at h
  · cases h
  obtain ⟨f, hf, h⟩ := Option.bind_eq_some_iff.mp h
  split at h
  · cases h
  rename_i src dst hof
  cases h
  obtain ⟨-, haddr, -⟩ := insnAt_some hi
  exact (src_of_form hf htype hof).trans haddr

variable (opts md file) in
/-- The word at `a` is a branch that is hooked, and it goes back to `entry`. -/
def BranchesBack (a entry : Int) : Prop :=
  ∃ c, statement opts md file a = some c ∧ c.type = .b ∧ c.dst = entry ∧ entry < a

theorem back_iff {a entry : Int} :
    Back ((words opts md file).filterMap (statement opts md file)) a entry ↔
      a ∈ words opts md file ∧ BranchesBack opts md file a entry := by
  constructor
  · rintro ⟨c, hc, htype, rfl, rfl, hlt⟩
    obtain ⟨a, ha, hstmt⟩ := List.mem_filterMap.mp hc
    obtain rfl := statement_src hstmt (.inl htype)
    exact ⟨ha, c, hstmt, htype, rfl, hlt⟩
  · rintro ⟨ha, c, hstmt, htype, rfl, hlt⟩
    exact ⟨c, List.mem_filterMap.mpr ⟨a, ha, hstmt⟩, htype, statement_src hstmt (.inl htype), rfl, hlt⟩

/-- The branches and calls of a run's table are in the order of the words. -/
theorem getBranches_pairwise :
    (getBranches ((words opts md file).filterMap (statement opts md file))).Pairwise
      fun c c' => c.src + 4 ≤ c'.src := by
  have hpair : ((words opts md file).filterMap (statement opts md file)).Pairwise fun c c' =>
      (c.type = .b ∨ c.type = .bl) → (c'.type = .b ∨ c'.type = .bl) → c.src + 4 ≤ c'.src := by
    refine List.Pairwise.filterMap _ ?_ words_pairwise
    intro a a' hle c hc c' hc' htype htype'
    rw [statement_src hc htype, statement_src hc' htype']
    exact hle
  have hmem : ∀ c ∈ getBranches ((words opts md file).filterMap (statement opts md file)),
      c.type = .b ∨ c.type = .bl := by
    intro c hc
    simpa using (List.mem_filter.mp hc).2
  exact (hpair.sublist List.filter_sublist).imp_of_mem fun hc hc' h => h (hmem _ hc) (hmem _ hc')

/-- The tables that a run leads to. Each entry of the loop table is the
destination of hooked branches that go back, with the word after the last
of them; there is one for each, in their order. -/
theorem hookit_loops (hstart : 0 ≤ opts.textStart)
    (hfirst : (insnOf opts md file opts.textStart).isSome = true) :
    ∃ mm table loops, Returns opts md file mm table ∧
      (getBranches table).Pairwise (fun c c' => c.src + 4 ≤ c'.src) ∧
      (∀ c, c ∈ getBranches table ↔ ∃ a ∈ words opts md file,
        statement opts md file a = some c ∧ (c.type = .b ∨ c.type = .bl)) ∧
      (∀ es, SetOrder ((backBranches table).map fun b => b.dst) es →
        getLoops table es = .ok loops) ∧
      loops.Pairwise (fun l l' => l.1 < l'.1) ∧
      ∀ entry exit, (entry, exit) ∈ loops ↔
        IsGreatest {a | a ∈ words opts md file ∧ BranchesBack opts md file a entry} (exit - 4) := by
  let table := (words opts md file).filterMap (statement opts md file)
  have hset := SetOrder.dedup ((backBranches table).map fun b => b.dst)
  obtain ⟨loops, hloops, hpair, hmem⟩ := getLoops_spec hset
  refine ⟨_, table, loops, hookit_returns opts hstart hfirst, getBranches_pairwise, fun c => ?_,
    fun es hes => (getLoops_order hes hset).trans hloops, hpair, fun entry exit => ?_⟩
  · simp only [getBranches, List.mem_filter, Bool.or_eq_true, decide_eq_true_eq]
    constructor
    · rintro ⟨hc, htype⟩
      obtain ⟨a, ha, hstmt⟩ := List.mem_filterMap.mp hc
      exact ⟨a, ha, hstmt, htype⟩
    · rintro ⟨a, ha, hstmt, htype⟩
      exact ⟨List.mem_filterMap.mpr ⟨a, ha, hstmt⟩, htype⟩
  · rw [hmem entry exit]
    have hsame : {src | Back table src entry} =
        {a | a ∈ words opts md file ∧ BranchesBack opts md file a entry} :=
      Set.ext fun a => back_iff
    rw [hsame]

end Run

/-! ### A branch to the word before -/

def branchBack : Disasm where
  decode word a :=
    if word = [0xff, 0xff, 0xff, 0x17] then some ⟨.b, a, "b", [], word⟩
    else some ⟨.other, a, "nop", [], word⟩
  address_eq word a i h := by
    split at h
    · rw [← Option.some.inj h]
    · rw [← Option.some.inj h]
  bytes_eq word a i h := by
    split at h
    · rw [← Option.some.inj h]
    · rw [← Option.some.inj h]

def nopBranch : List UInt8 := [0x1f, 0x20, 0x03, 0xd5, 0xff, 0xff, 0xff, 0x17]

theorem hookit_loops_branch :
    ∃ mm table loops, Returns (textOf 8) branchBack nopBranch mm table ∧
      (getBranches table).Pairwise (fun c c' => c.src + 4 ≤ c'.src) ∧
      (∀ c, c ∈ getBranches table ↔ ∃ a ∈ words (textOf 8) branchBack nopBranch,
        statement (textOf 8) branchBack nopBranch a = some c ∧ (c.type = .b ∨ c.type = .bl)) ∧
      (∀ es, SetOrder ((backBranches table).map fun b => b.dst) es →
        getLoops table es = .ok loops) ∧
      loops.Pairwise (fun l l' => l.1 < l'.1) ∧
      ∀ entry exit, (entry, exit) ∈ loops ↔
        IsGreatest {a | a ∈ words (textOf 8) branchBack nopBranch ∧
          BranchesBack (textOf 8) branchBack nopBranch a entry} (exit - 4) :=
  hookit_loops (Int.le_refl 0) rfl

end Legacy

end Oat
