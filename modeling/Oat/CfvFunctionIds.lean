import Mathlib.Data.Multiset.AddSub
import Oat.CfvLoopHints

/-!
# The function ids of the hint passes

`CollectLoopHints`, `CollectICallHints` and `CollectIBranchHints` number
the functions in the same way, each with an `fMap` and an `FID` of its
own: `HintPass` is what the three have in common. The ids of a visit are
read off the function it leaves, as those it did not have before.

The test for a function met before is the wrong way round. Every first
visit gets 0 and every further one a number of its own, so the ids are
right only where they hardly matter (`hint_ids_iff`).
-/

namespace Oat

namespace CfvFunctionIds

open CfvHints (FunctionMap)

/-! ## Visits -/

/-- A function that a pass processed, and the ids of the hint calls put
into it then. -/
structure Visit where
  name : String
  ids : List Nat
deriving Repr, DecidableEq

/-- Different functions have different ids, and a function has one. -/
def IdsIdentify (visits : List Visit) : Prop :=
  ∀ v ∈ visits, ∀ w ∈ visits, ∀ i ∈ v.ids, ∀ j ∈ w.ids, i = j ↔ v.name = w.name

/-- The ids in a function after a visit, less those it had before. -/
def addedIds (before after : List Nat) : List Nat := after.diff before

theorem addedIds_of_perm {before after : List Nat} {n fid : Nat}
    (h : after.Perm (List.replicate n fid ++ before)) :
    addedIds before after = List.replicate n fid := by
  apply List.perm_replicate.mp
  have hsub : ((List.replicate n fid ++ before : List Nat) : Multiset Nat)
      - (before : Multiset Nat) = (List.replicate n fid : List Nat) := by
    rw [← Multiset.coe_add]
    exact Multiset.add_sub_cancel_right
  exact (h.diff_right before).trans (Multiset.coe_eq_coe.mp hsub)

theorem addedIds_self (ids : List Nat) : addedIds ids ids = [] := by
  have h : ids.Perm (List.replicate 0 0 ++ ids) := .refl ids
  exact addedIds_of_perm h

/-- A hint pass: the ids it puts into a function, and the map it leaves.
A function it looks at is visited once, whatever the number of hints. -/
structure HintPass (F : Type) where
  name : F → String
  looksAt : F → Bool
  sites : F → Nat
  run : FunctionMap → F → List Nat × FunctionMap
  run_looks : ∀ m f, looksAt f = true →
    run m f = (List.replicate (sites f) (m.visit (name f)).1, (m.visit (name f)).2)
  run_skips : ∀ m f, looksAt f = false → run m f = ([], m)

variable {F : Type} (p : HintPass F)

def HintPass.visitsFrom (m : FunctionMap) : List F → List Visit
  | [] => []
  | f :: fs => ⟨p.name f, (p.run m f).1⟩ :: HintPass.visitsFrom (p.run m f).2 fs

def HintPass.visits (fs : List F) : List Visit := p.visitsFrom .empty fs

def HintPass.emits (f : F) : Bool := p.looksAt f && decide (0 < p.sites f)

/-- A function of this name has been looked at. -/
def HintPass.Seen (fs : List F) (name : String) : Prop :=
  ∃ f ∈ fs, p.looksAt f = true ∧ p.name f = name

/-- No two functions that get hints have one name, and of no two is it
the first visit to both names. -/
def HintPass.LateEmitters (fs : List F) : Prop :=
  ∀ i j (hij : i < j) (hj : j < fs.length), p.emits fs[i] = true → p.emits fs[j] = true →
    p.name fs[i] ≠ p.name fs[j] ∧
      (p.Seen (fs.take i) (p.name fs[i]) ∨ p.Seen (fs.take j) (p.name fs[j]))

/-! ## The numbers handed out -/

def HintPass.mapAfter (m : FunctionMap) (fs : List F) : FunctionMap :=
  fs.foldl (fun m f => (p.run m f).2) m

theorem visit_fid_le (m : FunctionMap) (name : String) :
    m.fid ≤ (m.visit name).2.fid ∧ (m.visit name).1 ≤ (m.visit name).2.fid := by
  unfold FunctionMap.visit
  split <;> simp

theorem visit_eq_zero_iff (m : FunctionMap) (name : String) :
    (m.visit name).1 = 0 ↔ (m.fMap.lookup name).isSome = false := by
  unfold FunctionMap.visit
  cases (m.fMap.lookup name).isSome <;> simp

theorem visit_of_isSome {m : FunctionMap} {name : String} (h : (m.fMap.lookup name).isSome = true) :
    (m.visit name).1 = m.fid + 1 := by
  unfold FunctionMap.visit
  rw [if_pos h]

theorem visit_lookup (m : FunctionMap) (name n : String) :
    ((m.visit name).2.fMap.lookup n).isSome = true ↔
      (m.fMap.lookup n).isSome = true ∨ name = n := by
  have hcons (k : Nat) : (((name, k) :: m.fMap).lookup n).isSome = true ↔
      (m.fMap.lookup n).isSome = true ∨ name = n := by
    by_cases hn : n = name
    · subst hn
      simp
    · have hne : (n == name) = false := by simpa using hn
      simp [List.lookup_cons, hne, Ne.symm hn]
  unfold FunctionMap.visit
  split <;> exact hcons _

theorem HintPass.run_map (m : FunctionMap) (f : F) :
    (p.run m f).2 = if p.looksAt f then (m.visit (p.name f)).2 else m := by
  split
  · rename_i h
    rw [p.run_looks m f h]
  · rename_i h
    rw [p.run_skips m f (by simpa using h)]

theorem HintPass.mapAfter_lookup (fs : List F) (m : FunctionMap) (n : String) :
    ((p.mapAfter m fs).fMap.lookup n).isSome = true ↔
      (m.fMap.lookup n).isSome = true ∨ p.Seen fs n := by
  induction fs generalizing m with
  | nil => simp [HintPass.mapAfter, HintPass.Seen]
  | cons f fs ih =>
      have hstep : p.mapAfter m (f :: fs) = p.mapAfter (p.run m f).2 fs := rfl
      have hseen : p.Seen (f :: fs) n ↔ p.looksAt f = true ∧ p.name f = n ∨ p.Seen fs n := by
        simp [HintPass.Seen]
      rw [hstep, ih, hseen, p.run_map]
      split
      · rename_i h
        rw [visit_lookup]
        simp [h, or_assoc]
      · rename_i h
        simp [h]

theorem HintPass.fid_le_mapAfter (fs : List F) (m : FunctionMap) :
    m.fid ≤ (p.mapAfter m fs).fid := by
  induction fs generalizing m with
  | nil => exact Nat.le_refl _
  | cons f fs ih =>
      have hrun : m.fid ≤ (p.run m f).2.fid := by
        rw [p.run_map]
        split
        · exact (visit_fid_le m _).1
        · exact Nat.le_refl _
      exact hrun.trans (ih _)

/-- The id of the visit to function `i`. -/
def HintPass.idAt (fs : List F) (i : Nat) (hi : i < fs.length) : Nat :=
  ((p.mapAfter .empty (fs.take i)).visit (p.name fs[i])).1

theorem HintPass.idAt_eq_zero_iff (fs : List F) (i : Nat) (hi : i < fs.length) :
    p.idAt fs i hi = 0 ↔ ¬ p.Seen (fs.take i) (p.name fs[i]) := by
  have hlookup := p.mapAfter_lookup (fs.take i) .empty (p.name fs[i])
  rw [HintPass.idAt, visit_eq_zero_iff, ← Bool.not_eq_true, hlookup]
  simp [FunctionMap.empty]

/-- An id is 0 at the first visit and greater than all before it at any
other, so two are the same only where both are first. -/
theorem HintPass.idAt_eq_iff {fs : List F} {i j : Nat} (hij : i < j) (hi : i < fs.length)
    (hj : j < fs.length) (hlooks : p.looksAt fs[i] = true) :
    p.idAt fs i hi = p.idAt fs j hj ↔
      ¬ p.Seen (fs.take i) (p.name fs[i]) ∧ ¬ p.Seen (fs.take j) (p.name fs[j]) := by
  rw [← p.idAt_eq_zero_iff fs i hi, ← p.idAt_eq_zero_iff fs j hj]
  constructor
  · intro heq
    have hz : p.idAt fs j hj = 0 := by
      by_contra hne
      -- the counter at `j` is at least the id given at `i`
      have hsome : ((p.mapAfter .empty (fs.take j)).fMap.lookup (p.name fs[j])).isSome = true := by
        rw [HintPass.idAt, visit_eq_zero_iff] at hne
        simpa using hne
      have hidj : p.idAt fs j hj = (p.mapAfter .empty (fs.take j)).fid + 1 := visit_of_isSome hsome
      have hsplit : fs.take j = fs.take i ++ fs[i] :: (fs.drop (i + 1)).take (j - (i + 1)) := by
        rw [← List.take_append_drop (i + 1) (fs.take j), List.take_take, List.drop_take,
          Nat.min_eq_left (by omega), List.take_succ_eq_append_getElem hi, List.append_assoc]
        rfl
      have hmap : p.idAt fs i hi ≤ (p.mapAfter .empty (fs.take j)).fid := by
        have hrun : p.idAt fs i hi ≤ (p.run (p.mapAfter .empty (fs.take i)) fs[i]).2.fid := by
          rw [p.run_map, if_pos hlooks]
          exact (visit_fid_le _ _).2
        rw [hsplit, HintPass.mapAfter, List.foldl_append]
        exact hrun.trans (p.fid_le_mapAfter _ _)
      omega
    exact ⟨heq.trans hz, hz⟩
  · rintro ⟨h, h'⟩
    exact h.trans h'.symm

theorem HintPass.visitsFrom_length (m : FunctionMap) (fs : List F) :
    (p.visitsFrom m fs).length = fs.length := by
  induction fs generalizing m with
  | nil => rfl
  | cons f fs ih => exact congrArg (· + 1) (ih _)

theorem HintPass.visitsFrom_getElem (m : FunctionMap) (fs : List F) (i : Nat) (hi : i < fs.length) :
    (p.visitsFrom m fs)[i]? =
      some ⟨p.name fs[i], (p.run (p.mapAfter m (fs.take i)) fs[i]).1⟩ := by
  induction fs generalizing m i with
  | nil => cases hi
  | cons f fs ih =>
      cases i with
      | zero => rfl
      | succ i => exact ih (p.run m f).2 i (Nat.lt_of_succ_lt_succ hi)

theorem HintPass.mem_ids_iff (fs : List F) (i : Nat) (hi : i < fs.length) (k : Nat) :
    k ∈ (p.run (p.mapAfter .empty (fs.take i)) fs[i]).1 ↔
      p.emits fs[i] = true ∧ k = p.idAt fs i hi := by
  cases hl : p.looksAt fs[i] with
  | true =>
      rw [p.run_looks _ _ hl, List.mem_replicate]
      simp [HintPass.emits, hl, HintPass.idAt, Nat.pos_iff_ne_zero]
  | false =>
      rw [p.run_skips _ _ hl]
      simp [HintPass.emits, hl]

theorem HintPass.mem_visits_iff (fs : List F) (v : Visit) :
    v ∈ p.visits fs ↔ ∃ i, ∃ hi : i < fs.length,
      v = ⟨p.name fs[i], (p.run (p.mapAfter .empty (fs.take i)) fs[i]).1⟩ := by
  rw [List.mem_iff_getElem?]
  constructor
  · rintro ⟨i, hget⟩
    have hi : i < fs.length := by
      have := (List.getElem?_eq_some_iff.mp hget).1
      rwa [HintPass.visits, p.visitsFrom_length] at this
    rw [HintPass.visits, p.visitsFrom_getElem .empty fs i hi] at hget
    exact ⟨i, hi, (Option.some.inj hget).symm⟩
  · rintro ⟨i, hi, rfl⟩
    exact ⟨i, p.visitsFrom_getElem .empty fs i hi⟩

theorem HintPass.identify_iff (fs : List F) : IdsIdentify (p.visits fs) ↔ p.LateEmitters fs := by
  constructor
  · intro hid i j hij hj hei hej
    have hi := hij.trans hj
    have hids := hid _ ((p.mem_visits_iff fs _).mpr ⟨i, hi, rfl⟩) _
      ((p.mem_visits_iff fs _).mpr ⟨j, hj, rfl⟩) _ ((p.mem_ids_iff fs i hi _).mpr ⟨hei, rfl⟩) _
      ((p.mem_ids_iff fs j hj _).mpr ⟨hej, rfl⟩)
    have hlooks := (Bool.and_eq_true_iff.mp hei).1
    rw [p.idAt_eq_iff hij hi hj hlooks] at hids
    have hne : p.name fs[i] ≠ p.name fs[j] := by
      intro hname
      -- the later visit is not the first
      refine (hids.mpr hname).2 ⟨fs[i], ?_, hlooks, hname⟩
      exact List.mem_take_iff_getElem.mpr ⟨i, by omega, rfl⟩
    refine ⟨hne, ?_⟩
    by_contra hboth
    exact hne (hids.mp (not_or.mp hboth))
  · intro hlate v hv w hw k hk l hl
    obtain ⟨i, hi, rfl⟩ := (p.mem_visits_iff fs v).mp hv
    obtain ⟨j, hj, rfl⟩ := (p.mem_visits_iff fs w).mp hw
    obtain ⟨hei, rfl⟩ := (p.mem_ids_iff fs i hi k).mp hk
    obtain ⟨hej, rfl⟩ := (p.mem_ids_iff fs j hj l).mp hl
    have hdiff : ∀ a b (hab : a < b) (hb : b < fs.length), p.emits fs[a] = true →
        p.emits fs[b] = true → p.idAt fs a (hab.trans hb) ≠ p.idAt fs b hb := by
      intro a b hab hb hea heb heq
      rw [p.idAt_eq_iff hab (hab.trans hb) hb (Bool.and_eq_true_iff.mp hea).1] at heq
      exact (hlate a b hab hb hea heb).2.elim heq.1 heq.2
    rcases Nat.lt_trichotomy i j with hij | rfl | hij
    · exact iff_of_false (hdiff i j hij hj hei hej) (hlate i j hij hj hei hej).1
    · exact iff_of_true rfl rfl
    · exact iff_of_false (hdiff j i hij hi hej hei).symm (hlate j i hij hi hej hei).1.symm

/-! ## `CollectIBranchHints` -/

def ibranchId? : CfvHints.Inst → Option Nat
  | .collectIBranchHints fid _ _ => some fid
  | _ => none

def ibranchIds (blocks : List CfvHints.Block) : List Nat :=
  blocks.flatMap fun b => b.insts.filterMap ibranchId?

def isIndirectBr (b : CfvHints.Block) : Bool :=
  match b.term with
  | .indirectBr _ _ => true
  | _ => false

theorem instrumentIBranches_ids (fid count : Nat) (blocks : List CfvHints.Block) :
    (ibranchIds (CfvHints.instrumentIBranches fid count blocks)).Perm
      (List.replicate (blocks.countP isIndirectBr) fid ++ ibranchIds blocks) := by
  induction blocks generalizing count with
  | nil => exact .refl _
  | cons b bs ih =>
      unfold CfvHints.instrumentIBranches
      split
      · rename_i address dests hterm
        have hb : isIndirectBr b = true := by simp [isIndirectBr, hterm]
        have hids : (b.insertBeforeTerm (.collectIBranchHints fid count address)).insts.filterMap
            ibranchId? = b.insts.filterMap ibranchId? ++ [fid] := by
          simp [CfvHints.Block.insertBeforeTerm, ibranchId?]
        rw [List.countP_cons_of_pos hb, List.replicate_succ]
        simp only [ibranchIds, List.flatMap_cons] at ih ⊢
        rw [hids]
        grind
      · rename_i hterm
        have hb : isIndirectBr b = false := by
          unfold isIndirectBr
          split
          · exact absurd ‹_› (hterm _ _)
          · rfl
        rw [List.countP_cons_of_neg (by simp [hb])]
        simp only [ibranchIds, List.flatMap_cons] at ih ⊢
        grind

/-- The pass manager keeps declarations away from the pass. -/
def ibranchHints : HintPass CfvHints.Function where
  name := CfvHints.Function.name
  looksAt f := !f.blocks.isEmpty
  sites f := f.blocks.countP isIndirectBr
  run m f :=
    let out := CfvHints.collectIBranchHints m f
    (addedIds (ibranchIds f.blocks) (ibranchIds out.1.blocks), out.2)
  run_looks m f h := by
    have hf : f.blocks.isEmpty = false := by simpa using h
    simp only [CfvHints.collectIBranchHints, hf, Bool.false_eq_true, if_false]
    rw [addedIds_of_perm (instrumentIBranches_ids _ 0 f.blocks)]
  run_skips m f h := by
    have hf : f.blocks.isEmpty = true := by simpa using h
    simp only [CfvHints.collectIBranchHints, hf, if_true]
    rw [addedIds_self]

/-! ## `CollectICallHints` -/

def icallId? : CfvHints.Inst → Option Nat
  | .collectICallHints fid _ _ => some fid
  | _ => none

def icallIds (blocks : List CfvHints.Block) : List Nat :=
  blocks.flatMap fun b => b.insts.filterMap icallId?

def isICall : CfvHints.Inst → Bool
  | .call (.value _) => true
  | _ => false

def isIInvoke (b : CfvHints.Block) : Bool :=
  match b.term with
  | .invoke (.value _) _ _ => true
  | _ => false

/-- The indirect call sites of a function. -/
def icallSites : List CfvHints.Block → Nat
  | [] => 0
  | b :: bs => b.insts.countP isICall + (if isIInvoke b then 1 else 0) + icallSites bs

theorem instrumentICalls_ids (fid count : Nat) (insts : List CfvHints.Inst) :
    ((CfvHints.instrumentICalls fid count insts).1.filterMap icallId?).Perm
      (List.replicate (insts.countP isICall) fid ++ insts.filterMap icallId?) := by
  induction insts generalizing count with
  | nil => exact .refl _
  | cons i is ih =>
      unfold CfvHints.instrumentICalls
      split
      · rw [List.countP_cons_of_pos rfl, List.replicate_succ]
        exact (ih (count + 1)).cons fid
      · rename_i hne
        have hi : isICall i = false := by
          unfold isICall
          split
          · exact absurd rfl (hne _)
          · rfl
        rw [List.countP_cons_of_neg (by simp [hi])]
        simp only [List.filterMap_cons]
        grind

theorem instrumentInvoke_ids (fid count : Nat) (b : CfvHints.Block) :
    (CfvHints.instrumentInvoke fid count b).1.insts.filterMap icallId? =
      b.insts.filterMap icallId? ++ List.replicate (if isIInvoke b then 1 else 0) fid := by
  unfold CfvHints.instrumentInvoke
  split
  · rename_i v normal unwind hterm
    simp [CfvHints.Block.insertBeforeTerm, icallId?, isIInvoke, hterm]
  · rename_i hne
    have hb : isIInvoke b = false := by
      unfold isIInvoke
      split
      · exact absurd ‹_› (hne _ _ _)
      · rfl
    simp [hb]

theorem processBlocks_ids (fid count : Nat) (blocks : List CfvHints.Block) :
    (icallIds (CfvHints.processBlocks fid count blocks)).Perm
      (List.replicate (icallSites blocks) fid ++ icallIds blocks) := by
  induction blocks generalizing count with
  | nil => exact .refl _
  | cons b bs ih =>
      have hcalls := instrumentICalls_ids fid count b.insts
      have hrest := ih (CfvHints.instrumentInvoke fid
        (CfvHints.instrumentICalls fid count b.insts).2
        { b with insts := (CfvHints.instrumentICalls fid count b.insts).1 }).2
      unfold CfvHints.processBlocks
      simp only [icallIds, List.flatMap_cons] at hrest ⊢
      rw [instrumentInvoke_ids, icallSites, List.replicate_add, List.replicate_add]
      have hterm : isIInvoke { b with insts := (CfvHints.instrumentICalls fid count b.insts).1 } =
          isIInvoke b := rfl
      rw [hterm]
      grind

/-- `runOnModule` leaves declarations and `optnone` functions alone. -/
def icallHints : HintPass CfvHints.Function where
  name := CfvHints.Function.name
  looksAt f := !f.blocks.isEmpty && !f.optimizeNone
  sites f := icallSites f.blocks
  run m f :=
    let out := CfvHints.collectICallHints m f
    (addedIds (icallIds f.blocks) (icallIds out.1.blocks), out.2)
  run_looks m f h := by
    obtain ⟨hf, ho⟩ : f.blocks.isEmpty = false ∧ f.optimizeNone = false := by simpa using h
    simp only [CfvHints.collectICallHints, hf, ho, Bool.false_eq_true, if_false]
    rw [addedIds_of_perm (processBlocks_ids _ 0 f.blocks)]
  run_skips m f h := by
    have hsame : CfvHints.collectICallHints m f = (f, m) := by
      unfold CfvHints.collectICallHints
      split
      · rfl
      · split
        · rfl
        · simp_all
    simp only [hsame]
    rw [addedIds_self]

/-! ## `CollectLoopHints` -/

def loopId? : CfvLoopHints.Inst → Option Nat
  | .collectLoopHints fid _ _ => some fid
  | _ => none

def loopIds (blocks : List CfvLoopHints.Block) : List Nat :=
  blocks.flatMap fun b => b.insts.filterMap loopId?

theorem instrumentLoopHeader_ids {blocks : List CfvLoopHints.Block} {header : Nat}
    (h : header < blocks.length) (l : CfvLoopHints.Label) :
    (loopIds (blocks.modify header (·.instrumentLoopHeader l))).Perm
      (l.fid :: loopIds blocks) := by
  induction blocks generalizing header with
  | nil => cases h
  | cons b bs ih =>
      cases header with
      | zero => exact .refl _
      | succ header =>
          have := ih (Nat.lt_of_succ_lt_succ h)
          simp only [loopIds, List.modify_succ_cons, List.flatMap_cons] at this ⊢
          grind

theorem runHooks_ids {fid : Nat} {calls : List (Nat × CfvLoopHints.Label)}
    (hfid : ∀ c ∈ calls, c.2.fid = fid) (w : CfvLoopHints.Walk)
    (hw : ∀ c ∈ calls, c.1 < w.blocks.length) :
    (loopIds (CfvLoopHints.runHooks calls w).blocks).Perm
      (List.replicate calls.length fid ++ loopIds w.blocks) := by
  induction calls generalizing w with
  | nil => exact .refl _
  | cons c calls ih =>
      have hc := instrumentLoopHeader_ids (hw c List.mem_cons_self) c.2
      have hrest := ih (fun c' h => hfid c' (List.mem_cons_of_mem _ h))
        (CfvLoopHints.runOnLoop c.1 c.2 w) fun c' h => by
          rw [CfvLoopHints.runOnLoop, List.length_modify]
          exact hw c' (List.mem_cons_of_mem _ h)
      rw [hfid c List.mem_cons_self] at hc
      have hrun : CfvLoopHints.runHooks (c :: calls) w =
        CfvLoopHints.runHooks calls (CfvLoopHints.runOnLoop c.1 c.2 w) := rfl
      rw [hrun, List.length_cons, List.replicate_succ]
      refine hrest.trans ?_
      simp only [CfvLoopHints.runOnLoop]
      grind

theorem instrumentLoops_ids (fid : Nat) (f : CfvLoopHints.Function) (li : CfvLoopHints.LoopInfo f) :
    (loopIds (CfvLoopHints.instrumentLoops fid f li).blocks).Perm
      (List.replicate (CfvLoopHints.headers li.topLevel).length fid ++ loopIds f.blocks) := by
  have hheaders := CfvLoopHints.hooks_headers fid 0 0 li.topLevel
  rw [CfvLoopHints.instrumentLoops, CfvLoopHints.runOnLoops_eq, ← hheaders, List.length_map]
  refine runHooks_ids (fun c hc => CfvLoopHints.hooks_fid hc) _ (fun c hc => ?_)
  apply li.header_lt
  rw [← hheaders]
  exact List.mem_map_of_mem hc

def loopHints : HintPass ((f : CfvLoopHints.Function) × CfvLoopHints.LoopInfo f) where
  name v := v.1.name
  looksAt v := !v.1.blocks.isEmpty
  sites v := (CfvLoopHints.headers v.2.topLevel).length
  run m v :=
    let out := CfvLoopHints.runOnFunction m v.1 v.2
    (addedIds (loopIds v.1.blocks) (loopIds out.1.blocks), out.2)
  run_looks m v h := by
    have hf : v.1.blocks.isEmpty = false := by simpa using h
    simp only [CfvLoopHints.runOnFunction, hf, Bool.false_eq_true, if_false]
    rw [addedIds_of_perm (instrumentLoops_ids _ v.1 v.2)]
  run_skips m v h := by
    have hf : v.1.blocks.isEmpty = true := by simpa using h
    simp only [CfvLoopHints.runOnFunction, hf, if_true]
    rw [addedIds_self]

/-! ## The ids -/

/-- The ids a hint pass emits name the functions, whatever it processes
in whatever order, exactly when no two functions with hints have one name
and only one of them is met for the first time. -/
theorem hint_ids_iff (loopers : List ((f : CfvLoopHints.Function) × CfvLoopHints.LoopInfo f))
    (callers jumpers : List CfvHints.Function) :
    (IdsIdentify (loopHints.visits loopers) ↔ loopHints.LateEmitters loopers) ∧
    (IdsIdentify (icallHints.visits callers) ↔ icallHints.LateEmitters callers) ∧
    (IdsIdentify (ibranchHints.visits jumpers) ↔ ibranchHints.LateEmitters jumpers) :=
  ⟨loopHints.identify_iff loopers, icallHints.identify_iff callers,
    ibranchHints.identify_iff jumpers⟩

/-- A function with an indirect call and an indirect branch. -/
def jumper (name : String) : CfvHints.Function :=
  ⟨name, false, [⟨[.call (.value 1)], .indirectBr 0 [0]⟩]⟩

/-- A function with one loop. -/
def looper (name : String) : (f : CfvLoopHints.Function) × CfvLoopHints.LoopInfo f :=
  ⟨⟨name, [⟨[], .br 0⟩]⟩, ⟨[.mk 0 []], by simp [CfvLoopHints.headers, CfvLoopHints.Loop.headers]⟩⟩

/-- Each pass gives `f` and `g` the id 0. -/
theorem hint_ids_collide :
    ¬ IdsIdentify (loopHints.visits [looper "f", looper "g"]) ∧
    ¬ IdsIdentify (icallHints.visits [jumper "f", jumper "g"]) ∧
    ¬ IdsIdentify (ibranchHints.visits [jumper "f", jumper "g"]) := by
  have hsame : ¬ IdsIdentify [⟨"f", [0]⟩, ⟨"g", [0]⟩] := by
    intro h
    have := (h ⟨"f", [0]⟩ (by simp) ⟨"g", [0]⟩ (by simp) 0 (by simp) 0 (by simp)).mp rfl
    revert this
    decide
  exact ⟨hsame, hsame, hsame⟩

end CfvFunctionIds

end Oat
