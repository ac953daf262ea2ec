import Mathlib.Data.List.Nodup
import Oat.CfvHints

/-!
# `CollectLoopHints`

The pass walks the loops `LoopInfo` reports for a function, subloops
first, and puts a call of `__collect_loop_hints` in front of the first
instruction of each header. The analysis is a parameter: any forest of
loops whose headers are blocks of the function.

Two things are read off the walk. The labels it hands out
(`runOnFunction_labels_nodup_iff`) restart in every loop, so they tell
the loops apart only where each level has one loop with subloops. And
`Header->begin()` is in front of the PHI nodes
(`runOnFunction_wellFormed_iff`).
-/

namespace Oat

namespace CfvLoopHints

open CfvHints (FunctionMap)

/-! ## Functions and their loops -/

/-- A PHI node, the hint call of this pass, or any other instruction. -/
inductive Inst where
  | phi (incoming : List (Nat × CfvHints.Value))
  | collectLoopHints (fid level count : Nat)
  | inst (i : CfvHints.Inst)
deriving Repr, DecidableEq

def Inst.isPhi : Inst → Bool
  | .phi _ => true
  | _ => false

structure Block where
  insts : List Inst
  term : CfvHints.Terminator
deriving Repr, DecidableEq

structure Function where
  name : String
  blocks : List Block
deriving Repr, DecidableEq

/-- A loop: the number of its header, and its subloops. -/
inductive Loop where
  | mk (header : Nat) (subLoops : List Loop)
deriving Repr

def Loop.header : Loop → Nat
  | .mk header _ => header

def Loop.subLoops : Loop → List Loop
  | .mk _ subLoops => subLoops

/-- Induction over a forest: its first loop, the subloops of that loop,
the loops after it. -/
@[elab_as_elim]
theorem forest_induction {P : List Loop → Prop} (nil : P [])
    (cons : ∀ header subLoops rest, P subLoops → P rest → P (.mk header subLoops :: rest)) :
    ∀ loops, P loops
  | [] => nil
  | .mk header subLoops :: rest =>
      cons header subLoops rest (forest_induction nil cons subLoops)
        (forest_induction nil cons rest)

mutual

/-- The headers in the order of the walk: subloops first. -/
def Loop.headers : Loop → List Nat
  | .mk header subLoops => headers subLoops ++ [header]

def headers : List Loop → List Nat
  | [] => []
  | loop :: rest => loop.headers ++ headers rest

end

/-- What `LoopInfo` says about a function. -/
structure LoopInfo (f : Function) where
  topLevel : List Loop
  header_lt : ∀ h ∈ headers topLevel, h < f.blocks.length

/-! ## The pass -/

structure Label where
  fid : Nat
  level : Nat
  count : Nat
deriving Repr, DecidableEq

def Label.call (l : Label) : Inst := .collectLoopHints l.fid l.level l.count

/-- The function as instrumented so far, and the labels handed to the
header hooks, which `runOnLoop` prints. -/
structure Walk where
  blocks : List Block
  hooked : List Label
deriving Repr, DecidableEq

/-- The call goes in front of the instruction at `Header->begin()`. -/
def Block.instrumentLoopHeader (b : Block) (l : Label) : Block :=
  { b with insts := l.call :: b.insts }

def runOnLoop (header : Nat) (l : Label) (w : Walk) : Walk :=
  ⟨w.blocks.modify header (·.instrumentLoopHeader l), w.hooked ++ [l]⟩

mutual

def runOnLoopAndSubLoops (fid level count : Nat) : Loop → Walk → Walk
  | .mk header subLoops, w =>
      runOnLoop header ⟨fid, level, count⟩ (runOnLoops fid (level + 1) 0 subLoops w)

/-- The loop over the subloops, and over the top-level loops: `count` is
`localCount`, and `count` of `runOnFunction`. -/
def runOnLoops (fid level : Nat) : Nat → List Loop → Walk → Walk
  | _, [], w => w
  | count, loop :: rest, w =>
      runOnLoops fid level (count + 1) rest (runOnLoopAndSubLoops fid level count loop w)

end

/-- What the walk makes of a function that is given this id. -/
def instrumentLoops (fid : Nat) (f : Function) (li : LoopInfo f) : Walk :=
  runOnLoops fid 0 0 li.topLevel ⟨f.blocks, []⟩

/-- `runOnFunction`; the pass manager keeps declarations away from it. -/
def runOnFunction (m : FunctionMap) (f : Function) (li : LoopInfo f) : Walk × FunctionMap :=
  if f.blocks.isEmpty then (⟨f.blocks, []⟩, m)
  else (instrumentLoops (m.visit f.name).1 f li, (m.visit f.name).2)

/-! ## The walk as the list of its hooks -/

mutual

/-- The header hooks in the order in which they are put in. -/
def Loop.hooks (fid level count : Nat) : Loop → List (Nat × Label)
  | .mk header subLoops => hooks fid (level + 1) 0 subLoops ++ [(header, ⟨fid, level, count⟩)]

def hooks (fid level : Nat) : Nat → List Loop → List (Nat × Label)
  | _, [] => []
  | count, loop :: rest => loop.hooks fid level count ++ hooks fid level (count + 1) rest

end

def runHooks (calls : List (Nat × Label)) (w : Walk) : Walk :=
  calls.foldl (fun w c => runOnLoop c.1 c.2 w) w

@[simp] theorem runHooks_append (xs ys : List (Nat × Label)) (w : Walk) :
    runHooks (xs ++ ys) w = runHooks ys (runHooks xs w) :=
  List.foldl_append

theorem runOnLoops_eq (fid level count : Nat) (loops : List Loop) (w : Walk) :
    runOnLoops fid level count loops w = runHooks (hooks fid level count loops) w := by
  induction loops using forest_induction generalizing level count w with
  | nil => rfl
  | cons header subLoops rest ihs ih =>
      simp only [runOnLoops, runOnLoopAndSubLoops, hooks, Loop.hooks, runHooks_append]
      rw [ih, ihs]
      rfl

theorem hooks_headers (fid level count : Nat) (loops : List Loop) :
    (hooks fid level count loops).map Prod.fst = headers loops := by
  induction loops using forest_induction generalizing level count with
  | nil => rfl
  | cons header subLoops rest ihs ih => simp [hooks, Loop.hooks, headers, Loop.headers, ihs, ih]

theorem hooks_fid {fid level count : Nat} {loops : List Loop} {c : Nat × Label}
    (h : c ∈ hooks fid level count loops) : c.2.fid = fid := by
  induction loops using forest_induction generalizing level count with
  | nil => cases h
  | cons header subLoops rest ihs ih =>
      simp only [hooks, Loop.hooks, List.mem_append, List.mem_singleton] at h
      rcases h with (h | rfl) | h
      · exact ihs h
      · rfl
      · exact ih h

theorem runHooks_hooked (calls : List (Nat × Label)) (w : Walk) :
    (runHooks calls w).hooked = w.hooked ++ calls.map Prod.snd := by
  induction calls generalizing w with
  | nil => exact (List.append_nil _).symm
  | cons c calls ih =>
      calc (runHooks (c :: calls) w).hooked
          = (runHooks calls (runOnLoop c.1 c.2 w)).hooked := rfl
        _ = w.hooked ++ [c.2] ++ calls.map Prod.snd := ih _
        _ = w.hooked ++ (c :: calls).map Prod.snd := by simp

/-- The hint calls put into block `b`, as they stand in it: the hook put
in last is first. -/
def callsAt (b : Nat) (calls : List (Nat × Label)) : List Inst :=
  ((calls.filter fun c => c.1 = b).map fun c => c.2.call).reverse

theorem runHooks_blocks (calls : List (Nat × Label)) (w : Walk) (b : Nat) :
    (runHooks calls w).blocks[b]? =
      w.blocks[b]?.map fun block => { block with insts := callsAt b calls ++ block.insts } := by
  induction calls generalizing w with
  | nil => simp [runHooks, callsAt]
  | cons c calls ih =>
      have hrun : runHooks (c :: calls) w = runHooks calls (runOnLoop c.1 c.2 w) := rfl
      rw [hrun, ih]
      by_cases hc : c.1 = b
      · subst hc
        simp [runOnLoop, List.getElem?_modify_eq, Block.instrumentLoopHeader, callsAt,
          Function.comp_def]
      · simp [runOnLoop, List.getElem?_modify_ne _ _ hc, callsAt, hc]

theorem LoopInfo.topLevel_eq_nil {f : Function} (li : LoopInfo f) (hf : f.blocks = []) :
    li.topLevel = [] := by
  rcases hl : li.topLevel with _ | ⟨⟨header, subLoops⟩, rest⟩
  · rfl
  · have hlt := li.header_lt header (by simp [hl, headers, Loop.headers])
    simp [hf] at hlt

/-! ## The labels -/

mutual

/-- No two loops with the same parent, or both at top level, have
subloops. -/
def Loop.OneNests : Loop → Prop
  | .mk _ subLoops => OneNests subLoops

def OneNests : List Loop → Prop
  | [] => True
  | loop :: rest =>
      loop.OneNests ∧ OneNests rest ∧ (loop.subLoops = [] ∨ ∀ l ∈ rest, l.subLoops = [])

end

def labels (fid level count : Nat) (loops : List Loop) : List Label :=
  (hooks fid level count loops).map Prod.snd

theorem labels_cons (fid level count : Nat) (loop : Loop) (rest : List Loop) :
    labels fid level count (loop :: rest) =
      labels fid (level + 1) 0 loop.subLoops ++ ⟨fid, level, count⟩ ::
        labels fid level (count + 1) rest := by
  cases loop
  simp [labels, hooks, Loop.hooks, Loop.subLoops]

/-- A label at the level of the forest is one of its own loops, counted
from `count` on; every other label is deeper. -/
theorem labels_bound {fid level count : Nat} {loops : List Loop} {l : Label}
    (h : l ∈ labels fid level count loops) :
    level < l.level ∨ level = l.level ∧ count ≤ l.count := by
  induction loops using forest_induction generalizing level count with
  | nil => cases h
  | cons header subLoops rest ihs ih =>
      rw [labels_cons, List.mem_append, List.mem_cons] at h
      rcases h with h | rfl | h
      · have := ihs h
        omega
      · exact .inr ⟨rfl, Nat.le_refl count⟩
      · have := ih h
        omega

theorem first_mem_labels (fid level count : Nat) {loops : List Loop} (h : loops ≠ []) :
    ⟨fid, level, count⟩ ∈ labels fid level count loops := by
  obtain ⟨loop, rest, rfl⟩ := List.exists_cons_of_ne_nil h
  rw [labels_cons]
  simp

/-- Each loop with subloops has handed out the first label one level down. -/
theorem first_subLoop_mem_labels (fid level count : Nat) {loops : List Loop} {l : Loop}
    (hl : l ∈ loops) (h : l.subLoops ≠ []) :
    ⟨fid, level + 1, 0⟩ ∈ labels fid level count loops := by
  induction loops generalizing count with
  | nil => cases hl
  | cons loop rest ih =>
      rw [labels_cons, List.mem_append, List.mem_cons]
      rcases List.mem_cons.mp hl with rfl | hl
      · exact .inl (first_mem_labels fid (level + 1) 0 h)
      · exact .inr (.inr (ih (count + 1) hl))

theorem labels_level_of_flat {fid level count : Nat} {loops : List Loop} {l : Label}
    (hflat : ∀ loop ∈ loops, loop.subLoops = []) (h : l ∈ labels fid level count loops) :
    l.level = level := by
  induction loops generalizing count with
  | nil => cases h
  | cons loop rest ih =>
      rw [labels_cons, hflat loop List.mem_cons_self] at h
      rcases List.mem_cons.mp h with rfl | h
      · rfl
      · exact ih (fun l hl => hflat l (List.mem_cons_of_mem _ hl)) h

theorem labels_disjoint_iff (fid level count : Nat) (subLoops rest : List Loop) :
    (labels fid (level + 1) 0 subLoops).Disjoint (labels fid level count rest) ↔
      subLoops = [] ∨ ∀ l ∈ rest, l.subLoops = [] := by
  constructor
  · intro hdis
    by_contra hboth
    simp only [not_or, not_forall] at hboth
    obtain ⟨hsub, l, hl, hnests⟩ := hboth
    exact hdis (first_mem_labels fid (level + 1) 0 hsub)
      (first_subLoop_mem_labels fid level count hl hnests)
  · rintro (rfl | hflat) l hl hl'
    · cases hl
    · have := labels_level_of_flat hflat hl'
      have := labels_bound hl
      omega

theorem labels_nodup_iff (fid level count : Nat) (loops : List Loop) :
    (labels fid level count loops).Nodup ↔ OneNests loops := by
  induction loops using forest_induction generalizing level count with
  | nil => exact iff_of_true List.nodup_nil trivial
  | cons header subLoops rest ihs ih =>
      -- the label of the loop itself is new to both sides
      have hsub : ⟨fid, level, count⟩ ∉ labels fid (level + 1) 0 subLoops := by
        intro h
        have := labels_bound h
        simp only at this
        omega
      have hrest : ⟨fid, level, count⟩ ∉ labels fid level (count + 1) rest := by
        intro h
        have := labels_bound h
        simp only at this
        omega
      rw [labels_cons, List.nodup_append', List.nodup_cons, List.disjoint_cons_right]
      simp only [OneNests, Loop.OneNests, Loop.subLoops, hsub, hrest, ihs, ih, labels_disjoint_iff,
        not_false_eq_true, true_and]

theorem instrumentLoops_hooked (fid : Nat) (f : Function) (li : LoopInfo f) :
    (instrumentLoops fid f li).hooked = labels fid 0 0 li.topLevel := by
  rw [instrumentLoops, runOnLoops_eq, runHooks_hooked, List.nil_append]
  rfl

/-- The labels of a function name its loops exactly when no two loops of
one parent, or of the top level, both have subloops. -/
theorem runOnFunction_labels_nodup_iff (m : FunctionMap) (f : Function) (li : LoopInfo f) :
    (runOnFunction m f li).1.hooked.Nodup ↔ OneNests li.topLevel := by
  unfold runOnFunction
  split
  · rename_i hf
    rw [li.topLevel_eq_nil (List.isEmpty_iff.mp hf)]
    exact iff_of_true List.nodup_nil trivial
  · rw [instrumentLoops_hooked]
    exact labels_nodup_iff ..

/-- Two loops in a row, each with one loop inside. -/
def twoNests : Function := ⟨"twoNests", List.replicate 5 ⟨[], .ret⟩⟩

def twoNestsLoops : LoopInfo twoNests where
  topLevel := [.mk 0 [.mk 1 []], .mk 2 [.mk 3 []]]
  header_lt := by decide

/-- Both inner loops are `(0, 1, 0)`. -/
theorem runOnFunction_labels_not_nodup :
    ¬ ∀ (m : FunctionMap) (f : Function) (li : LoopInfo f),
      (runOnFunction m f li).1.hooked.Nodup :=
  fun h => absurd (h .empty twoNests twoNestsLoops) (by decide)

/-! ## The PHI nodes -/

/-- The PHI nodes of a block come before its other instructions. -/
def Block.PhisFirst (b : Block) : Prop :=
  ∀ i ∈ b.insts.dropWhile Inst.isPhi, i.isPhi = false

instance (b : Block) : Decidable b.PhisFirst :=
  inferInstanceAs (Decidable (∀ i ∈ b.insts.dropWhile Inst.isPhi, i.isPhi = false))

def Inst.isHint : Inst → Bool
  | .collectLoopHints .. => true
  | _ => false

def Block.hintCalls (b : Block) : Nat := b.insts.countP Inst.isHint

def Block.startsWithPhi (b : Block) : Bool := (b.insts.head?.map Inst.isPhi).getD false

/-- What instrumenting the loops of a function is to leave: PHI nodes
first, and one more hint call in a block for each loop it heads. -/
structure Instrumented (f : Function) (li : LoopInfo f) (blocks : List Block) : Prop where
  phisFirst : ∀ b ∈ blocks, b.PhisFirst
  onePerLoop : ∀ b, blocks[b]?.map Block.hintCalls =
    f.blocks[b]?.map fun block => block.hintCalls + (headers li.topLevel).count b

theorem callsAt_isHint {b : Nat} {calls : List (Nat × Label)} {i : Inst}
    (h : i ∈ callsAt b calls) : i.isHint = true ∧ i.isPhi = false := by
  simp only [callsAt, List.mem_reverse, List.mem_map] at h
  obtain ⟨c, -, rfl⟩ := h
  exact ⟨rfl, rfl⟩

theorem callsAt_length (b : Nat) (calls : List (Nat × Label)) :
    (callsAt b calls).length = (calls.map Prod.fst).count b := by
  simp only [callsAt, List.length_reverse, List.length_map, List.count, List.countP_map,
    ← List.countP_eq_length_filter]
  exact List.countP_congr (by simp)

/-- Calls in front of the block leave its PHI nodes first only where it
has none. -/
theorem phisFirst_append_iff {calls : List Inst} {b : Block}
    (hcalls : ∀ i ∈ calls, i.isPhi = false) (hb : b.PhisFirst) :
    Block.PhisFirst { b with insts := calls ++ b.insts }
      ↔ calls = [] ∨ b.startsWithPhi = false := by
  rcases calls with _ | ⟨c, calls⟩
  · exact iff_of_true hb (.inl rfl)
  · have hc := hcalls c List.mem_cons_self
    have hdrop : List.dropWhile Inst.isPhi (c :: calls ++ b.insts) = c :: calls ++ b.insts :=
      List.dropWhile_cons_of_neg (by simp [hc])
    unfold Block.PhisFirst Block.startsWithPhi at *
    rw [hdrop]
    rcases hi : b.insts with _ | ⟨i, is⟩
    · simpa using hcalls
    · rw [hi] at hb
      constructor
      · intro h
        exact .inr (h i (by simp))
      · intro h
        have hi' : i.isPhi = false := by simpa using h
        rw [List.dropWhile_cons_of_neg (by simp [hi'])] at hb
        intro j hj
        rcases List.mem_append.mp hj with hj | hj
        · exact hcalls j hj
        · exact hb j hj

theorem hintCalls_append {calls : List Inst} (b : Block) (h : ∀ i ∈ calls, i.isHint = true) :
    Block.hintCalls { b with insts := calls ++ b.insts } = b.hintCalls + calls.length := by
  unfold Block.hintCalls
  rw [List.countP_append, List.countP_eq_length.mpr h, Nat.add_comm]

theorem instrumentLoops_blocks (fid : Nat) (f : Function) (li : LoopInfo f) (b : Nat) :
    (instrumentLoops fid f li).blocks[b]? = f.blocks[b]?.map fun block =>
      { block with insts := callsAt b (hooks fid 0 0 li.topLevel) ++ block.insts } := by
  rw [instrumentLoops, runOnLoops_eq, runHooks_blocks]

theorem instrumentLoops_onePerLoop (fid : Nat) (f : Function) (li : LoopInfo f) (b : Nat) :
    (instrumentLoops fid f li).blocks[b]?.map Block.hintCalls =
      f.blocks[b]?.map fun block => block.hintCalls + (headers li.topLevel).count b := by
  rw [instrumentLoops_blocks, Option.map_map]
  congr 1
  funext block
  rw [Function.comp_apply, hintCalls_append block fun i hi => (callsAt_isHint hi).1,
    callsAt_length, hooks_headers]

theorem callsAt_eq_nil_iff (fid b : Nat) (loops : List Loop) :
    callsAt b (hooks fid 0 0 loops) = [] ↔ b ∉ headers loops := by
  rw [← List.length_eq_zero_iff, callsAt_length, hooks_headers, List.count_eq_zero]

theorem instrumentLoops_phisFirst_iff (fid : Nat) (f : Function) (li : LoopInfo f)
    (hf : ∀ b ∈ f.blocks, b.PhisFirst) :
    (∀ b ∈ (instrumentLoops fid f li).blocks, b.PhisFirst) ↔
      ∀ h ∈ headers li.topLevel, ∀ b, f.blocks[h]? = some b → b.startsWithPhi = false := by
  have hcalls : ∀ b, ∀ i ∈ callsAt b (hooks fid 0 0 li.topLevel), i.isPhi = false :=
    fun _ _ hi => (callsAt_isHint hi).2
  constructor
  · intro hout h hh b hb
    have hget := instrumentLoops_blocks fid f li h
    rw [hb] at hget
    have hfirst := hout _ (List.mem_of_getElem? hget)
    rw [phisFirst_append_iff (hcalls h) (hf b (List.mem_of_getElem? hb)),
      callsAt_eq_nil_iff] at hfirst
    exact hfirst.resolve_left (fun hne => hne hh)
  · intro hheads b' hb'
    obtain ⟨h, hget⟩ := List.mem_iff_getElem?.mp hb'
    rw [instrumentLoops_blocks] at hget
    obtain ⟨b, hb, rfl⟩ := Option.map_eq_some_iff.mp hget
    rw [phisFirst_append_iff (hcalls h) (hf b (List.mem_of_getElem? hb)), callsAt_eq_nil_iff]
    by_cases hh : h ∈ headers li.topLevel
    · exact .inr (hheads h hh b hb)
    · exact .inl hh

/-- The pass leaves a well-formed function exactly when no loop header
begins with a PHI node. -/
theorem runOnFunction_wellFormed_iff (m : FunctionMap) (f : Function) (li : LoopInfo f)
    (hf : ∀ b ∈ f.blocks, b.PhisFirst) :
    Instrumented f li (runOnFunction m f li).1.blocks ↔
      ∀ h ∈ headers li.topLevel, ∀ b, f.blocks[h]? = some b → b.startsWithPhi = false := by
  unfold runOnFunction
  split
  · rename_i hempty
    have hnil := li.topLevel_eq_nil (List.isEmpty_iff.mp hempty)
    have hout : Instrumented f li f.blocks := ⟨hf, fun b => by simp [hnil, headers]⟩
    refine iff_of_true hout ?_
    simp [hnil, headers]
  · rw [← instrumentLoops_phisFirst_iff (m.visit f.name).1 f li hf]
    exact ⟨Instrumented.phisFirst, fun h => ⟨h, instrumentLoops_onePerLoop _ f li⟩⟩

/-- A loop as it leaves the front end: its header loads the counter. -/
def loadLoop : Function :=
  ⟨"loadLoop", [⟨[], .br 1⟩, ⟨[.inst (.other 30)], .condBr 0 1 2⟩, ⟨[], .ret⟩]⟩

def loadLoopInfo : LoopInfo loadLoop where
  topLevel := [.mk 1 []]
  header_lt := by decide

theorem runOnFunction_wellFormed_loadLoop :
    (∀ b ∈ loadLoop.blocks, b.PhisFirst) ∧
      Instrumented loadLoop loadLoopInfo (runOnFunction .empty loadLoop loadLoopInfo).1.blocks :=
  ⟨by decide, (runOnFunction_wellFormed_iff .empty loadLoop loadLoopInfo (by decide)).mpr
    (by decide)⟩

/-- The same loop in SSA form: its header begins with the counter. -/
def phiLoop : Function :=
  ⟨"phiLoop", [⟨[], .br 1⟩, ⟨[.phi [(0, 0), (1, 1)]], .condBr 1 1 2⟩, ⟨[], .ret⟩]⟩

def phiLoopInfo : LoopInfo phiLoop where
  topLevel := [.mk 1 []]
  header_lt := by decide

theorem runOnFunction_not_wellFormed :
    ¬ ∀ (m : FunctionMap) (f : Function) (li : LoopInfo f), (∀ b ∈ f.blocks, b.PhisFirst) →
      Instrumented f li (runOnFunction m f li).1.blocks := by
  intro h
  have hout := (h .empty phiLoop phiLoopInfo (by decide)).phisFirst
  revert hout
  decide

end CfvLoopHints

end Oat
