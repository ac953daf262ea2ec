import Mathlib.Data.List.Sort
import Mathlib.Order.Bounds.Basic
import Oat.NovaState

/-!
# The sensitive variables: step 1 of `DefUseCheck`

The annotated variables and the values of their alias objects are the
start; one scan of the points-to map then adds each variable with an
alias object in the set. The map is ordered by key, a `Value *`: `addr`
is the address of each value.

`defUseVars_isLeast_iff` says when the outcome is the least closed set.
The rest is `Sweep`: the scan is a sweep over the keys in address order.
-/

namespace Oat

namespace Nova

variable (addr : Value → Nat) (gs : GlobalState)

/-! ## The code -/

def aliasVals (aos : List AliasObjectRef) : List Value :=
  aos.filterMap fun ao => (gs.objects[ao]?).map AliasObject.val

/-- The values at the offset of a tuple. -/
def offsetVals (t : AliasObjectTuple) : List Value := aliasVals gs ((gs.aliasSet? t).getD [])

/-- The alias sets of the fields, for an object of struct type. -/
def fieldSets (t : AliasObjectTuple) : List (List AliasObjectRef) :=
  match gs.objects[t.ao]? with
  | some (.object _ type _ aliasMap _) => if type.isStructTy then aliasMap.map Prod.snd else []
  | _ => []

def addAliases (sen : List Value) (t : AliasObjectTuple) : List Value :=
  (fieldSets gs t).foldl (fun sen aos => setInsertAll sen (aliasVals gs aos))
    (setInsertAll sen (offsetVals gs t))

/-- `(*(gs->pMap))[v]`, which makes an entry if there is none. -/
def touchPts (pMap : AList fun _ : Value => Option TupleSetRef) (v : Value) :
    AList fun _ : Value => Option TupleSetRef :=
  if v ∈ pMap then pMap else pMap.insert v none

/-- The loop over the annotated variables. -/
def annotatedVars : List Value :=
  gs.senVarSet.foldl
    (fun sen v => (gs.tuplesOf v).foldl (addAliases gs) (setInsert sen v)) []

def touchedPts : AList fun _ : Value => Option TupleSetRef := gs.senVarSet.foldl touchPts gs.pMap

/-- The loop over one alias set, which breaks off at the first hit. -/
def scanSet (v : Value) (sen : List Value) (vals : List Value) : List Value :=
  if vals.any (· ∈ sen) then setInsert sen v else sen

def scanTuple (v : Value) (sen : List Value) (t : AliasObjectTuple) : List Value :=
  (fieldSets gs t).foldl (fun sen aos => scanSet v sen (aliasVals gs aos))
    (scanSet v sen (offsetVals gs t))

def scanVar (sen : List Value) (v : Value) : List Value :=
  if v ∈ sen then sen else (gs.tuplesOf v).foldl (scanTuple gs v) sen

/-- The keys as the map goes through them. -/
def keyOrder (pMap : AList fun _ : Value => Option TupleSetRef) : List Value :=
  pMap.keys.insertionSort fun a b => addr a ≤ addr b

/-- `senVarSet` after step 1. -/
def defUseVars : List Value :=
  (keyOrder addr (touchedPts gs)).foldl (scanVar gs) (annotatedVars gs)

/-! ## What the set is for -/

/-- A variable has the alias object of a value at its offset, or at a
field. -/
def Aliases (v w : Value) : Prop :=
  ∃ t ∈ gs.tuplesOf v, w ∈ offsetVals gs t ∨ ∃ aos ∈ fieldSets gs t, w ∈ aliasVals gs aos

/-- In the set from the start. -/
def Annotated (v : Value) : Prop := v ∈ gs.senVarSet ∨ ∃ a ∈ gs.senVarSet, Aliases gs a v

structure SenClosed (S : Set Value) : Prop where
  annotated : ∀ v, Annotated gs v → v ∈ S
  scan : ∀ v w, Aliases gs v w → w ∈ S → v ∈ S

/-- The variables that one comes to from the annotated ones. -/
inductive Sensitive : Value → Prop where
  | annotated {v : Value} : Annotated gs v → Sensitive v
  | scan {v w : Value} : Aliases gs v w → Sensitive w → Sensitive v

variable {gs}

theorem sensitive_isLeast : IsLeast {S | SenClosed gs S} {v | Sensitive gs v} := by
  refine ⟨⟨fun v h => .annotated h, fun v w h hw => .scan h hw⟩, fun S hS v hv => ?_⟩
  induction hv with
  | annotated h => exact hS.annotated _ h
  | scan h _ ih => exact hS.scan _ _ h ih

/-! ## The loops, set by set -/

theorem mem_foldl_insertAll {α : Type} (f : α → List Value) {l : List α} {sen : List Value}
    {x : Value} :
    x ∈ l.foldl (fun sen a => setInsertAll sen (f a)) sen ↔ x ∈ sen ∨ ∃ a ∈ l, x ∈ f a := by
  induction l generalizing sen with
  | nil => simp
  | cons a l ih => simp [ih, or_assoc]

theorem mem_addAliases {sen : List Value} {t : AliasObjectTuple} {x : Value} :
    x ∈ addAliases gs sen t ↔
      x ∈ sen ∨ x ∈ offsetVals gs t ∨ ∃ aos ∈ fieldSets gs t, x ∈ aliasVals gs aos := by
  rw [addAliases, mem_foldl_insertAll, mem_setInsertAll, or_assoc]

theorem mem_foldl_addAliases {ts : List AliasObjectTuple} {sen : List Value} {x : Value} :
    x ∈ ts.foldl (addAliases gs) sen ↔
      x ∈ sen ∨ ∃ t ∈ ts, x ∈ offsetVals gs t ∨ ∃ aos ∈ fieldSets gs t, x ∈ aliasVals gs aos := by
  induction ts generalizing sen with
  | nil => simp
  | cons t ts ih =>
      rw [List.foldl_cons, ih, mem_addAliases, or_assoc]
      simp only [List.exists_mem_cons_iff]

theorem mem_annotatedVars {x : Value} : x ∈ annotatedVars gs ↔ Annotated gs x := by
  have one : ∀ (sen : List Value) (a : Value),
      x ∈ (gs.tuplesOf a).foldl (addAliases gs) (setInsert sen a) ↔
        (x ∈ sen ∨ x = a) ∨ Aliases gs a x := by
    intro sen a
    rw [mem_foldl_addAliases, mem_setInsert]
    rfl
  have all : ∀ (l sen : List Value), x ∈ l.foldl
      (fun sen v => (gs.tuplesOf v).foldl (addAliases gs) (setInsert sen v)) sen ↔
      x ∈ sen ∨ x ∈ l ∨ ∃ a ∈ l, Aliases gs a x := by
    intro l
    induction l with
    | nil => simp
    | cons a l ih =>
        intro sen
        rw [List.foldl_cons, ih, one, List.mem_cons, List.exists_mem_cons_iff]
        tauto
  simpa [annotatedVars, Annotated] using all gs.senVarSet []

/-- What the scan of a variable looks for. -/
def scanDeps (gs : GlobalState) (v : Value) : List Value :=
  (gs.tuplesOf v).flatMap fun t =>
    offsetVals gs t ++ (fieldSets gs t).flatMap fun aos => aliasVals gs aos

theorem mem_scanDeps {v w : Value} : w ∈ scanDeps gs v ↔ Aliases gs v w := by
  simp [scanDeps, Aliases]

theorem foldl_scanSet_of_mem {v : Value} {sen : List Value} (hv : v ∈ sen)
    (sets : List (List Value)) : sets.foldl (scanSet v) sen = sen := by
  induction sets with
  | nil => rfl
  | cons vals sets ih =>
      have h : scanSet v sen vals = sen := by
        simp [scanSet, setInsert, hv]
      rw [List.foldl_cons, h, ih]

theorem foldl_scanSet (v : Value) (sen : List Value) (sets : List (List Value)) :
    sets.foldl (scanSet v) sen =
      if sets.flatten.any (· ∈ sen) then setInsert sen v else sen := by
  induction sets with
  | nil => rfl
  | cons vals sets ih =>
      rw [List.foldl_cons, List.flatten_cons, List.any_append]
      by_cases hit : vals.any (· ∈ sen)
      · have hmem : v ∈ setInsert sen v := mem_setInsert.mpr (.inr rfl)
        rw [scanSet, if_pos hit, foldl_scanSet_of_mem hmem]
        simp [hit]
      · rw [scanSet, if_neg hit, ih]
        simp [hit]

/-- The scan of one variable is a step of the sweep. -/
theorem scanVar_eq (sen : List Value) (v : Value) :
    scanVar gs sen v = sweepKey (scanDeps gs) sen v := by
  unfold scanVar sweepKey
  split
  · rename_i hv
    simp [setInsert, hv]
  · have hsets : ∀ ts : List AliasObjectTuple, ts.foldl (scanTuple gs v) sen =
        (ts.flatMap fun t => offsetVals gs t :: (fieldSets gs t).map (aliasVals gs)).foldl
          (scanSet v) sen := by
      intro ts
      rw [List.foldl_flatMap]
      simp only [List.foldl_cons, List.foldl_map]
      rfl
    rw [hsets, foldl_scanSet]
    simp [scanDeps, List.flatMap_def, List.flatten_flatten, Function.comp_def]

theorem defUseVars_eq :
    defUseVars addr gs =
      sweep (scanDeps gs) (annotatedVars gs) (keyOrder addr (touchedPts gs)) := by
  unfold defUseVars sweep
  congr 1
  funext sen v
  exact scanVar_eq sen v

/-! ## The keys -/

theorem mem_touchPts {pMap : AList fun _ : Value => Option TupleSetRef} {v w : Value} :
    w ∈ touchPts pMap v ↔ w ∈ pMap ∨ w = v := by
  unfold touchPts
  split
  · rename_i hv
    exact ⟨.inl, fun h => h.elim id fun h => h ▸ hv⟩
  · rw [AList.mem_insert, or_comm]

theorem mem_touchedPts {w : Value} (hw : w ∈ gs.pMap) : w ∈ touchedPts gs := by
  have key : ∀ (l : List Value) (pMap : AList fun _ : Value => Option TupleSetRef),
      w ∈ pMap → w ∈ l.foldl touchPts pMap := by
    intro l
    induction l with
    | nil => exact fun _ h => h
    | cons v l ih => exact fun pMap h => ih _ (mem_touchPts.mpr (.inl h))
  exact key _ _ hw

theorem mem_keyOrder_of_aliases {v w : Value} (h : Aliases gs v w) :
    v ∈ keyOrder addr (touchedPts gs) := by
  obtain ⟨t, ht, -⟩ := h
  have hv : v ∈ gs.pMap := by
    by_contra hv
    have hnone : gs.pts? v = none := by
      rw [GlobalState.pts?, AList.lookup_eq_none.mpr hv]
      rfl
    simp [GlobalState.tuplesOf, hnone] at ht
  exact (List.mem_insertionSort _).mpr (mem_touchedPts hv)

theorem keyOrder_sorted {addr : Value → Nat} {pMap : AList fun _ : Value => Option TupleSetRef}
    (hinj : ∀ a ∈ pMap.keys, ∀ b ∈ pMap.keys, addr a = addr b → a = b) :
    (keyOrder addr pMap).Pairwise fun a b => addr a < addr b := by
  have htotal : Std.Total fun a b : Value => addr a ≤ addr b :=
    ⟨fun a b => Nat.le_total (addr a) (addr b)⟩
  have htrans : IsTrans Value fun a b => addr a ≤ addr b :=
    ⟨fun _ _ _ hab hbc => Nat.le_trans hab hbc⟩
  have hle : (keyOrder addr pMap).Pairwise fun a b => addr a ≤ addr b :=
    List.pairwise_insertionSort _ _
  have hne : (keyOrder addr pMap).Pairwise (· ≠ ·) :=
    (List.perm_insertionSort _ _).nodup_iff.mpr pMap.keys_nodup
  refine (hle.and hne).imp_of_mem fun ha hb h => Nat.lt_of_le_of_ne h.1 fun heq => h.2 ?_
  exact hinj _ ((List.mem_insertionSort _).mp ha) _ ((List.mem_insertionSort _).mp hb) heq

theorem closure_iff_sensitive {v : Value} :
    Closure (scanDeps gs) (annotatedVars gs) (keyOrder addr (touchedPts gs)) v ↔
      Sensitive gs v := by
  constructor
  · intro h
    induction h with
    | seed h => exact .annotated (mem_annotatedVars.mp h)
    | dep _ hd _ ih => exact .scan (mem_scanDeps.mp hd) ih
  · intro h
    induction h with
    | annotated h => exact .seed (mem_annotatedVars.mpr h)
    | scan h _ ih => exact .dep (mem_keyOrder_of_aliases addr h) (mem_scanDeps.mpr h) ih

/-- One scan gives the least closed set if and only if each variable that
is in it by the scan rule alone has an alias that is there from the
start, or one in it that lies at a lower address. -/
theorem defUseVars_isLeast_iff (addr : Value → Nat) (gs : GlobalState)
    (hinj : ∀ a ∈ (touchedPts gs).keys, ∀ b ∈ (touchedPts gs).keys, addr a = addr b → a = b) :
    IsLeast {S | SenClosed gs S} {v | v ∈ defUseVars addr gs} ↔
      ∀ v, ¬ Annotated gs v → Sensitive gs v →
        ∃ w, Aliases gs v w ∧ (Annotated gs w ∨ (Sensitive gs w ∧ addr w < addr v)) := by
  have hsweep := sweep_closed_iff (scanDeps gs) (annotatedVars gs)
    (keyOrder_sorted hinj)
  simp only [closure_iff_sensitive, mem_annotatedVars, mem_scanDeps, ← defUseVars_eq] at hsweep
  rw [← hsweep]
  constructor
  · intro h v hv
    have heq : {v | v ∈ defUseVars addr gs} = {v | Sensitive gs v} :=
      h.unique sensitive_isLeast
    exact heq.symm.subset hv
  · intro h
    have heq : {v | v ∈ defUseVars addr gs} = {v | Sensitive gs v} := by
      refine Set.Subset.antisymm (fun v hv => ?_) h
      have hv' : v ∈ sweep (scanDeps gs) (annotatedVars gs) (keyOrder addr (touchedPts gs)) := by
        rwa [← defUseVars_eq]
      exact (closure_iff_sensitive addr).mp (closure_of_mem_sweep v hv')
    rw [heq]
    exact sensitive_isLeast

/-- `int *x = &a; int **y = &x;` with an annotated global `a`. -/
def chain : Module where
  globals := [("a", .int 32)]
  functions :=
    [⟨"main", 0,
      [[⟨"main", 0, .alloca (.ptr (.int 32))⟩,
        ⟨"main", 1, .alloca (.ptr (.ptr (.int 32)))⟩,
        ⟨"main", 2, .store (.global "a") (.inst "main" 0)⟩,
        ⟨"main", 3, .store (.inst "main" 0) (.inst "main" 1)⟩]], [[0]]⟩]
  annotations := [.global "a"]

def chainState : GlobalState := (analyse chain 1).getD .empty

/-- Addresses that go up along the function. -/
def upward : Value → Nat
  | .inst _ id => 8 * id + 8
  | _ => 0

/-- Addresses that go down, as when the allocator reuses freed memory. -/
def downward : Value → Nat
  | .inst _ id => 800 - 8 * id
  | _ => 0

theorem chain_keys : (touchedPts chainState).keys =
    [.inst "main" 1, .inst "main" 0, .global "a"] := rfl

theorem defUseVars_isLeast_upward :
    IsLeast {S | SenClosed chainState S} {v | v ∈ defUseVars upward chainState} := by
  refine (defUseVars_isLeast_iff upward chainState (by rw [chain_keys]; decide)).mpr ?_
  have hx : Aliases chainState (.inst "main" 0) (.global "a") := by unfold Aliases; decide
  have hy : Aliases chainState (.inst "main" 1) (.inst "main" 0) := by unfold Aliases; decide
  have ha : Annotated chainState (.global "a") := .inl (by decide)
  intro v hv hs
  cases hs with
  | annotated h => exact absurd h hv
  | scan h _ =>
      have hkey := (List.mem_insertionSort _).mp (mem_keyOrder_of_aliases upward h)
      rw [chain_keys] at hkey
      simp only [List.mem_cons, List.not_mem_nil, or_false] at hkey
      rcases hkey with rfl | rfl | rfl
      · exact ⟨_, hy, .inr ⟨.scan hx (.annotated ha), by decide⟩⟩
      · exact ⟨_, hx, .inl ha⟩
      · exact absurd ha hv

/-- With the addresses the other way round `y` is scanned before `x` is
in the set. -/
theorem chain_missed :
    ¬ ∀ (addr : Value → Nat) (gs : GlobalState),
      (∀ a ∈ (touchedPts gs).keys, ∀ b ∈ (touchedPts gs).keys, addr a = addr b → a = b) →
        IsLeast {S | SenClosed gs S} {v | v ∈ defUseVars addr gs} := by
  intro h
  have hclosed := (h downward chainState (by rw [chain_keys]; decide)).1
  have hy : Aliases chainState (.inst "main" 1) (.inst "main" 0) := by unfold Aliases; decide
  have hmem : Value.inst "main" 0 ∈ defUseVars downward chainState := by decide
  have hmiss : Value.inst "main" 1 ∉ defUseVars downward chainState := by decide
  exact hmiss (hclosed.scan _ _ hy hmem)

end Nova

end Oat
