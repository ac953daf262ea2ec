import Oat.NovaTrace

/-!
# Shared tuple sets and taint sets

The two maps as maps to sets that keys may share. `UpdatePtoRet` and
`UpdateTaintRet` merge the entry of the returned value into that of the
current call. This is the call the function was entered by only until the
function has entered another (`returns_iff`).

A bitcast, a getelementptr on an array, a parameter and a call with its
first returned value have the set of another value. What is inserted in
place is there for all of them, and nothing else is (`points_frame`).
-/

namespace Oat

namespace Nova

open SharedSets

/-! ## The maps -/

def GlobalState.points (gs : GlobalState) : SharedSets Value AliasObjectTuple :=
  ⟨gs.pts?, fun r => {t | t ∈ gs.tupleSet r}⟩

def GlobalState.taints (gs : GlobalState) : SharedSets Value Value :=
  ⟨gs.tMap.lookup, fun r => {x | x ∈ gs.instSet r}⟩

section Maps

variable {gs : GlobalState}

theorem contents_points (gs : GlobalState) (v : Value) :
    gs.points.contents v = {t | t ∈ gs.tuplesOf v} := by
  ext t
  exact mem_tuplesOf.symm

/-- An insertion into one of a list of sets. -/
theorem addTo_modify {K α : Type} [DecidableEq α] (ref : K → Option Nat) {sets : List (List α)}
    {r : Nat} (hr : r < sets.length) (l : List α) :
    (⟨ref, fun r' => {x | x ∈ (sets.modify r fun s => setInsertAll s l)[r']?.getD []}⟩ :
        SharedSets K α) =
      SharedSets.addTo ⟨ref, fun r' => {x | x ∈ sets[r']?.getD []}⟩ r {x | x ∈ l} := by
  unfold addTo
  congr 1
  funext r'
  ext x
  rw [Function.update_apply, List.getElem?_modify]
  by_cases heq : r' = r
  · subst heq
    simp [hr]
  · have hne : ¬ r = r' := fun h => heq h.symm
    simp [heq, hne]

theorem points_insertTuples {r : TupleSetRef} (hr : r < gs.tupleSets.length)
    (ts : List AliasObjectTuple) :
    (gs.insertTuples r ts).points = gs.points.addTo r {t | t ∈ ts} :=
  addTo_modify gs.pts? hr ts

theorem taints_insertInsts {r : InstSetRef} (hr : r < gs.instSets.length) (is : List Value) :
    (gs.insertInsts r is).taints = gs.taints.addTo r {x | x ∈ is} :=
  addTo_modify (fun v => gs.tMap.lookup v) hr is

theorem updatePtoRet_merge (h : Valid gs) (ret : Value) :
    (updatePtoRet gs ret).points = gs.points.merge ret gs.ci := by
  unfold updatePtoRet merge
  cases hret : gs.pts? ret with
  | none => simp [GlobalState.points, hret]
  | some a =>
      cases hci : gs.pts? gs.ci with
      | none =>
          simp only [GlobalState.points, hret, hci, pts?_setPts]
          rfl
      | some b =>
          dsimp only
          rw [points_insertTuples (h.pts _ _ hci)]
          simp [GlobalState.points, hret, hci]

theorem updateTaintRet_merge (h : Valid gs) (ret : Value) :
    (updateTaintRet gs ret).taints = gs.taints.merge ret gs.ci := by
  unfold updateTaintRet merge
  cases hret : gs.tMap.lookup ret with
  | none => simp [GlobalState.taints, hret]
  | some a =>
      cases hci : gs.tMap.lookup gs.ci with
      | none =>
          simp only [GlobalState.taints, hret, hci, lookup_setTaint]
          rfl
      | some b =>
          dsimp only
          rw [taints_insertInsts (h.taints _ _ hci)]
          simp [GlobalState.taints, hret, hci]

end Maps

/-! ## Returned values -/

/-- The calls other than `act`. -/
def Module.otherCalls (m : Module) (act : Value) : Set Value := {c | c ∈ m.calls ∧ c ≠ act}

/-- The tuples and taints of a returned value come to the entries of the
call the function was entered by, and to those of no other call. -/
structure ReturnsTo (m : Module) (e : Processed) (v : Value) : Prop where
  tuples : MergedInto e.gs.points (dispatchClients m e.gs e.i).points v e.act (m.otherCalls e.act)
  taints : MergedInto e.gs.taints (dispatchClients m e.gs e.i).taints v e.act (m.otherCalls e.act)

section Returns

variable {m : Module} {e : Processed} {v : Value}

theorem dispatchClients_ret (hvalid : Valid e.gs) (hret : e.i.kind = .ret v) :
    (dispatchClients m e.gs e.i).points = e.gs.points.merge v e.gs.ci ∧
      (dispatchClients m e.gs e.i).taints = e.gs.taints.merge v e.gs.ci := by
  have hdispatch : dispatchClients m e.gs e.i = updateTaintRet (updatePtoRet e.gs v) v := by
    unfold dispatchClients pointsToAnalysis taintAnalysis
    rw [hret]
  have hvalid' : Valid (updatePtoRet e.gs v) := by
    have hvalid' := hvalid.pointsToAnalysis m e.i
    unfold pointsToAnalysis at hvalid'
    rwa [hret] at hvalid'
  have hsame : (updateTaintRet (updatePtoRet e.gs v) v).points = (updatePtoRet e.gs v).points := by
    unfold updateTaintRet
    split <;> rfl
  have htaints : (updatePtoRet e.gs v).taints = e.gs.taints ∧ (updatePtoRet e.gs v).ci = e.gs.ci := by
    unfold updatePtoRet
    split <;> exact ⟨rfl, rfl⟩
  rw [hdispatch, hsame, updatePtoRet_merge hvalid, updateTaintRet_merge hvalid', htaints.1, htaints.2]
  exact ⟨rfl, rfl⟩

end Returns

/-- Before the function has entered another, a returned value comes to the
call the function was entered by, and to those that share an entry with it
and must have what comes already. After that nothing new may come, neither
to this call nor to the one that is current. -/
theorem returns_iff (m : Module) (main : Function) (hmain : m.function? "main" = some main)
    (fuel : Nat) (e : Processed) (he : e ∈ processed m fuel .null (initializeGS .empty m) main)
    (v : Value) (hret : e.i.kind = .ret v) :
    ReturnsTo m e v ↔
      (e.called = false ∧
        (∀ c ∈ m.otherCalls e.act, e.gs.points.Shares c e.act →
          e.gs.points.contents v ⊆ e.gs.points.contents e.act) ∧
        (∀ c ∈ m.otherCalls e.act, e.gs.taints.Shares c e.act →
          e.gs.taints.contents v ⊆ e.gs.taints.contents e.act)) ∨
      (e.called = true ∧
        (e.gs.points.contents v ⊆ e.gs.points.contents e.act ∧
          e.gs.points.contents v ⊆ e.gs.points.contents e.gs.ci) ∧
        (e.gs.taints.contents v ⊆ e.gs.taints.contents e.act ∧
          e.gs.taints.contents v ⊆ e.gs.taints.contents e.gs.ci)) := by
  have hok := processed_spec fuel .null _ main (List.mem_of_find?_eq_some hmain) (within_main m) e he
  obtain ⟨hpoints, htaints⟩ := dispatchClients_ret (m := m) hok.valid hret
  have hiff : ReturnsTo m e v ↔
      MergedInto e.gs.points (e.gs.points.merge v e.gs.ci) v e.act (m.otherCalls e.act) ∧
        MergedInto e.gs.taints (e.gs.taints.merge v e.gs.ci) v e.act (m.otherCalls e.act) := by
    rw [← hpoints, ← htaints]
    exact ⟨fun h => ⟨h.tuples, h.taints⟩, fun h => ⟨h.1, h.2⟩⟩
  rw [hiff]
  cases hcalled : e.called with
  | false =>
      have hne : e.act ∉ m.otherCalls e.act := fun h => h.2 rfl
      rw [hok.own hcalled, merged_here_iff hne, merged_here_iff hne]
      simp
  | true =>
      obtain ⟨hci, hcalls⟩ := hok.other hcalled
      have hmem : e.gs.ci ∈ m.otherCalls e.act := ⟨hcalls, hci⟩
      rw [merged_elsewhere_iff hmem hci.symm, merged_elsewhere_iff hmem hci.symm]
      simp

def mainFunction : Function := ⟨"main", 0, [[⟨"main", 0, .call (some "g") []⟩]], [[0]]⟩

/-- `main` calls `g`, which returns the address of a variable of its own,
after the given calls. -/
def returnModule (calls : List Inst) : Module where
  globals := []
  functions :=
    [mainFunction, ⟨"h", 0, [[⟨"h", 0, .ret (.constant 0)⟩]], [[0]]⟩,
     ⟨"g", 0, [⟨"g", 0, .alloca (.int 32)⟩ :: calls ++ [⟨"g", 1, .ret (.inst "g" 0)⟩]], [[0]]⟩]
  annotations := []

theorem returns_first : ∃ e ∈ processed (returnModule []) 3 .null
    (initializeGS .empty (returnModule [])) mainFunction,
    e.i.kind = .ret (.inst "g" 0) ∧ e.act = .inst "main" 0 ∧
      ReturnsTo (returnModule []) e (.inst "g" 0) := by
  refine ⟨_, List.mem_of_getElem? (i := 1) rfl, rfl, rfl, ?_⟩
  refine (returns_iff (returnModule []) mainFunction rfl 3 _ (List.mem_of_getElem? (i := 1) rfl) _
    rfl).mpr (.inl ⟨rfl, ?_, ?_⟩)
  all_goals
    rintro c ⟨⟨i, hi, hcall, rfl⟩, hne⟩
    exact absurd (by revert i; decide) hne

/-- `g` has called `h`: its result goes to that call. -/
theorem return_misses_call : ¬ ∀ (m : Module) (main : Function), m.function? "main" = some main →
    ∀ fuel, ∀ e ∈ processed m fuel .null (initializeGS .empty m) main, ∀ v,
      e.i.kind = .ret v → e.act ≠ .null → ReturnsTo m e v := by
  intro h
  let m := returnModule [⟨"g", 2, .call (some "h") []⟩]
  have hreturns := (h m mainFunction rfl 4 _ (List.mem_of_getElem? (i := 2) rfl) _ rfl
    (by decide)).tuples.into
  rw [contents_points, contents_points, contents_points] at hreturns
  have hmem : (⟨0, 1⟩ : AliasObjectTuple) ∈ _ := Set.ext_iff.mp hreturns ⟨0, 1⟩ |>.mpr (.inr ?_)
  · revert hmem
    show ¬ _ ∈ GlobalState.tuplesOf _ _
    decide
  · show _ ∈ GlobalState.tuplesOf _ _
    decide

/-! ## What an instruction does to the other values -/

/-- The value whose set a rule inserts into, and what it inserts. -/
def inPlace (gs : GlobalState) (i : Inst) : Option (Value × List AliasObjectTuple) :=
  match i.kind with
  | .binOp op1 op2 => some (i.self, gs.tuplesOf op1 ++ gs.tuplesOf op2)
  | .ret v => some (gs.ci, gs.tuplesOf v)
  | _ => none

/-- What a value gets because it shares this set. -/
def sharedTuples (gs : GlobalState) (i : Inst) (w : Value) : Set AliasObjectTuple :=
  {t | ∃ k ts, inPlace gs i = some (k, ts) ∧ gs.points.Shares w k ∧ t ∈ ts}

section Frame

variable {m : Module} {gs gs' : GlobalState} {w : Value}

/-- The sets there were are as they were. -/
theorem contents_of_appended (hvalid : Valid gs) (hpts : gs'.pts? w = gs.pts? w)
    (h : gs.tupleSets <+: gs'.tupleSets) : gs'.points.contents w = gs.points.contents w := by
  cases hr : gs.pts? w with
  | none => rw [contents_of_none (s := gs.points) hr, contents_of_none (hpts.trans hr)]
  | some r =>
      rw [contents_of_ref (s := gs.points) hr, contents_of_ref (hpts.trans hr)]
      obtain ⟨l, hl⟩ := h
      ext t
      show t ∈ gs'.tupleSet r ↔ t ∈ gs.tupleSet r
      rw [GlobalState.tupleSet, GlobalState.tupleSet, ← hl,
        List.getElem?_append_left (hvalid.pts w r hr)]

theorem handleStoreGEP_appended (m : Module) (gs : GlobalState) (op : Value) :
    gs.tupleSets <+: (handleStoreGEP m gs op).tupleSets := by
  unfold handleStoreGEP
  split
  · unfold handlePtoGEPOperator
    split
    · exact List.prefix_rfl
    · split
      · exact List.prefix_rfl
      · split
        · exact List.prefix_rfl
        · exact List.prefix_append _ _
        · exact List.prefix_rfl
  · exact List.prefix_rfl

theorem updatePtoLoad_appended (gs : GlobalState) (self op : Value) :
    gs.tupleSets <+: (updatePtoLoad gs self op).tupleSets := by
  unfold updatePtoLoad
  split
  · exact List.prefix_rfl
  · split
    · exact List.prefix_rfl
    · exact List.prefix_append _ _

theorem updatePtoStore_appended (m : Module) (gs : GlobalState) (v op : Value) :
    gs.tupleSets <+: (updatePtoStore m gs v op).tupleSets := by
  by_cases hv : gs.pMap.lookup v = none
  · have hsame : updatePtoStore m gs v op = gs := by rw [updatePtoStore, if_pos hv]
    exact hsame.symm ▸ List.prefix_rfl
  · obtain ⟨objects, hstore⟩ := updatePtoStore_rest (m := m) op hv
    rw [hstore]
    exact handleStoreGEP_appended m gs op

theorem updatePtoGEP_appended (gs : GlobalState) (self op : Value) (pointee : Shape)
    (idx : List (Option Nat)) : gs.tupleSets <+: (updatePtoGEP gs self op pointee idx).tupleSets := by
  unfold updatePtoGEP
  split
  · exact List.prefix_rfl
  · split
    · exact List.prefix_rfl
    · exact List.prefix_append _ _
    · exact List.prefix_rfl

/-- A rule that inserts nowhere only adds sets. -/
theorem pointsToAnalysis_appended (m : Module) (gs : GlobalState) (i : Inst)
    (h : inPlace gs i = none) : gs.tupleSets <+: (pointsToAnalysis m gs i).tupleSets := by
  unfold inPlace at h
  unfold pointsToAnalysis
  cases hkind : i.kind with
  | alloca type => exact List.prefix_append _ _
  | binOp op1 op2 => simp [hkind] at h
  | load op => exact updatePtoLoad_appended gs _ op
  | store v op => exact updatePtoStore_appended m gs v op
  | gep op pointee idx => exact updatePtoGEP_appended gs _ op pointee idx
  | ret v => simp [hkind] at h
  | bitCast op => exact List.prefix_rfl
  | call callee args => exact List.prefix_rfl
  | other => exact List.prefix_rfl

theorem updatePtoBinOp_contents (hvalid : Valid gs) {self : Value} (op1 op2 : Value)
    (hw : w ≠ self) :
    (updatePtoBinOp gs self op1 op2).points.contents w = gs.points.contents w ∪
      {t | gs.points.Shares w self ∧ t ∈ gs.tuplesOf op1 ++ gs.tuplesOf op2} := by
  unfold updatePtoBinOp
  cases hself : gs.pts? self with
  | none =>
      have hno : ¬ gs.points.Shares w self := by
        rintro ⟨r, -, hr⟩
        cases hself.symm.trans hr
      have hoff : Off [self] gs (gs.newPts self
          (setInsertAll (setInsertAll [] (gs.tuplesOf op1)) (gs.tuplesOf op2))) := .newPts _ _
      have hpts := hoff.pts? (v := w) (by simpa using hw)
      dsimp only
      rw [contents_of_appended hvalid hpts (List.prefix_append _ _)]
      simp [hno]
  | some r =>
      have hr := hvalid.pts self r hself
      have hfirst : (gs.insertTuples r (gs.tuplesOf op1)).points.ref self = some r := hself
      have hshares : (gs.insertTuples r (gs.tuplesOf op1)).points.Shares w self ↔
          gs.points.Shares w self := .rfl
      have hlen : r < (gs.insertTuples r (gs.tuplesOf op1)).tupleSets.length := by
        show r < (gs.tupleSets.modify r _).length
        rwa [List.length_modify]
      dsimp only
      rw [points_insertTuples hlen, contents_addTo hfirst, points_insertTuples hr,
        contents_addTo (s := gs.points) hself]
      ext t
      simp only [← points_insertTuples hr, hshares, Set.mem_union, Set.mem_ofPred_eq,
        List.mem_append]
      tauto

end Frame

/-- A value that the instruction does not define keeps its tuples; it gets
those that are inserted into its set because it shares this. -/
theorem points_frame (m : Module) (main : Function) (hmain : m.function? "main" = some main)
    (fuel : Nat) (e : Processed) (he : e ∈ processed m fuel .null (initializeGS .empty m) main)
    (w : Value) (hw : w ∉ touched m e.gs.ci e.i) :
    (pointsToAnalysis m e.gs e.i).points.contents w =
      e.gs.points.contents w ∪ sharedTuples e.gs e.i w := by
  have hok := processed_spec fuel .null _ main (List.mem_of_find?_eq_some hmain) (within_main m) e he
  cases hplace : inPlace e.gs e.i with
  | none =>
      have hpts := (pointsToAnalysis_off m e.gs e.i).pts? hw
      rw [contents_of_appended hok.valid hpts (pointsToAnalysis_appended m e.gs e.i hplace)]
      simp [sharedTuples, hplace]
  | some p =>
      unfold sharedTuples
      unfold inPlace at hplace
      unfold touched at hw
      unfold pointsToAnalysis
      split at hplace
      · rename_i op1 op2 hkind
        cases hplace
        rw [hkind] at hw ⊢
        dsimp only
        rw [updatePtoBinOp_contents hok.valid op1 op2 (by simpa using hw)]
        simp [inPlace, hkind]
      · rename_i v hkind
        cases hplace
        rw [hkind] at hw ⊢
        dsimp only
        rw [updatePtoRet_merge hok.valid, contents_merge, contents_points]
        have hne : w ≠ e.gs.ci := by simpa using hw
        simp [inPlace, hkind, hne, contents_points]
      · cases hplace

/-- `g` returns the address of one of two variables. -/
def twoReturns : Module where
  globals := []
  functions :=
    [mainFunction,
     ⟨"g", 0,
      [[⟨"g", 0, .alloca (.int 32)⟩, ⟨"g", 1, .alloca (.int 32)⟩, ⟨"g", 2, .other⟩],
       [⟨"g", 3, .ret (.inst "g" 0)⟩], [⟨"g", 4, .ret (.inst "g" 1)⟩]], [[2], [1], [0]]⟩]
  annotations := []

theorem points_frame_return : ∃ e ∈ processed twoReturns 3 .null
    (initializeGS .empty twoReturns) mainFunction, e.i.kind = .ret (.inst "g" 1) ∧
      (pointsToAnalysis twoReturns e.gs e.i).points.contents (.inst "g" 0) =
        e.gs.points.contents (.inst "g" 0) ∪ sharedTuples e.gs e.i (.inst "g" 0) :=
  ⟨_, List.mem_of_getElem? (i := 4) rfl, rfl,
    points_frame twoReturns mainFunction rfl 3 _ (List.mem_of_getElem? (i := 4) rfl) _ (by decide)⟩

/-- The call shares the set of the first variable when the address of the
second is returned. -/
theorem return_reaches_variable : ¬ ∀ (m : Module) (main : Function),
    m.function? "main" = some main → ∀ fuel,
      ∀ e ∈ processed m fuel .null (initializeGS .empty m) main, ∀ w,
        w ∉ touched m e.gs.ci e.i →
          (pointsToAnalysis m e.gs e.i).points.contents w = e.gs.points.contents w := by
  intro h
  have hsame := h twoReturns mainFunction rfl 3 _ (List.mem_of_getElem? (i := 4) rfl)
    (.inst "g" 0) (by decide)
  rw [contents_points, contents_points] at hsame
  have hmem : (⟨0, 3⟩ : AliasObjectTuple) ∈ _ := Set.ext_iff.mp hsame ⟨0, 3⟩ |>.mp ?_
  · revert hmem
    show ¬ _ ∈ GlobalState.tuplesOf _ _
    decide
  · show _ ∈ GlobalState.tuplesOf _ _
    decide

end Nova

end Oat
