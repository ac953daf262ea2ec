import Oat.NovaCalls
import Oat.NovaCells
import Oat.SharedSets

/-!
# The instructions a traversal dispatches

`processed` lists the instructions that a traversal hands to the two
analyses, in order, each with the state before it, the call its function
was entered by, and whether that function had entered another before it.

In each of these states the maps have references of sets that are there
(`Valid`), and the current call is the one of the activation until the
activation follows a call, and from then on another (`processed_spec`).
-/

namespace Oat

namespace Nova

/-! ## References -/

theorem pts?_setPts (gs : GlobalState) (v : Value) (r : Option TupleSetRef) :
    (gs.setPts v r).pts? = Function.update gs.pts? v r := by
  funext w
  rw [Function.update_apply]
  unfold GlobalState.pts? GlobalState.setPts
  by_cases hw : w = v
  · rw [if_pos hw, hw, AList.lookup_insert]
    rfl
  · rw [if_neg hw, AList.lookup_insert_ne hw]

theorem lookup_setTaint (gs : GlobalState) (v : Value) (r : InstSetRef) :
    (fun w => (gs.setTaint v r).tMap.lookup w) =
      Function.update (fun w => gs.tMap.lookup w) v (some r) := by
  funext w
  rw [Function.update_apply]
  unfold GlobalState.setTaint
  by_cases hw : w = v
  · rw [if_pos hw, hw, AList.lookup_insert]
  · rw [if_neg hw, AList.lookup_insert_ne hw]

theorem pts?_setPts_cases {gs : GlobalState} {v w : Value} {r : Option TupleSetRef}
    {r' : TupleSetRef} (h : (gs.setPts v r).pts? w = some r') :
    r = some r' ∨ gs.pts? w = some r' := by
  rw [pts?_setPts, Function.update_apply] at h
  split at h
  · exact .inl h
  · exact .inr h

theorem lookup_setTaint_cases {gs : GlobalState} {v w : Value} {r r' : InstSetRef}
    (h : (gs.setTaint v r).tMap.lookup w = some r') : r = r' ∨ gs.tMap.lookup w = some r' := by
  rw [congrFun (lookup_setTaint gs v r) w, Function.update_apply] at h
  split at h
  · exact .inl (Option.some.inj h)
  · exact .inr h

/-- The sets that the maps refer to are there. -/
structure Valid (gs : GlobalState) : Prop where
  pts : ∀ v r, gs.pts? v = some r → r < gs.tupleSets.length
  taints : ∀ v r, gs.tMap.lookup v = some r → r < gs.instSets.length

namespace Valid

variable {gs : GlobalState}

theorem empty : Valid .empty := by
  refine ⟨fun v r h => ?_, fun v r h => ?_⟩
  · rw [GlobalState.pts?, GlobalState.empty, AList.lookup_empty] at h
    cases h
  · rw [GlobalState.empty, AList.lookup_empty] at h
    cases h

theorem setPts (h : Valid gs) (v : Value) {r : Option TupleSetRef}
    (hr : ∀ r', r = some r' → r' < gs.tupleSets.length) : Valid (gs.setPts v r) :=
  ⟨fun w r' hw => (pts?_setPts_cases hw).elim (hr r') (h.pts w r'), h.taints⟩

theorem newPts (h : Valid gs) (v : Value) (ts : List AliasObjectTuple) : Valid (gs.newPts v ts) := by
  refine ⟨fun w r hw => ?_, h.taints⟩
  show r < (gs.tupleSets ++ [ts]).length
  rw [List.length_append]
  rcases pts?_setPts_cases (r := some gs.tupleSets.length) hw with hr | hr
  · cases hr
    exact Nat.lt_succ_self _
  · exact Nat.lt_succ_of_lt (h.pts w r hr)

theorem insertTuples (h : Valid gs) (r : TupleSetRef) (ts : List AliasObjectTuple) :
    Valid (gs.insertTuples r ts) := by
  refine ⟨fun w r' hw => ?_, h.taints⟩
  show r' < (gs.tupleSets.modify r _).length
  rw [List.length_modify]
  exact h.pts w r' hw

theorem setTaint (h : Valid gs) (v : Value) {r : InstSetRef} (hr : r < gs.instSets.length) :
    Valid (gs.setTaint v r) :=
  ⟨h.pts, fun w r' hw => (lookup_setTaint_cases hw).elim (fun heq => heq ▸ hr) (h.taints w r')⟩

theorem newTaint (h : Valid gs) (v : Value) (is : List Value) : Valid (gs.newTaint v is) := by
  refine ⟨h.pts, fun w r hw => ?_⟩
  show r < (gs.instSets ++ [is]).length
  rw [List.length_append]
  rcases lookup_setTaint_cases (r := gs.instSets.length) hw with rfl | hr
  · exact Nat.lt_succ_self _
  · exact Nat.lt_succ_of_lt (h.taints w r hr)

theorem insertInsts (h : Valid gs) (r : InstSetRef) (is : List Value) :
    Valid (gs.insertInsts r is) := by
  refine ⟨h.pts, fun w r' hw => ?_⟩
  show r' < (gs.instSets.modify r _).length
  rw [List.length_modify]
  exact h.taints w r' hw

theorem setObjects (h : Valid gs) (objects : List AliasObject) :
    Valid { gs with objects := objects } := ⟨h.pts, h.taints⟩

theorem newObject (h : Valid gs) (v : Value) (type : Ty) : Valid (gs.newObject v type) :=
  (h.setObjects _).newPts v _

theorem setPts_of_pts? (h : Valid gs) (v : Value) {w : Value} {r : TupleSetRef}
    (hr : gs.pts? w = some r) : Valid (gs.setPts v (some r)) :=
  h.setPts v fun _ heq => Option.some.inj heq ▸ h.pts w r hr

theorem handleStoreGEP (h : Valid gs) (m : Module) (op : Value) :
    Valid (handleStoreGEP m gs op) := by
  unfold Nova.handleStoreGEP
  split
  · unfold handlePtoGEPOperator
    split
    · exact h
    · split
      · exact h
      · rename_i hr
        split
        · exact h.setPts_of_pts? _ hr
        · exact h.newPts _ _
        · exact h
  · exact h

theorem updatePtoBinOp (h : Valid gs) (self op1 op2 : Value) :
    Valid (updatePtoBinOp gs self op1 op2) := by
  unfold Nova.updatePtoBinOp
  dsimp only
  split
  · exact (h.insertTuples _ _).insertTuples _ _
  · exact h.newPts _ _

theorem updatePtoLoad (h : Valid gs) (self op : Value) : Valid (updatePtoLoad gs self op) := by
  unfold Nova.updatePtoLoad
  split
  · exact h
  · split
    · exact h
    · exact h.newPts _ _

theorem updatePtoStore (h : Valid gs) (m : Module) (v op : Value) :
    Valid (updatePtoStore m gs v op) := by
  by_cases hv : gs.pMap.lookup v = none
  · rwa [Nova.updatePtoStore, if_pos hv]
  · obtain ⟨objects, hstore⟩ := updatePtoStore_rest (m := m) op hv
    rw [hstore]
    exact (h.handleStoreGEP m op).setObjects objects

theorem updatePtoGEP (h : Valid gs) (self op : Value) (pointee : Shape) (idx : List (Option Nat)) :
    Valid (updatePtoGEP gs self op pointee idx) := by
  unfold Nova.updatePtoGEP
  split
  · exact h
  · rename_i hr
    split
    · exact h.setPts_of_pts? _ hr
    · exact h.newPts _ _
    · exact h.setPts_of_pts? _ hr

theorem updatePtoRet (h : Valid gs) (v : Value) : Valid (updatePtoRet gs v) := by
  unfold Nova.updatePtoRet
  split
  · exact h.insertTuples _ _
  · rename_i hr _
    exact h.setPts_of_pts? _ hr
  · exact h

theorem pointsToAnalysis (h : Valid gs) (m : Module) (i : Inst) : Valid (pointsToAnalysis m gs i) := by
  unfold Nova.pointsToAnalysis
  cases i.kind with
  | alloca type => exact h.newObject _ type
  | binOp op1 op2 => exact h.updatePtoBinOp _ op1 op2
  | load op => exact h.updatePtoLoad _ op
  | store v op => exact h.updatePtoStore m v op
  | gep op pointee idx => exact h.updatePtoGEP _ op pointee idx
  | ret v => exact h.updatePtoRet v
  | bitCast op => exact h.setPts _ fun r hr => h.pts op r hr
  | call callee args => exact h
  | other => exact h

theorem loadTaints (bis : List Value) (ts : List AliasObjectTuple) {gs : GlobalState}
    (h : Valid gs) : Valid (loadTaints bis ts gs).2 := by
  induction ts generalizing bis gs with
  | nil => exact h
  | cons t ts ih =>
      unfold Nova.loadTaints
      split
      · exact h
      · exact ih _ (h.setObjects _)

theorem updateTaintBinOp (h : Valid gs) (self op1 op2 : Value) :
    Valid (updateTaintBinOp gs self op1 op2) := by
  unfold Nova.updateTaintBinOp
  dsimp only
  split
  · exact ((h.insertInsts _ _).insertInsts _ _).insertInsts _ _
  · exact h.newTaint _ _

theorem updateTaintLoad (h : Valid gs) (self op : Value) : Valid (updateTaintLoad gs self op) := by
  unfold Nova.updateTaintLoad
  split
  · exact h
  · rename_i ts _
    have hloaded := loadTaints [] (gs.tupleSet ts) h
    split
    · rename_i heq
      rwa [heq] at hloaded
    · rename_i heq
      rw [heq] at hloaded
      exact hloaded.newTaint _ _

theorem updateTaintStore (h : Valid gs) (m : Module) (self v op : Value) :
    Valid (updateTaintStore m gs self v op) := by
  have hgep := h.handleStoreGEP m op
  unfold Nova.updateTaintStore
  dsimp only
  split
  · exact hgep
  · obtain ⟨objects, hrest⟩ := storeTaints_rest _ _ _
    rw [hrest]
    exact hgep.setObjects objects

theorem updateTaintRet (h : Valid gs) (v : Value) : Valid (updateTaintRet gs v) := by
  unfold Nova.updateTaintRet
  split
  · exact h.insertInsts _ _
  · rename_i hr _
    exact h.setTaint _ (h.taints v _ hr)
  · exact h

theorem updateTaintBitCast (h : Valid gs) (self op : Value) :
    Valid (updateTaintBitCast gs self op) := by
  unfold Nova.updateTaintBitCast
  split
  · rename_i is hr
    have hinsert := h.insertInsts is [self]
    exact hinsert.setTaint self (hinsert.taints op is hr)
  · exact h.newTaint _ _

theorem taintAnalysis (h : Valid gs) (m : Module) (i : Inst) : Valid (taintAnalysis m gs i) := by
  unfold Nova.taintAnalysis
  cases i.kind with
  | alloca type => exact h
  | binOp op1 op2 => exact h.updateTaintBinOp _ op1 op2
  | load op => exact h.updateTaintLoad _ op
  | store v op => exact h.updateTaintStore m _ v op
  | gep op pointee idx => exact h.newTaint _ _
  | ret v => exact h.updateTaintRet v
  | bitCast op => exact h.updateTaintBitCast _ op
  | call callee args => exact h
  | other => exact h

theorem dispatchClients (h : Valid gs) (m : Module) (i : Inst) : Valid (dispatchClients m gs i) :=
  (h.pointsToAnalysis m i).taintAnalysis m i

theorem initializeParam (h : Valid gs) (var arg : Value) : Valid (initializeParam gs var arg) := by
  unfold Nova.initializeParam
  split
  · rename_i ts is hts his
    refine Valid.setTaint (h.setPts var fun r hr => h.pts arg r ?_) var (h.taints arg is his)
    rw [GlobalState.pts?, hts, hr]
    rfl
  · exact h

theorem entered {v : Visit} (h : Valid v.gs) : Valid v.entered := by
  have hcall : Valid { v.gs with ci := v.call } := ⟨h.pts, h.taints⟩
  exact assign_inv hcall fun _ p _ hgs => hgs.initializeParam p.1 p.2

theorem initializeGS (m : Module) : Valid (initializeGS .empty m) := by
  apply List.foldlRecOn (motive := Valid)
  · exact .empty
  · exact fun gs hgs g _ => (hgs.newObject _ g.2).newTaint _ _

end Valid

/-! ## What a traversal does to the current call -/

/-- The call instructions of the program. -/
def Module.calls (m : Module) : Set Value := {c | ∃ i ∈ m.insts, i.isCall = true ∧ i.self = c}

/-- The current call is as before, or one followed since. -/
structure Moved (m : Module) (gs gs' : GlobalState) : Prop where
  valid : Valid gs → Valid gs'
  vMap : gs.vMap ⊆ gs'.vMap
  ci : gs'.ci = gs.ci ∨ gs'.ci ∉ gs.vMap ∧ gs'.ci ∈ m.calls

theorem Moved.refl (m : Module) (gs : GlobalState) : Moved m gs gs :=
  ⟨id, List.Subset.refl _, .inl rfl⟩

theorem Moved.trans {m : Module} {a b c : GlobalState} (h₁ : Moved m a b) (h₂ : Moved m b c) :
    Moved m a c := by
  refine ⟨h₂.valid ∘ h₁.valid, List.Subset.trans h₁.vMap h₂.vMap, ?_⟩
  rcases h₂.ci with hci | ⟨hnew, hcall⟩
  · rw [hci]
    exact h₁.ci
  · exact .inr ⟨fun hmem => hnew (h₁.vMap hmem), hcall⟩

section Moved

variable {m : Module} {gs gs' : GlobalState} {i : Inst}

theorem moved_of_not_followed {traverse : GlobalState → Function → Option GlobalState}
    (hf : followed m gs i = none) (h : visitInst m traverse gs i = some gs') : Moved m gs gs' := by
  rcases visitInst_cases traverse hf with ⟨-, hvisit⟩ | ⟨-, vMap, senVarSet, hvMap, hvisit⟩
  · obtain rfl := Option.some.inj (hvisit.symm.trans h)
    have hoff := dispatchClients_off m gs i
    exact ⟨fun hgs => hgs.dispatchClients m i, hoff.vMap ▸ List.Subset.refl _, .inl hoff.ci⟩
  · obtain rfl := Option.some.inj (hvisit.symm.trans h)
    exact ⟨fun hgs => ⟨hgs.pts, hgs.taints⟩, fun c hc => (hvMap c).mpr (.inr hc), .inl rfl⟩

/-- In a body that is entered, and after it, the current call is a new one. -/
theorem moved_of_followed {v : Visit} (hi : i ∈ m.insts) (hf : followed m gs i = some v)
    (h : Moved m v.entered gs') :
    Moved m gs gs' ∧ gs'.ci ∉ gs.vMap ∧ gs'.ci ∈ m.calls := by
  obtain ⟨hgs, hcall, hnew, -, callee, args, hkind⟩ := followed_spec hf
  have hvMap : gs.vMap ⊆ v.entered.vMap := by
    rw [v.entered_vMap, hgs]
    exact List.subset_cons_self _ _
  have hci : gs'.ci ∉ gs.vMap ∧ gs'.ci ∈ m.calls := by
    rcases h.ci with hci | ⟨hci, hcalls⟩
    · rw [hci, v.entered_ci, hcall]
      exact ⟨hnew, i, hi, by rw [Inst.isCall, hkind], rfl⟩
    · exact ⟨fun hmem => hci (hvMap hmem), hcalls⟩
  refine ⟨⟨fun hvalid => h.valid (Valid.entered ?_), List.Subset.trans hvMap h.vMap, .inr hci⟩, hci⟩
  rw [hgs]
  exact ⟨hvalid.pts, hvalid.taints⟩

theorem moved_insts {traverse : GlobalState → Function → Option GlobalState}
    (htraverse : ∀ gs gs' f, f ∈ m.functions → traverse gs f = some gs' → Moved m gs gs')
    {is : List Inst} (hsub : ∀ i ∈ is, i ∈ m.insts)
    (h : is.foldlM (visitInst m traverse) gs = some gs') : Moved m gs gs' := by
  refine foldlM_rel (.refl m) (fun _ _ _ => .trans) (fun i hi gs gs₁ hgs₁ => ?_) h
  cases hv : followed m gs i with
  | none => exact moved_of_not_followed hv hgs₁
  | some v =>
      rw [visitInst_of_followed _ hv] at hgs₁
      have hmoved := htraverse v.entered gs₁ v.f (followed_spec hv).2.2.2.1 hgs₁
      exact (moved_of_followed (hsub i hi) hv hmoved).1

end Moved

theorem traversal_moved (m : Module) (fuel : Nat) (gs gs' : GlobalState) (f : Function)
    (hf : f ∈ m.functions) (h : traversal m fuel gs f = some gs') : Moved m gs gs' := by
  induction fuel generalizing gs gs' f with
  | zero => cases h
  | succ fuel ih =>
      rw [traversal_succ] at h
      exact moved_insts ih (schedule_subset hf) h

/-! ## The instructions dispatched -/

/-- `act` is the call that the function was entered by, `called` whether
the function has entered another before. -/
structure Processed where
  act : Value
  called : Bool
  gs : GlobalState
  i : Inst

def processedIn (m : Module) (traverse : GlobalState → Function → Option GlobalState)
    (inner : Visit → List Processed) (act : Value) :
    Bool → GlobalState → List Inst → List Processed
  | _, _, [] => []
  | called, gs, i :: is =>
      (match followed m gs i with
        | some v => inner v
        | none => if i.isCall then [] else [⟨act, called, gs, i⟩]) ++
        match visitInst m traverse gs i with
        | some gs' => processedIn m traverse inner act (called || (followed m gs i).isSome) gs' is
        | none => []

/-- What `traversal` dispatches. -/
def processed (m : Module) : Nat → Value → GlobalState → Function → List Processed
  | 0, _, _, _ => []
  | fuel + 1, act, gs, f =>
      processedIn m (traversal m fuel) (fun v => processed m fuel v.call v.entered v.f) act false
        gs (schedule f)

/-- What holds before each instruction. -/
structure Processed.Ok (m : Module) (e : Processed) : Prop where
  valid : Valid e.gs
  inst : e.i ∈ m.insts
  isCall : e.i.isCall = false
  act : e.act = .null ∨ e.act ∈ m.calls
  own : e.called = false → e.gs.ci = e.act
  other : e.called = true → e.gs.ci ≠ e.act ∧ e.gs.ci ∈ m.calls

/-- What holds within an activation: the call it was entered by is marked. -/
structure Within (m : Module) (act : Value) (called : Bool) (gs : GlobalState) : Prop where
  valid : Valid gs
  marked : act = .null ∨ act ∈ gs.vMap ∧ act ∈ m.calls
  own : called = false → gs.ci = act
  other : called = true → gs.ci ≠ act ∧ gs.ci ∈ m.calls

section Run

variable {m : Module} {act : Value} {called : Bool} {gs gs' : GlobalState} {i : Inst}

theorem ne_null_of_mem_calls {c : Value} (h : c ∈ m.calls) : c ≠ .null := by
  obtain ⟨i, -, -, rfl⟩ := h
  simp [Inst.self]

theorem Within.ne_act (h : Within m act called gs) {c : Value} (hc : c ∈ m.calls)
    (hnew : c ∉ gs.vMap) : c ≠ act := by
  rintro rfl
  rcases h.marked with hact | hact
  · exact ne_null_of_mem_calls hc hact
  · exact hnew hact.1

/-- A call that is followed leaves the activation with another current call. -/
theorem Within.step (h : Within m act called gs) (hi : i ∈ m.insts)
    {traverse : GlobalState → Function → Option GlobalState}
    (htraverse : ∀ v gs', followed m gs i = some v → traverse v.entered v.f = some gs' →
      Moved m v.entered gs')
    (hvisit : visitInst m traverse gs i = some gs') :
    Within m act (called || (followed m gs i).isSome) gs' := by
  have hmarked : gs.vMap ⊆ gs'.vMap → act = .null ∨ act ∈ gs'.vMap ∧ act ∈ m.calls :=
    fun hsub => h.marked.imp_right fun hact => ⟨hsub hact.1, hact.2⟩
  cases hf : followed m gs i with
  | none =>
      have hmoved := moved_of_not_followed hf hvisit
      have hci : gs'.ci = gs.ci := by
        rcases visitInst_cases traverse hf with ⟨-, heq⟩ | ⟨-, vMap, senVarSet, -, heq⟩
        · obtain rfl := Option.some.inj (heq.symm.trans hvisit)
          exact (dispatchClients_off m gs i).ci
        · obtain rfl := Option.some.inj (heq.symm.trans hvisit)
          rfl
      refine ⟨hmoved.valid h.valid, hmarked hmoved.vMap, fun hno => ?_, fun hyes => ?_⟩
      · rw [hci]
        exact h.own (by simpa using hno)
      · rw [hci]
        exact h.other (by simpa using hyes)
  | some v =>
      rw [visitInst_of_followed _ hf] at hvisit
      obtain ⟨hmoved, hnew, hcall⟩ := moved_of_followed hi hf (htraverse v gs' hf hvisit)
      refine ⟨hmoved.valid h.valid, hmarked hmoved.vMap, fun hno => ?_, fun _ => ?_⟩
      · simp at hno
      · exact ⟨h.ne_act hcall hnew, hcall⟩

theorem Within.enter (h : Within m act called gs) (hi : i ∈ m.insts) {v : Visit}
    (hf : followed m gs i = some v) : Within m v.call false v.entered := by
  obtain ⟨hgs, hcall, -, -, callee, args, hkind⟩ := followed_spec hf
  have hvalid : Valid v.gs := by
    rw [hgs]
    exact ⟨h.valid.pts, h.valid.taints⟩
  refine ⟨hvalid.entered, .inr ⟨?_, i, hi, by rw [Inst.isCall, hkind], hcall.symm⟩,
    fun _ => v.entered_ci, fun hno => nomatch hno⟩
  rw [v.entered_vMap, hgs, hcall]
  exact List.mem_cons_self ..

theorem processedIn_spec {traverse : GlobalState → Function → Option GlobalState}
    (htraverse : ∀ gs gs' f, f ∈ m.functions → traverse gs f = some gs' → Moved m gs gs')
    {inner : Visit → List Processed}
    (hinner : ∀ v : Visit, v.f ∈ m.functions → Within m v.call false v.entered →
      ∀ e ∈ inner v, e.Ok m)
    {is : List Inst} (hsub : ∀ i ∈ is, i ∈ m.insts) (h : Within m act called gs) :
    ∀ e ∈ processedIn m traverse inner act called gs is, e.Ok m := by
  induction is generalizing called gs with
  | nil => exact fun e he => nomatch he
  | cons i is ih =>
      intro e he
      have hi := hsub i (List.mem_cons_self ..)
      rw [processedIn] at he
      rcases List.mem_append.mp he with he | he
      · split at he
        · rename_i v hv
          exact hinner v (followed_spec hv).2.2.2.1 (h.enter hi hv) e he
        · split at he
          · cases he
          · rename_i hcall
            obtain rfl := List.mem_singleton.mp he
            exact ⟨h.valid, hi, by simpa using hcall, h.marked.imp_right fun hact => hact.2,
              h.own, h.other⟩
      · split at he
        · rename_i gs' hvisit
          have hstep := h.step hi (fun v gs' hv hgs' =>
            htraverse _ _ _ (followed_spec hv).2.2.2.1 hgs') hvisit
          exact ih (fun j hj => hsub j (List.mem_cons_of_mem _ hj)) hstep e he
        · cases he

/-- The run lemma. -/
theorem processed_spec (fuel : Nat) (act : Value) (gs : GlobalState) (f : Function)
    (hf : f ∈ m.functions) (h : Within m act false gs) :
    ∀ e ∈ processed m fuel act gs f, e.Ok m := by
  induction fuel generalizing act gs f with
  | zero => exact fun e he => nomatch he
  | succ fuel ih =>
      exact processedIn_spec (traversal_moved m fuel)
        (fun v hvf hin => ih v.call v.entered v.f hvf hin) (schedule_subset hf) h

end Run

theorem within_main (m : Module) : Within m .null false (initializeGS .empty m) :=
  ⟨.initializeGS m, .inl rfl, fun _ => (initializeGS_frame m).ci, fun hno => nomatch hno⟩

end Nova

end Oat
