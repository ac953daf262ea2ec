import Oat.NovaState

/-!
# What the updates of the analysis leave alone

An update has an entry of the points-to map to write at most; the other
entries stay, and tuple sets and alias sets only grow (`Off`). `touched`
is the entry of each instruction.
-/

namespace Oat

namespace Nova

theorem mem_tuplesOf {gs : GlobalState} {v : Value} {t : AliasObjectTuple} :
    t ∈ gs.tuplesOf v ↔ ∃ r, gs.pts? v = some r ∧ t ∈ gs.tupleSet r := by
  unfold GlobalState.tuplesOf
  cases gs.pts? v with
  | none => simp
  | some r => simp

/-! ## Growth -/

/-- Tuple sets have grown. -/
def Grown (gs gs' : GlobalState) : Prop := ∀ r, ∀ t ∈ gs.tupleSet r, t ∈ gs'.tupleSet r

theorem Grown.refl (gs : GlobalState) : Grown gs gs := fun _ _ h => h

theorem Grown.trans {a b c : GlobalState} (h₁ : Grown a b) (h₂ : Grown b c) : Grown a c :=
  fun r t h => h₂ r t (h₁ r t h)

def AliasObject.aliases? (offset : Nat) : AliasObject → Option (List AliasObjectRef)
  | .location _ => none
  | .object _ _ _ aliasMap _ => aliasMap.lookup offset

theorem aliasSet?_eq (gs : GlobalState) (t : AliasObjectTuple) :
    gs.aliasSet? t = gs.objects[t.ao]?.bind (AliasObject.aliases? t.offset) := by
  unfold GlobalState.aliasSet?
  cases gs.objects[t.ao]? with
  | none => rfl
  | some o => cases o <;> rfl

/-- The same object, with alias sets that have grown. -/
structure AliasObject.Grown (o o' : AliasObject) : Prop where
  val : o'.val = o.val
  aliases : ∀ offset s, o.aliases? offset = some s → ∃ s', o'.aliases? offset = some s' ∧ s ⊆ s'

theorem AliasObject.Grown.refl (o : AliasObject) : AliasObject.Grown o o :=
  ⟨rfl, fun _ s hs => ⟨s, hs, List.Subset.refl s⟩⟩

def ObjectsGrown (l l' : List AliasObject) : Prop :=
  ∀ (a : Nat) (o : AliasObject), l[a]? = some o → ∃ o', l'[a]? = some o' ∧ o.Grown o'

namespace ObjectsGrown

theorem refl (l : List AliasObject) : ObjectsGrown l l := fun _ o h => ⟨o, h, .refl o⟩

theorem trans {a b c : List AliasObject} (h₁ : ObjectsGrown a b) (h₂ : ObjectsGrown b c) :
    ObjectsGrown a c := by
  intro i o ho
  obtain ⟨o₁, ho₁, hg₁⟩ := h₁ i o ho
  obtain ⟨o₂, ho₂, hg₂⟩ := h₂ i o₁ ho₁
  refine ⟨o₂, ho₂, hg₂.val.trans hg₁.val, fun offset s hs => ?_⟩
  obtain ⟨s₁, hs₁, hsub₁⟩ := hg₁.aliases offset s hs
  obtain ⟨s₂, hs₂, hsub₂⟩ := hg₂.aliases offset s₁ hs₁
  exact ⟨s₂, hs₂, List.Subset.trans hsub₁ hsub₂⟩

theorem append (l l' : List AliasObject) : ObjectsGrown l (l ++ l') := by
  intro a o ho
  have ha : a < l.length := (List.getElem?_eq_some_iff.mp ho).1
  exact ⟨o, by rw [List.getElem?_append_left ha, ho], .refl o⟩

theorem modify (l : List AliasObject) (a : Nat) {f : AliasObject → AliasObject}
    (hf : ∀ o : AliasObject, o.Grown (f o)) : ObjectsGrown l (l.modify a f) := by
  intro i o ho
  rw [List.getElem?_modify, ho]
  by_cases hi : a = i
  · exact ⟨f o, by simp [hi], hf o⟩
  · exact ⟨o, by simp [hi], .refl o⟩

end ObjectsGrown

theorem lookup_insertAt {α : Type} [DecidableEq α] (offset : Nat) (l : List α)
    (map : List (Nat × List α)) (o : Nat) :
    (insertAt offset l map).lookup o =
      (map.lookup o).map fun s => if o = offset then setInsertAll s l else s := by
  induction map with
  | nil => rfl
  | cons entry rest ih =>
      obtain ⟨k, s⟩ := entry
      unfold insertAt
      by_cases hk : k = offset
      · rw [if_pos hk]
        by_cases ho : o = k
        · simp [ho, hk]
        · have hne : o ≠ offset := fun h => ho (h.trans hk.symm)
          simp [List.lookup_cons, beq_eq_false_iff_ne.mpr ho, hne]
      · rw [if_neg hk]
        by_cases ho : o = k
        · simp [ho, hk]
        · simp [List.lookup_cons, beq_eq_false_iff_ne.mpr ho, ih]

theorem insertAliases_aliases? (offset : Nat) (aos : List AliasObjectRef) (o : AliasObject)
    (off : Nat) :
    (o.insertAliases offset aos).aliases? off =
      (o.aliases? off).map fun s => if off = offset then setInsertAll s aos else s := by
  cases o with
  | location val => rfl
  | object val type isStruct aliasMap taintMap => exact lookup_insertAt offset aos aliasMap off

theorem insertAliases_grown (offset : Nat) (aos : List AliasObjectRef) (o : AliasObject) :
    o.Grown (o.insertAliases offset aos) := by
  refine ⟨by cases o <;> rfl, fun off s hs =>
    ⟨if off = offset then setInsertAll s aos else s, ?_, ?_⟩⟩
  · rw [insertAliases_aliases?, hs]
    rfl
  · intro a ha
    split
    · exact mem_setInsertAll.mpr (.inl ha)
    · exact ha

theorem setTaintMap_grown (map : LocalTaintMap) (o : AliasObject) : o.Grown (o.setTaintMap map) := by
  cases o with
  | location val => exact .refl _
  | object val type isStruct aliasMap taintMap =>
      exact ⟨rfl, fun _ s hs => ⟨s, hs, List.Subset.refl s⟩⟩

mutual

theorem createAliasObject_appends (v : Value) (type : Ty) (objects : List AliasObject) :
    objects <+: (createAliasObject v type objects).2 := by
  cases type with
  | struct name fields =>
      unfold createAliasObject
      split
      · exact (List.prefix_append _ _).trans (List.prefix_append _ _)
      · exact (createFields_appends v 0 fields objects).trans (List.prefix_append _ _)
  | ptr pointee =>
      unfold createAliasObject
      exact (createAliasObject_appends v pointee objects).trans (List.prefix_append _ _)
  | int _ | floating _ | array _ | other =>
      unfold createAliasObject
      exact (List.prefix_append _ _).trans (List.prefix_append _ _)

theorem createFields_appends (v : Value) (i : Nat) (types : List Ty) (objects : List AliasObject) :
    objects <+: (createFields v i types objects).2 := by
  cases types with
  | nil => exact List.prefix_refl _
  | cons type types =>
      unfold createFields
      exact (createAliasObject_appends v type objects).trans (createFields_appends v (i + 1) types _)

end

/-- The object itself comes last. -/
theorem createAliasObject_val (v : Value) (type : Ty) (objects : List AliasObject) :
    ∃ o, (createAliasObject v type objects).2[(createAliasObject v type objects).1]? = some o ∧
      o.val = v := by
  cases type with
  | struct name fields =>
      unfold createAliasObject
      split
      · exact ⟨_, List.getElem?_concat_length, rfl⟩
      · exact ⟨_, List.getElem?_concat_length, rfl⟩
  | ptr pointee =>
      unfold createAliasObject
      exact ⟨_, List.getElem?_concat_length, rfl⟩
  | int _ | floating _ | array _ | other =>
      unfold createAliasObject
      exact ⟨_, List.getElem?_concat_length, rfl⟩

theorem ObjectsGrown.aliasSet? {gs gs' : GlobalState} (h : ObjectsGrown gs.objects gs'.objects)
    {t : AliasObjectTuple} {s : List AliasObjectRef} (hs : gs.aliasSet? t = some s) :
    ∃ s', gs'.aliasSet? t = some s' ∧ s ⊆ s' := by
  rw [aliasSet?_eq] at hs
  obtain ⟨o, ho, hs⟩ := Option.bind_eq_some_iff.mp hs
  obtain ⟨o', ho', hgrown⟩ := h _ o ho
  obtain ⟨s', hs', hsub⟩ := hgrown.aliases _ s hs
  exact ⟨s', by rw [aliasSet?_eq, ho']; exact hs', hsub⟩

/-! ## The frame -/

/-- Nothing is lost but entries of the points-to map for values in `K`. -/
structure Off (K : List Value) (gs gs' : GlobalState) : Prop where
  lookup : ∀ v ∉ K, gs'.pMap.lookup v = gs.pMap.lookup v
  grown : Nova.Grown gs gs'
  objects : ObjectsGrown gs.objects gs'.objects
  ci : gs'.ci = gs.ci
  vMap : gs'.vMap = gs.vMap

namespace Off

variable {gs gs' : GlobalState} {K : List Value}

theorem refl (gs : GlobalState) : Off K gs gs := ⟨fun _ _ => rfl, .refl gs, .refl _, rfl, rfl⟩

theorem trans {a b c : GlobalState} (h₁ : Off K a b) (h₂ : Off K b c) : Off K a c :=
  ⟨fun v hv => (h₂.lookup v hv).trans (h₁.lookup v hv), h₁.grown.trans h₂.grown,
    h₁.objects.trans h₂.objects, h₂.ci.trans h₁.ci, h₂.vMap.trans h₁.vMap⟩

theorem mono {K' : List Value} (h : Off K gs gs') (hK : K ⊆ K') : Off K' gs gs' :=
  ⟨fun v hv => h.lookup v fun hm => hv (hK hm), h.grown, h.objects, h.ci, h.vMap⟩

theorem pts? (h : Off K gs gs') {v : Value} (hv : v ∉ K) : gs'.pts? v = gs.pts? v := by
  rw [GlobalState.pts?, h.lookup v hv, GlobalState.pts?]

theorem tuplesOf (h : Off K gs gs') {v : Value} (hv : v ∉ K) : gs.tuplesOf v ⊆ gs'.tuplesOf v := by
  intro t ht
  obtain ⟨r, hr, hmem⟩ := mem_tuplesOf.mp ht
  exact mem_tuplesOf.mpr ⟨r, (h.pts? hv).trans hr, h.grown r t hmem⟩

theorem setPts (v : Value) (r : Option TupleSetRef) : Off [v] gs (gs.setPts v r) := by
  refine ⟨fun w hw => AList.lookup_insert_ne ?_, .refl _, .refl _, rfl, rfl⟩
  simpa using hw

theorem newPts (v : Value) (ts : List AliasObjectTuple) : Off [v] gs (gs.newPts v ts) := by
  refine ⟨fun w hw => AList.lookup_insert_ne (by simpa using hw), fun r t ht => ?_, .refl _, rfl, rfl⟩
  have hr : r < gs.tupleSets.length := by
    by_contra hr
    simp [GlobalState.tupleSet, List.getElem?_eq_none (Nat.le_of_not_lt hr)] at ht
  simpa [GlobalState.tupleSet, GlobalState.newPts, List.getElem?_append_left hr] using ht

theorem insertTuples (r : TupleSetRef) (ts : List AliasObjectTuple) :
    Off K gs (gs.insertTuples r ts) := by
  refine ⟨fun _ _ => rfl, fun r' t ht => ?_, .refl _, rfl, rfl⟩
  simp only [GlobalState.tupleSet, GlobalState.insertTuples, List.getElem?_modify] at ht ⊢
  rcases hset : gs.tupleSets[r']? with _ | s
  · simp [hset] at ht
  · rw [hset] at ht
    by_cases hr : r = r'
    · simpa [hr] using Or.inl ht
    · simpa [hr] using ht

theorem setTaint (v : Value) (r : InstSetRef) : Off K gs (gs.setTaint v r) :=
  ⟨fun _ _ => rfl, .refl _, .refl _, rfl, rfl⟩

theorem newTaint (v : Value) (is : List Value) : Off K gs (gs.newTaint v is) :=
  ⟨fun _ _ => rfl, .refl _, .refl _, rfl, rfl⟩

theorem insertInsts (r : InstSetRef) (is : List Value) : Off K gs (gs.insertInsts r is) :=
  ⟨fun _ _ => rfl, .refl _, .refl _, rfl, rfl⟩

theorem setObjects {objects : List AliasObject} (h : ObjectsGrown gs.objects objects) :
    Off K gs { gs with objects := objects } :=
  ⟨fun _ _ => rfl, .refl _, h, rfl, rfl⟩

theorem newObject (v : Value) (type : Ty) : Off [v] gs (gs.newObject v type) := by
  obtain ⟨l, hl⟩ := createAliasObject_appends v type gs.objects
  exact (setObjects (hl ▸ .append _ l)).trans (newPts v _)

theorem setTaintMap (ao : AliasObjectRef) (map : LocalTaintMap) :
    Off K gs (Nova.setTaintMap gs ao map) :=
  setObjects (.modify _ _ (setTaintMap_grown map))

end Off

/-! ## Each rule keeps to its frame -/

section Rules

variable (m : Module) (gs : GlobalState)

theorem updatePtoBinOp_off (self op1 op2 : Value) :
    Off [self] gs (updatePtoBinOp gs self op1 op2) := by
  unfold updatePtoBinOp
  dsimp only
  split
  · exact (Off.insertTuples _ _).trans (.insertTuples _ _)
  · exact .newPts _ _

theorem updatePtoLoad_off (self op : Value) : Off [self] gs (updatePtoLoad gs self op) := by
  unfold updatePtoLoad
  split
  · exact .refl gs
  · split
    · exact .refl gs
    · exact .newPts _ _

theorem handlePtoGEPOperator_off (gop op : Value) (pointee : Shape) (idx : List (Option Nat)) :
    Off [gop] gs (handlePtoGEPOperator gs gop op pointee idx) := by
  unfold handlePtoGEPOperator
  split
  · exact .refl gs
  · split
    · exact .refl gs
    · split
      · exact .setPts _ _
      · exact .newPts _ _
      · exact .refl gs

theorem updatePtoGEP_off (self op : Value) (pointee : Shape) (idx : List (Option Nat)) :
    Off [self] gs (updatePtoGEP gs self op pointee idx) := by
  unfold updatePtoGEP
  split
  · exact .refl gs
  · split
    · exact .setPts _ _
    · exact .newPts _ _
    · exact .setPts _ _

/-- The address of a store, when its entry is made again. -/
def gepKey (op : Value) : List Value := if (m.gepOperator? op).isSome then [op] else []

theorem mem_gepKey {m : Module} {op w : Value} :
    w ∈ gepKey m op ↔ w = op ∧ (m.gepOperator? op).isSome := by
  unfold gepKey
  split <;> simp [*]

theorem handleStoreGEP_off (op : Value) : Off (gepKey m op) gs (handleStoreGEP m gs op) := by
  unfold handleStoreGEP gepKey
  cases m.gepOperator? op with
  | none => exact .refl gs
  | some g => exact handlePtoGEPOperator_off gs _ _ _ _

theorem storeAliases_off (vaos : List AliasObjectRef) (ts : List AliasObjectTuple) :
    Off [] gs (storeAliases vaos ts gs) := by
  induction ts generalizing gs with
  | nil => exact .refl gs
  | cons t ts ih =>
      unfold storeAliases
      split
      · exact .refl gs
      · exact (Off.setObjects (.modify _ _ (insertAliases_grown t.offset vaos))).trans (ih _)

theorem updatePtoStore_off (v op : Value) : Off (gepKey m op) gs (updatePtoStore m gs v op) := by
  unfold updatePtoStore
  split
  · exact .refl gs
  · dsimp only
    split
    · exact (handleStoreGEP_off m gs op).trans
        ((storeAliases_off _ _ _).mono (List.nil_subset _))
    · exact handleStoreGEP_off m gs op

theorem updatePtoRet_off (ret : Value) : Off [gs.ci] gs (updatePtoRet gs ret) := by
  unfold updatePtoRet
  split
  · exact .insertTuples _ _
  · exact .setPts _ _
  · exact .refl gs

theorem updateTaintBinOp_off (self op1 op2 : Value) :
    Off [] gs (updateTaintBinOp gs self op1 op2) := by
  unfold updateTaintBinOp
  dsimp only
  split
  · exact ((Off.insertInsts _ _).trans (.insertInsts _ _)).trans (.insertInsts _ _)
  · exact .newTaint _ _

theorem loadTaints_off (bis : List Value) (ts : List AliasObjectTuple) :
    Off [] gs (loadTaints bis ts gs).2 := by
  induction ts generalizing bis gs with
  | nil => exact .refl gs
  | cons t ts ih =>
      unfold loadTaints
      split
      · exact .refl gs
      · exact (Off.setTaintMap _ _).trans (ih _ _)

theorem updateTaintLoad_off (self op : Value) : Off [] gs (updateTaintLoad gs self op) := by
  unfold updateTaintLoad
  split
  · exact .refl gs
  · rename_i ts _
    have h := loadTaints_off gs [] (gs.tupleSet ts)
    split
    · rename_i heq
      rwa [heq] at h
    · rename_i heq
      rw [heq] at h
      exact h.trans (.newTaint _ _)

theorem storeTaints_off (is : List Value) (ts : List AliasObjectTuple) :
    Off [] gs (storeTaints is ts gs) := by
  induction ts generalizing gs with
  | nil => exact .refl gs
  | cons t ts ih =>
      unfold storeTaints
      split
      · exact .refl gs
      · exact (Off.setTaintMap _ _).trans (ih _)

theorem updateTaintStore_off (self v op : Value) :
    Off (gepKey m op) gs (updateTaintStore m gs self v op) := by
  unfold updateTaintStore
  dsimp only
  split
  · exact handleStoreGEP_off m gs op
  · exact (handleStoreGEP_off m gs op).trans ((storeTaints_off _ _ _).mono (List.nil_subset _))

theorem updateTaintRet_off (ret : Value) : Off [] gs (updateTaintRet gs ret) := by
  unfold updateTaintRet
  split
  · exact .insertInsts _ _
  · exact .setTaint _ _
  · exact .refl gs

theorem updateTaintBitCast_off (self op : Value) : Off [] gs (updateTaintBitCast gs self op) := by
  unfold updateTaintBitCast
  split
  · exact (Off.insertInsts _ _).trans (.setTaint _ _)
  · exact .newTaint _ _

/-- The entries of the points-to map that an instruction writes. -/
def touched (ci : Value) (i : Inst) : List Value :=
  match i.kind with
  | .store _ op => gepKey m op
  | .ret _ => [ci]
  | .call _ _ => []
  | .other => []
  | _ => [i.self]

theorem pointsToAnalysis_off (i : Inst) : Off (touched m gs.ci i) gs (pointsToAnalysis m gs i) := by
  unfold pointsToAnalysis touched
  cases i.kind with
  | alloca type => exact .newObject _ type
  | binOp op1 op2 => exact updatePtoBinOp_off gs _ op1 op2
  | load op => exact updatePtoLoad_off gs _ op
  | store v op => exact updatePtoStore_off m gs v op
  | gep op pointee idx => exact updatePtoGEP_off gs _ op pointee idx
  | ret v => exact updatePtoRet_off gs v
  | bitCast op => exact .setPts _ _
  | call callee args => exact .refl gs
  | other => exact .refl gs

/-- Only a store writes one. -/
theorem taintAnalysis_off (i : Inst) :
    Off (match i.kind with | .store _ op => gepKey m op | _ => []) gs (taintAnalysis m gs i) := by
  unfold taintAnalysis
  cases i.kind with
  | alloca type => exact .refl gs
  | binOp op1 op2 => exact updateTaintBinOp_off gs _ op1 op2
  | load op => exact updateTaintLoad_off gs _ op
  | store v op => exact updateTaintStore_off m gs _ v op
  | gep op pointee idx => exact .newTaint _ _
  | ret v => exact updateTaintRet_off gs v
  | bitCast op => exact updateTaintBitCast_off gs _ op
  | call callee args => exact .refl gs
  | other => exact .refl gs

theorem dispatchClients_off (i : Inst) : Off (touched m gs.ci i) gs (dispatchClients m gs i) := by
  refine (pointsToAnalysis_off m gs i).trans ((taintAnalysis_off m _ i).mono ?_)
  unfold touched
  cases i.kind with
  | store v op => exact List.Subset.refl _
  | _ => exact List.nil_subset _

end Rules

end Nova

end Oat
