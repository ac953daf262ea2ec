import Mathlib.Data.List.TakeWhile
import Oat.NovaFrame

/-!
# The cells of alias objects: load, store and getelementptr

A tuple names the cell of its object at its offset, if there is one. The
loops of `UpdatePtoLoad` and `UpdatePtoStore` go over the tuples of the
address and leave the function at the first one without a cell, so that
the result is that of `reached` and not of the whole set.

The lemmas say of each rule what it leaves in a cell or in a tuple set;
the theorems are about a single step from an arbitrary state.
-/

namespace Oat

namespace Nova

/-! ## What a rule leaves in a tuple set -/

theorem tuplesOf_newPts (gs : GlobalState) (v : Value) (ts : List AliasObjectTuple) :
    (gs.newPts v ts).tuplesOf v = ts := by
  simp [GlobalState.tuplesOf, GlobalState.pts?, GlobalState.newPts, AList.lookup_insert,
    GlobalState.tupleSet]

theorem tuplesOf_setPts (gs : GlobalState) (v : Value) (r : TupleSetRef) :
    (gs.setPts v (some r)).tuplesOf v = gs.tupleSet r := by
  simp [GlobalState.tuplesOf, GlobalState.pts?, GlobalState.setPts, AList.lookup_insert,
    GlobalState.tupleSet]

theorem tuplesOf_of_pts? {gs : GlobalState} {v : Value} {r : TupleSetRef}
    (h : gs.pts? v = some r) : gs.tuplesOf v = gs.tupleSet r := by
  simp [GlobalState.tuplesOf, h]

theorem tuplesOf_of_none {gs : GlobalState} {v : Value} (h : gs.pts? v = none) :
    gs.tuplesOf v = [] := by
  simp [GlobalState.tuplesOf, h]

def GlobalState.objectsOf (gs : GlobalState) (v : Value) : List AliasObjectRef :=
  (gs.tuplesOf v).map AliasObjectTuple.ao

def GlobalState.cell (gs : GlobalState) (t : AliasObjectTuple) : List AliasObjectRef :=
  (gs.aliasSet? t).getD []

/-- Each object the address may be in has a set at the offset. -/
def NoGap (gs : GlobalState) (op : Value) : Prop :=
  ∀ t ∈ gs.tuplesOf op, (gs.aliasSet? t).isSome

theorem mem_cell {gs : GlobalState} {t : AliasObjectTuple} {a : AliasObjectRef} :
    a ∈ gs.cell t ↔ ∃ s, gs.aliasSet? t = some s ∧ a ∈ s := by
  unfold GlobalState.cell
  cases gs.aliasSet? t <;> simp

/-! ## Getelementptr -/

/-- What a getelementptr makes of a tuple of its base. -/
def gepTuple (pointee : Shape) (idx : List (Option Nat)) (t : AliasObjectTuple) :
    AliasObjectTuple :=
  match pointee with
  | .struct => ⟨gepOffset idx, t.ao⟩
  | _ => t

/-- `HandlePtoGEPOperator` writes an entry. -/
def Resolves (gs : GlobalState) (base : Value) (pointee : Shape) (idx : List (Option Nat)) : Prop :=
  idx.head?.join.isSome ∧ pointee ≠ .scalar ∧ (gs.pts? base).isSome

theorem handlePtoGEPOperator_of_resolves {gs : GlobalState} (gop : Value) {base : Value}
    {pointee : Shape} {idx : List (Option Nat)} (h : Resolves gs base pointee idx) :
    (handlePtoGEPOperator gs gop base pointee idx).tuplesOf gop =
      (gs.tuplesOf base).map (gepTuple pointee idx) := by
  obtain ⟨hidx, hpointee, hbase⟩ := h
  obtain ⟨r, hr⟩ := Option.isSome_iff_exists.mp hbase
  have hconst : ¬ (idx.head?.join.isNone = true) := by simpa [Option.isSome_iff_ne_none] using hidx
  unfold handlePtoGEPOperator
  rw [if_neg hconst, hr, tuplesOf_of_pts? hr]
  cases pointee with
  | array =>
      have hid : gepTuple .array idx = id := rfl
      rw [hid, List.map_id]
      exact tuplesOf_setPts gs gop r
  | struct => exact tuplesOf_newPts gs gop _
  | scalar => exact absurd rfl hpointee

theorem handlePtoGEPOperator_of_not_resolves {gs : GlobalState} (gop : Value) {base : Value}
    {pointee : Shape} {idx : List (Option Nat)} (h : ¬ Resolves gs base pointee idx) :
    handlePtoGEPOperator gs gop base pointee idx = gs := by
  unfold handlePtoGEPOperator
  split
  · rfl
  · rename_i hidx
    split
    · rfl
    · rename_i r hr
      cases pointee with
      | scalar => rfl
      | _ =>
          refine absurd ⟨?_, by simp, by simp [hr]⟩ h
          simpa [Option.isSome_iff_ne_none] using hidx

/-! ## Load -/

theorem loadTuples_eq (gs : GlobalState) (ts : List AliasObjectTuple) :
    loadTuples gs ts = if ∀ t ∈ ts, (gs.aliasSet? t).isSome then
      some (ts.flatMap fun t => (gs.cell t).map (AliasObjectTuple.mk 0)) else none := by
  induction ts with
  | nil => rfl
  | cons t ts ih =>
      unfold loadTuples
      cases hs : gs.aliasSet? t with
      | none => simp [hs]
      | some s =>
          rw [ih]
          by_cases hall : ∀ t ∈ ts, (gs.aliasSet? t).isSome
          · rw [if_pos hall, if_pos (by simpa [hs] using hall)]
            simp [GlobalState.cell, hs]
          · rw [if_neg hall, if_neg (by simpa [hs] using hall)]
            rfl

/-- The tuples after a load: all that is in the cells, or what the value
had. -/
theorem updatePtoLoad_of_noGap {gs : GlobalState} {self op : Value} (hop : (gs.pts? op).isSome)
    (h : NoGap gs op) : (updatePtoLoad gs self op).tuplesOf self =
      (gs.tuplesOf op).flatMap fun t => (gs.cell t).map (AliasObjectTuple.mk 0) := by
  obtain ⟨r, hr⟩ := Option.isSome_iff_exists.mp hop
  rw [NoGap, tuplesOf_of_pts? hr] at h
  unfold updatePtoLoad
  simp only [hr, loadTuples_eq, if_pos h]
  rw [tuplesOf_newPts, tuplesOf_of_pts? hr]

theorem updatePtoLoad_of_gap {gs : GlobalState} {self op : Value} (h : ¬ NoGap gs op) :
    updatePtoLoad gs self op = gs := by
  unfold updatePtoLoad
  cases hr : gs.pts? op with
  | none => rfl
  | some r =>
      rw [NoGap, tuplesOf_of_pts? hr] at h
      simp only [loadTuples_eq, if_neg h]

/-! ## Store -/

/-- The tuples the loop of a store gets to. -/
def reached (gs : GlobalState) (ts : List AliasObjectTuple) : List AliasObjectTuple :=
  ts.takeWhile fun t => (gs.aliasSet? t).isSome

/-- One turn of the loop. -/
theorem aliasSet?_insertAliases (gs : GlobalState) (vaos : List AliasObjectRef)
    (t t' : AliasObjectTuple) :
    GlobalState.aliasSet?
        { gs with objects := gs.objects.modify t.ao (AliasObject.insertAliases t.offset vaos) } t' =
      (gs.aliasSet? t').map fun s => if t' = t then setInsertAll s vaos else s := by
  rw [aliasSet?_eq, aliasSet?_eq]
  simp only [List.getElem?_modify]
  cases ho : gs.objects[t'.ao]? with
  | none => simp
  | some o =>
      obtain ⟨off, ao⟩ := t
      obtain ⟨off', ao'⟩ := t'
      by_cases hao : ao = ao'
      · subst hao
        simp [insertAliases_aliases?]
      · have hne : ¬ ((⟨off', ao'⟩ : AliasObjectTuple) = ⟨off, ao⟩) := fun heq =>
          hao (AliasObjectTuple.mk.inj heq).2.symm
        simp [hao, hne]

theorem storeAliases_isSome (vaos : List AliasObjectRef) (ts : List AliasObjectTuple)
    (gs : GlobalState) (t : AliasObjectTuple) :
    ((storeAliases vaos ts gs).aliasSet? t).isSome = (gs.aliasSet? t).isSome := by
  induction ts generalizing gs with
  | nil => rfl
  | cons t' ts ih =>
      unfold storeAliases
      split
      · rfl
      · rw [ih, aliasSet?_insertAliases]
        simp

/-- The loop changes objects only. -/
theorem storeAliases_rest (vaos : List AliasObjectRef) (ts : List AliasObjectTuple)
    (gs : GlobalState) : ∃ objects, storeAliases vaos ts gs = { gs with objects := objects } := by
  induction ts generalizing gs with
  | nil => exact ⟨gs.objects, rfl⟩
  | cons t ts ih =>
      unfold storeAliases
      split
      · exact ⟨gs.objects, rfl⟩
      · obtain ⟨objects, h⟩ := ih
          { gs with objects := gs.objects.modify t.ao (AliasObject.insertAliases t.offset vaos) }
        exact ⟨objects, h⟩

theorem mem_cell_storeAliases {vaos : List AliasObjectRef} {ts : List AliasObjectTuple}
    {gs : GlobalState} {t : AliasObjectTuple} {a : AliasObjectRef} :
    a ∈ (storeAliases vaos ts gs).cell t ↔
      a ∈ gs.cell t ∨ (t ∈ reached gs ts ∧ a ∈ vaos) := by
  induction ts generalizing gs with
  | nil => simp [storeAliases, reached]
  | cons t' ts ih =>
      unfold storeAliases reached
      cases hs : gs.aliasSet? t' with
      | none => simp [hs]
      | some s =>
          have hsame : reached { gs with
              objects := gs.objects.modify t'.ao (AliasObject.insertAliases t'.offset vaos) } ts =
              reached gs ts := by
            unfold reached
            simp only [aliasSet?_insertAliases, Option.isSome_map]
          rw [ih, hsame, List.takeWhile_cons_of_pos (by simp [hs]), List.mem_cons]
          have hone : a ∈ GlobalState.cell { gs with
              objects := gs.objects.modify t'.ao (AliasObject.insertAliases t'.offset vaos) } t ↔
              a ∈ gs.cell t ∨ (t = t' ∧ a ∈ vaos) := by
            unfold GlobalState.cell
            rw [aliasSet?_insertAliases]
            by_cases heq : t = t'
            · subst heq
              simp [hs]
            · cases gs.aliasSet? t <;> simp [heq]
          rw [hone]
          unfold reached
          tauto

/-- The tuples of the address, and those of the value, as the store reads
them: the address may be a getelementptr that is looked up first. -/
def storeTuples (m : Module) (gs : GlobalState) (op : Value) : List AliasObjectTuple :=
  (handleStoreGEP m gs op).tuplesOf op

def storedTuples (m : Module) (gs : GlobalState) (v op : Value) : List AliasObjectTuple :=
  if gs.pMap.lookup v = none then [] else (handleStoreGEP m gs op).tuplesOf v

def storedObjects (m : Module) (gs : GlobalState) (v op : Value) : List AliasObjectRef :=
  (storedTuples m gs v op).map AliasObjectTuple.ao

theorem handleStoreGEP_objects (m : Module) (gs : GlobalState) (op : Value) :
    (handleStoreGEP m gs op).objects = gs.objects := by
  unfold handleStoreGEP handlePtoGEPOperator
  split
  · split
    · rfl
    · split
      · rfl
      · split <;> rfl
  · rfl

theorem aliasSet?_of_objects {gs gs' : GlobalState} (h : gs'.objects = gs.objects)
    (t : AliasObjectTuple) : gs'.aliasSet? t = gs.aliasSet? t := by
  unfold GlobalState.aliasSet?
  rw [h]

theorem handleStoreGEP_aliasSet? (m : Module) (gs : GlobalState) (op : Value)
    (t : AliasObjectTuple) : (handleStoreGEP m gs op).aliasSet? t = gs.aliasSet? t :=
  aliasSet?_of_objects (handleStoreGEP_objects m gs op) t

/-- A store is the loop over its tuples, in the state after the lookup. -/
theorem updatePtoStore_cases (m : Module) (gs : GlobalState) (v op : Value) :
    ((updatePtoStore m gs v op).objects = gs.objects ∧
      (storeTuples m gs op = [] ∨ storedObjects m gs v op = [])) ∨
    updatePtoStore m gs v op =
      storeAliases (storedObjects m gs v op) (storeTuples m gs op) (handleStoreGEP m gs op) := by
  unfold updatePtoStore storedObjects storedTuples storeTuples
  by_cases hv : gs.pMap.lookup v = none
  · left
    rw [if_pos hv, if_pos hv]
    exact ⟨rfl, .inr rfl⟩
  · rw [if_neg hv, if_neg hv]
    dsimp only
    cases hots : (handleStoreGEP m gs op).pts? op with
    | none =>
        left
        exact ⟨handleStoreGEP_objects m gs op, .inl (tuplesOf_of_none hots)⟩
    | some ots =>
        cases hvts : (handleStoreGEP m gs op).pts? v with
        | none =>
            left
            exact ⟨handleStoreGEP_objects m gs op, .inr (by rw [tuplesOf_of_none hvts]; rfl)⟩
        | some vts =>
            right
            rw [tuplesOf_of_pts? hots, tuplesOf_of_pts? hvts]

/-- For a value with an entry the store keeps the state after the lookup,
but for the objects. -/
theorem updatePtoStore_rest {m : Module} {gs : GlobalState} {v : Value} (op : Value)
    (hv : gs.pMap.lookup v ≠ none) :
    ∃ objects, updatePtoStore m gs v op = { handleStoreGEP m gs op with objects := objects } := by
  unfold updatePtoStore
  rw [if_neg hv]
  dsimp only
  split
  · exact storeAliases_rest _ _ _
  · exact ⟨_, rfl⟩

theorem updatePtoStore_isSome (m : Module) (gs : GlobalState) (v op : Value)
    (t : AliasObjectTuple) :
    ((updatePtoStore m gs v op).aliasSet? t).isSome = (gs.aliasSet? t).isSome := by
  rcases updatePtoStore_cases m gs v op with ⟨hobjects, -⟩ | hstore
  · rw [aliasSet?_of_objects hobjects]
  · rw [hstore, storeAliases_isSome, handleStoreGEP_aliasSet?]

theorem mem_cell_updatePtoStore {m : Module} {gs : GlobalState} {v op : Value}
    {t : AliasObjectTuple} {a : AliasObjectRef} :
    a ∈ (updatePtoStore m gs v op).cell t ↔
      a ∈ gs.cell t ∨ (t ∈ reached gs (storeTuples m gs op) ∧ a ∈ storedObjects m gs v op) := by
  rcases updatePtoStore_cases m gs v op with ⟨hobjects, hnone⟩ | hstore
  · rw [GlobalState.cell, aliasSet?_of_objects hobjects]
    rcases hnone with hnone | hnone
    · simp [hnone, reached, GlobalState.cell]
    · simp [hnone, GlobalState.cell]
  · rw [hstore, mem_cell_storeAliases]
    simp only [GlobalState.cell, reached, handleStoreGEP_aliasSet?]

/-! ## The order of the tuples -/

/-- The same state, with the tuples of its sets in other orders. -/
def Reordered (gs gs' : GlobalState) : Prop :=
  ∃ sets, List.Forall₂ List.Perm gs.tupleSets sets ∧ gs' = { gs with tupleSets := sets }

namespace Reordered

variable {gs gs' : GlobalState}

theorem refl (gs : GlobalState) : Reordered gs gs :=
  ⟨gs.tupleSets, List.forall₂_same.mpr fun _ _ => .refl _, rfl⟩

theorem pMap (h : Reordered gs gs') : gs'.pMap = gs.pMap := by
  obtain ⟨sets, -, rfl⟩ := h
  rfl

theorem pts? (h : Reordered gs gs') (v : Value) : gs'.pts? v = gs.pts? v := by
  rw [GlobalState.pts?, h.pMap, GlobalState.pts?]

theorem aliasSet? (h : Reordered gs gs') (t : AliasObjectTuple) :
    gs'.aliasSet? t = gs.aliasSet? t := by
  obtain ⟨sets, -, rfl⟩ := h
  rfl

theorem tupleSet (h : Reordered gs gs') (r : TupleSetRef) :
    (gs.tupleSet r).Perm (gs'.tupleSet r) := by
  obtain ⟨sets, hsets, rfl⟩ := h
  unfold GlobalState.tupleSet
  rcases Nat.lt_or_ge r gs.tupleSets.length with hr | hr
  · have hr' : r < sets.length := hsets.length_eq ▸ hr
    rw [List.getElem?_eq_getElem hr, List.getElem?_eq_getElem hr']
    exact hsets.get hr hr'
  · have hr' : sets.length ≤ r := hsets.length_eq ▸ hr
    rw [List.getElem?_eq_none hr, List.getElem?_eq_none hr']

theorem tuplesOf (h : Reordered gs gs') (v : Value) : (gs.tuplesOf v).Perm (gs'.tuplesOf v) := by
  cases hr : gs.pts? v with
  | none => rw [tuplesOf_of_none hr, tuplesOf_of_none ((h.pts? v).trans hr)]
  | some r =>
      rw [tuplesOf_of_pts? hr, tuplesOf_of_pts? ((h.pts? v).trans hr)]
      exact h.tupleSet r

theorem setPts (h : Reordered gs gs') (v : Value) (r : Option TupleSetRef) :
    Reordered (gs.setPts v r) (gs'.setPts v r) := by
  obtain ⟨sets, hsets, rfl⟩ := h
  exact ⟨sets, hsets, rfl⟩

theorem newPts (h : Reordered gs gs') (v : Value) {ts ts' : List AliasObjectTuple}
    (hts : ts.Perm ts') : Reordered (gs.newPts v ts) (gs'.newPts v ts') := by
  obtain ⟨sets, hsets, rfl⟩ := h
  refine ⟨sets ++ [ts'], ?_, ?_⟩
  · exact List.rel_append hsets (.cons hts .nil)
  · simp only [GlobalState.newPts, hsets.length_eq]

theorem handleStoreGEP (h : Reordered gs gs') (m : Module) (op : Value) :
    Reordered (handleStoreGEP m gs op) (handleStoreGEP m gs' op) := by
  unfold Nova.handleStoreGEP handlePtoGEPOperator
  split
  · split
    · exact h
    · rw [h.pts?]
      split
      · exact h
      · split
        · exact h.setPts _ _
        · exact h.newPts _ ((h.tupleSet _).map _)
        · exact h
  · exact h

theorem storeTuples (h : Reordered gs gs') (m : Module) (op : Value) :
    (Nova.storeTuples m gs op).Perm (Nova.storeTuples m gs' op) :=
  (h.handleStoreGEP m op).tuplesOf op

theorem storedObjects (h : Reordered gs gs') (m : Module) (v op : Value) :
    (Nova.storedObjects m gs v op).Perm (Nova.storedObjects m gs' v op) := by
  unfold Nova.storedObjects storedTuples
  rw [h.pMap]
  split
  · exact .refl _
  · exact ((h.handleStoreGEP m op).tuplesOf v).map _

end Reordered

/-- They are those of the address itself, or are made from those of the
base, whatever their order. -/
theorem storeTuples_eq_map (m : Module) (gs : GlobalState) (op : Value) :
    ∃ w f, ∀ gs', Reordered gs gs' → storeTuples m gs' op = (gs'.tuplesOf w).map f := by
  have hself : ∃ w f, ∀ gs', Reordered gs gs' → gs'.tuplesOf op = (gs'.tuplesOf w).map f :=
    ⟨op, id, fun gs' _ => (List.map_id _).symm⟩
  unfold storeTuples handleStoreGEP
  cases hg : m.gepOperator? op with
  | none => exact hself
  | some g =>
      obtain ⟨base, pointee, idx⟩ := g
      by_cases hres : Resolves gs base pointee idx
      · refine ⟨base, gepTuple pointee idx, fun gs' h => ?_⟩
        exact handlePtoGEPOperator_of_resolves op ⟨hres.1, hres.2.1, (h.pts? base).symm ▸ hres.2.2⟩
      · obtain ⟨w, f, hf⟩ := hself
        refine ⟨w, f, fun gs' h => ?_⟩
        dsimp only
        rw [handlePtoGEPOperator_of_not_resolves op fun h' =>
          hres ⟨h'.1, h'.2.1, h.pts? base ▸ h'.2.2⟩]
        exact hf gs' h

/-- Some order has a given tuple first. -/
theorem exists_reordered {gs : GlobalState} {r : TupleSetRef} {t : AliasObjectTuple}
    (ht : t ∈ gs.tupleSet r) : ∃ gs' rest, Reordered gs gs' ∧ gs'.tupleSet r = t :: rest := by
  have hr : r < gs.tupleSets.length := by
    by_contra hr
    simp [GlobalState.tupleSet, List.getElem?_eq_none (Nat.le_of_not_lt hr)] at ht
  rw [GlobalState.tupleSet, List.getElem?_eq_getElem hr, Option.getD_some] at ht
  obtain ⟨front, back, hsplit⟩ := List.append_of_mem ht
  refine ⟨{ gs with tupleSets := gs.tupleSets.set r (t :: (front ++ back)) }, front ++ back,
    ⟨_, ?_, rfl⟩, ?_⟩
  · refine List.forall₂_iff_get.mpr ⟨by simp, fun i hi hi' => ?_⟩
    rcases eq_or_ne r i with rfl | hne
    · simp only [List.get_eq_getElem, List.getElem_set_self]
      exact hsplit ▸ List.perm_middle
    · simp [List.getElem_set_ne hne]
  · simp [GlobalState.tupleSet, hr]

theorem exists_reordered_storeTuples {m : Module} {gs : GlobalState} {op : Value}
    {t : AliasObjectTuple} (ht : t ∈ storeTuples m gs op) :
    ∃ gs' rest, Reordered gs gs' ∧ storeTuples m gs' op = t :: rest := by
  obtain ⟨w, f, hf⟩ := storeTuples_eq_map m gs op
  rw [hf gs (.refl gs)] at ht
  obtain ⟨b, hb, rfl⟩ := List.mem_map.mp ht
  obtain ⟨r, hr, hb⟩ := mem_tuplesOf.mp hb
  obtain ⟨gs', rest, hgs', hfirst⟩ := exists_reordered hb
  refine ⟨gs', rest.map f, hgs', ?_⟩
  rw [hf gs' hgs', tuplesOf_of_pts? ((hgs'.pts? w).trans hr), hfirst]
  rfl

/-- A load yields the objects of each cell there is, in every order of the
tuples. -/
def LoadsEach (gs : GlobalState) (self op : Value) : Prop :=
  ∀ gs', Reordered gs gs' → ∀ a, a ∈ (updatePtoLoad gs' self op).objectsOf self ↔
    ∃ t ∈ gs.tuplesOf op, a ∈ gs.cell t

/-- A store adds the objects of the value to each cell there is and changes
no other, in every order of the tuples. -/
def StoresEach (m : Module) (gs : GlobalState) (v op : Value) : Prop :=
  ∀ gs', Reordered gs gs' → ∀ t,
    ((updatePtoStore m gs' v op).aliasSet? t).isSome = (gs.aliasSet? t).isSome ∧
    ∀ a, a ∈ (updatePtoStore m gs' v op).cell t ↔ a ∈ gs.cell t ∨
      ((gs.aliasSet? t).isSome ∧ t ∈ storeTuples m gs op ∧ a ∈ storedObjects m gs v op)

theorem Reordered.noGap {gs gs' : GlobalState} (h : Reordered gs gs') (op : Value) :
    NoGap gs' op ↔ NoGap gs op := by
  unfold NoGap
  simp only [(h.tuplesOf op).symm.mem_iff, h.aliasSet?]

theorem loadsEach_iff {gs : GlobalState} {op : Value} (hop : (gs.pts? op).isSome) (self : Value) :
    LoadsEach gs self op ↔ NoGap gs op ∨
      ∀ a, a ∈ gs.objectsOf self ↔ ∃ t ∈ gs.tuplesOf op, a ∈ gs.cell t := by
  by_cases hgap : NoGap gs op
  · refine iff_of_true (fun gs' h a => ?_) (.inl hgap)
    have hop' : (gs'.pts? op).isSome := h.pts? op ▸ hop
    rw [GlobalState.objectsOf, updatePtoLoad_of_noGap hop' ((h.noGap op).mpr hgap)]
    simp only [List.mem_map, List.mem_flatMap, (h.tuplesOf op).symm.mem_iff, GlobalState.cell,
      h.aliasSet?]
    constructor
    · rintro ⟨_, ⟨t, ht, b, hb, rfl⟩, rfl⟩
      exact ⟨t, ht, hb⟩
    · rintro ⟨t, ht, ha⟩
      exact ⟨⟨0, a⟩, ⟨t, ht, a, ha, rfl⟩, rfl⟩
  · rw [or_iff_right hgap]
    have hsame : ∀ gs', Reordered gs gs' → ∀ a,
        a ∈ (updatePtoLoad gs' self op).objectsOf self ↔ a ∈ gs.objectsOf self := by
      intro gs' h a
      rw [updatePtoLoad_of_gap fun h' => hgap ((h.noGap op).mp h')]
      exact ((h.tuplesOf self).symm.map _).mem_iff
    constructor
    · exact fun h a => (hsame gs (.refl gs) a).symm.trans (h gs (.refl gs) a)
    · exact fun h gs' h' a => (hsame gs' h' a).trans (h a)

theorem mem_reached {gs : GlobalState} {ts : List AliasObjectTuple} {t : AliasObjectTuple}
    (h : t ∈ reached gs ts) : t ∈ ts ∧ (gs.aliasSet? t).isSome :=
  ⟨(List.takeWhile_sublist _).subset h,
    List.mem_takeWhile_imp (p := fun t => (gs.aliasSet? t).isSome) h⟩

theorem storesEach_iff (m : Module) (gs : GlobalState) (v op : Value) :
    StoresEach m gs v op ↔ NoGap (handleStoreGEP m gs op) op ∨
      ∀ t ∈ storeTuples m gs op, (gs.aliasSet? t).isSome → storedObjects m gs v op ⊆ gs.cell t := by
  have hgap : NoGap (handleStoreGEP m gs op) op ↔
      ∀ t ∈ storeTuples m gs op, (gs.aliasSet? t).isSome := by
    unfold NoGap storeTuples
    simp only [handleStoreGEP_aliasSet?]
  rw [hgap]
  constructor
  · intro h
    by_contra hnot
    simp only [not_or, not_forall, Bool.not_eq_true] at hnot
    obtain ⟨⟨t₀, ht₀, hnone⟩, t, ht, hsome, hsub⟩ := hnot
    refine hsub fun a ha => ?_
    -- with the missing cell in front the loop does nothing
    obtain ⟨gs', rest, hgs', hfirst⟩ := exists_reordered_storeTuples ht₀
    have hmem := ((h gs' hgs' t).2 a).mpr (.inr ⟨hsome, ht, ha⟩)
    have hreached : reached gs' (storeTuples m gs' op) = [] := by
      rw [reached, hfirst, List.takeWhile_cons_of_neg]
      rw [hgs'.aliasSet?, hnone]
      exact Bool.false_ne_true
    rw [mem_cell_updatePtoStore, hreached] at hmem
    have hcell : a ∈ gs'.cell t := hmem.resolve_right fun h => nomatch h.1
    rwa [GlobalState.cell, hgs'.aliasSet?] at hcell
  · intro h gs' hgs' t
    refine ⟨by rw [updatePtoStore_isSome, hgs'.aliasSet?], fun a => ?_⟩
    rw [mem_cell_updatePtoStore, (hgs'.storedObjects m v op).symm.mem_iff]
    simp only [GlobalState.cell, hgs'.aliasSet?]
    have htuples := (hgs'.storeTuples m op).symm
    rcases h with hall | hhas
    · have hreached : reached gs' (storeTuples m gs' op) = storeTuples m gs' op := by
        refine List.takeWhile_eq_self_iff.mpr fun t ht => ?_
        rw [hgs'.aliasSet?]
        exact hall t (htuples.mem_iff.mp ht)
      rw [hreached, htuples.mem_iff]
      have hsome := hall t
      tauto
    · constructor
      · rintro (ha | ⟨ht, ha⟩)
        · exact .inl ha
        · obtain ⟨ht, hsome⟩ := mem_reached ht
          rw [hgs'.aliasSet?] at hsome
          exact .inl (hhas t (htuples.mem_iff.mp ht) hsome ha)
      · rintro (ha | ⟨hsome, ht, ha⟩)
        · exact .inl ha
        · exact .inl (hhas t ht hsome ha)

/-- Load and store treat the tuples of the address independently exactly
when none of them is without a cell, or all is there already. -/
theorem tuples_independent_iff (m : Module) (gs : GlobalState) (self v op : Value)
    (hop : (gs.pts? op).isSome) :
    (LoadsEach gs self op ↔ NoGap gs op ∨
      ∀ a, a ∈ gs.objectsOf self ↔ ∃ t ∈ gs.tuplesOf op, a ∈ gs.cell t) ∧
    (StoresEach m gs v op ↔ NoGap (handleStoreGEP m gs op) op ∨
      ∀ t ∈ storeTuples m gs op, (gs.aliasSet? t).isSome → storedObjects m gs v op ⊆ gs.cell t) :=
  ⟨loadsEach_iff hop self, storesEach_iff m gs v op⟩

/-- A global `x`, and an address `p` with the given tuples. -/
def addressState (ts : List AliasObjectTuple) : GlobalState :=
  (GlobalState.empty.newObject (.global "x") (.int 32)).newPts (.global "p") ts

def noModule : Module := ⟨[], [], []⟩

theorem tuples_independent_cell :
    LoadsEach (addressState [⟨0, 1⟩]) (.inst "main" 0) (.global "p") ∧
      StoresEach noModule (addressState [⟨0, 1⟩]) (.global "x") (.global "p") := by
  have hgap : NoGap (addressState [⟨0, 1⟩]) (.global "p") := by
    unfold NoGap
    decide
  obtain ⟨hload, hstore⟩ := tuples_independent_iff noModule (addressState [⟨0, 1⟩])
    (.inst "main" 0) (.global "x") (.global "p") (by decide)
  exact ⟨hload.mpr (.inl hgap), hstore.mpr (.inl hgap)⟩

/-- The first tuple is without a cell: the second is not loaded from. -/
theorem gap_suppresses : ¬ ∀ (m : Module) (gs : GlobalState) (self v op : Value),
    (gs.pts? op).isSome → LoadsEach gs self op ∧ StoresEach m gs v op := by
  intro h
  have hload := (h noModule (addressState [⟨1, 1⟩, ⟨0, 1⟩]) (.inst "main" 0) (.global "x")
    (.global "p") (by decide)).1 _ (.refl _) 0
  have hcell : ∃ t ∈ (addressState [⟨1, 1⟩, ⟨0, 1⟩]).tuplesOf (.global "p"),
      0 ∈ (addressState [⟨1, 1⟩, ⟨0, 1⟩]).cell t := ⟨⟨0, 1⟩, by decide, by decide⟩
  have hmem := hload.mpr hcell
  revert hmem
  decide

/-! ## A store read back -/

/-- After a store through an address whose tuples all have cells, a load
through it has a tuple of the stored value again exactly if its offset is
0: the cells are sets of objects. -/
theorem stored_tuple_iff {m : Module} {gs : GlobalState} {v op : Value} (self : Value)
    (hop : ((handleStoreGEP m gs op).pts? op).isSome) (hgap : NoGap (handleStoreGEP m gs op) op)
    {t : AliasObjectTuple} (ht : t ∈ storedTuples m gs v op) :
    t ∈ (updatePtoLoad (updatePtoStore m gs v op) self op).tuplesOf self ↔
      t.offset = 0 ∧ storeTuples m gs op ≠ [] := by
  have hv : gs.pMap.lookup v ≠ none := by
    intro hnone
    rw [storedTuples, if_pos hnone] at ht
    exact nomatch ht
  obtain ⟨objects, hstore⟩ := updatePtoStore_rest op hv
  have htuples : (updatePtoStore m gs v op).tuplesOf op = storeTuples m gs op := by
    rw [hstore]
    rfl
  have hgap' : NoGap (updatePtoStore m gs v op) op := by
    intro t' ht'
    rw [htuples] at ht'
    rw [updatePtoStore_isSome, ← handleStoreGEP_aliasSet? m gs op]
    exact hgap t' ht'
  have hop' : ((updatePtoStore m gs v op).pts? op).isSome := by
    rw [hstore]
    exact hop
  have hreached : reached gs (storeTuples m gs op) = storeTuples m gs op :=
    List.takeWhile_eq_self_iff.mpr fun t' ht' => handleStoreGEP_aliasSet? m gs op t' ▸ hgap t' ht'
  rw [updatePtoLoad_of_noGap hop' hgap', htuples]
  simp only [List.mem_flatMap, List.mem_map]
  constructor
  · rintro ⟨t', ht', a, -, rfl⟩
    exact ⟨rfl, List.ne_nil_of_mem ht'⟩
  · rintro ⟨hoff, hne⟩
    obtain ⟨t', ht'⟩ := List.exists_mem_of_ne_nil _ hne
    refine ⟨t', ht', t.ao, ?_, by rw [← hoff]⟩
    rw [mem_cell_updatePtoStore, hreached]
    exact .inr ⟨ht', List.mem_map.mpr ⟨t, ht, rfl⟩⟩

/-- The address `p` of a cell, and a value `q` that points to a field. -/
def fieldState (offset : Nat) : GlobalState :=
  (addressState [⟨0, 1⟩]).newPts (.global "q") [⟨offset, 1⟩]

theorem stored_tuple_start :
    ⟨0, 1⟩ ∈ (updatePtoLoad (updatePtoStore noModule (fieldState 0) (.global "q") (.global "p"))
      (.inst "main" 0) (.global "p")).tuplesOf (.inst "main" 0) := by
  refine (stored_tuple_iff (.inst "main" 0) (by decide) ?_ (by decide)).mpr ⟨rfl, by decide⟩
  unfold NoGap
  decide

theorem field_offset_lost : ¬ ∀ (m : Module) (gs : GlobalState) (self v op : Value),
    ((handleStoreGEP m gs op).pts? op).isSome → NoGap (handleStoreGEP m gs op) op →
      ∀ t ∈ storedTuples m gs v op,
        t ∈ (updatePtoLoad (updatePtoStore m gs v op) self op).tuplesOf self := by
  intro h
  have hgap : NoGap (handleStoreGEP noModule (fieldState 1) (.global "p")) (.global "p") := by
    unfold NoGap
    decide
  have hmem := h noModule (fieldState 1) (.inst "main" 0) (.global "q") (.global "p") (by decide)
    hgap ⟨1, 1⟩ (by decide)
  revert hmem
  decide

/-! ## Constant expressions -/

def SameTuples (l l' : List AliasObjectTuple) : Prop := ∀ t, t ∈ l ↔ t ∈ l'

/-- A constant expression and an instruction with the same base and
indices denote the same cells, for the rules, and for loads and stores in
both orders. -/
structure GepAgrees (m : Module) (gs : GlobalState) (base : Value) (pointee : Shape)
    (idx : List (Option Nat)) : Prop where
  rules : ∀ self, (gs.pts? base).isSome →
    SameTuples
      ((handlePtoGEPOperator gs (.gepExpr base pointee idx) base pointee idx).tuplesOf
        (.gepExpr base pointee idx))
      ((updatePtoGEP gs self base pointee idx).tuplesOf self)
  loadFirst : SameTuples (gs.tuplesOf (.gepExpr base pointee idx))
    (storeTuples m gs (.gepExpr base pointee idx))
  storeFirst : ∀ i v, i.kind = .store v (.gepExpr base pointee idx) →
    SameTuples ((dispatchClients m gs i).tuplesOf (.gepExpr base pointee idx))
      (storeTuples m gs (.gepExpr base pointee idx))

section GepExpr

variable {gs : GlobalState} {base : Value} {pointee : Shape} {idx : List (Option Nat)}

theorem updatePtoGEP_tuplesOf (self : Value) (h : (gs.pts? base).isSome) :
    (updatePtoGEP gs self base pointee idx).tuplesOf self =
      (gs.tuplesOf base).map (gepTuple pointee idx) := by
  obtain ⟨r, hr⟩ := Option.isSome_iff_exists.mp h
  unfold updatePtoGEP
  rw [hr, tuplesOf_of_pts? hr]
  cases pointee with
  | struct => exact tuplesOf_newPts gs self _
  | array =>
      have hid : gepTuple .array idx = id := rfl
      rw [hid, List.map_id]
      exact tuplesOf_setPts gs self r
  | scalar =>
      have hid : gepTuple .scalar idx = id := rfl
      rw [hid, List.map_id]
      exact tuplesOf_setPts gs self r

theorem base_ne : base ≠ .gepExpr base pointee idx := by
  intro h
  have hsize := congrArg sizeOf h
  simp only [Value.gepExpr.sizeOf_spec] at hsize
  omega

/-- The lookup of a constant expression leaves its base as it is. -/
theorem handlePtoGEPOperator_base {gop : Value} (hne : base ≠ gop) :
    (handlePtoGEPOperator gs gop base pointee idx).pts? base = gs.pts? base ∧
      (handlePtoGEPOperator gs gop base pointee idx).tuplesOf base = gs.tuplesOf base := by
  have hpts := (handlePtoGEPOperator_off gs gop base pointee idx).pts? (v := base) (by simpa using hne)
  refine ⟨hpts, ?_⟩
  cases hr : gs.pts? base with
  | none => rw [tuplesOf_of_none hr, tuplesOf_of_none (hpts.trans hr)]
  | some r =>
      rw [tuplesOf_of_pts? hr, tuplesOf_of_pts? (hpts.trans hr)]
      unfold handlePtoGEPOperator
      rw [hr]
      dsimp only
      split
      · rfl
      · split
        · rfl
        · -- a set that is not there is empty, and what is made from it too
          unfold GlobalState.newPts GlobalState.tupleSet atField
          dsimp only
          rcases Nat.lt_trichotomy r gs.tupleSets.length with h | h | h
          · rw [List.getElem?_append_left h]
          · simp [h]
          · rw [List.getElem?_eq_none (Nat.le_of_lt h), List.getElem?_eq_none]
            rw [List.length_append]
            exact h
        · rfl

theorem storeTaints_rest (is : List Value) (ts : List AliasObjectTuple) (gs : GlobalState) :
    ∃ objects, storeTaints is ts gs = { gs with objects := objects } := by
  induction ts generalizing gs with
  | nil => exact ⟨gs.objects, rfl⟩
  | cons t ts ih =>
      unfold storeTaints
      split
      · exact ⟨gs.objects, rfl⟩
      · rename_i map _
        obtain ⟨objects, h⟩ := ih
          (setTaintMap gs t.ao (insertAt t.offset is (withEntry t.offset map)))
        exact ⟨objects, h⟩

/-- The taint rule looks the address up once more. -/
theorem updateTaintStore_tuplesOf (m : Module) (gs : GlobalState) (self v op w : Value) :
    (updateTaintStore m gs self v op).tuplesOf w = (handleStoreGEP m gs op).tuplesOf w := by
  unfold updateTaintStore
  dsimp only
  split
  · rfl
  · obtain ⟨objects, h⟩ := storeTaints_rest _ _ _
    rw [h]
    rfl

theorem storeTuples_gepExpr (m : Module) (gs : GlobalState) :
    storeTuples m gs (.gepExpr base pointee idx) =
      (handlePtoGEPOperator gs (.gepExpr base pointee idx) base pointee idx).tuplesOf
        (.gepExpr base pointee idx) := rfl

/-- After a store the entry is what the store has used. -/
theorem dispatchClients_gepExpr (m : Module) (gs : GlobalState) {i : Inst} {v : Value}
    (hkind : i.kind = .store v (.gepExpr base pointee idx)) :
    (dispatchClients m gs i).tuplesOf (.gepExpr base pointee idx) =
      storeTuples m gs (.gepExpr base pointee idx) := by
  have hdispatch : dispatchClients m gs i = updateTaintStore m
      (updatePtoStore m gs v (.gepExpr base pointee idx)) i.self v (.gepExpr base pointee idx) := by
    unfold dispatchClients pointsToAnalysis taintAnalysis
    rw [hkind]
  rw [hdispatch, updateTaintStore_tuplesOf]
  by_cases hv : gs.pMap.lookup v = none
  · rw [updatePtoStore, if_pos hv]
    rfl
  · obtain ⟨objects, hstore⟩ := updatePtoStore_rest (m := m) (.gepExpr base pointee idx) hv
    have hne : base ≠ .gepExpr base pointee idx := base_ne
    obtain ⟨hpts, htuples⟩ : (handlePtoGEPOperator gs (.gepExpr base pointee idx) base pointee
        idx).pts? base = gs.pts? base ∧ _ := handlePtoGEPOperator_base hne
    rw [hstore, storeTuples_gepExpr]
    by_cases hres : Resolves gs base pointee idx
    · rw [handlePtoGEPOperator_of_resolves _ hres, ← htuples]
      refine handlePtoGEPOperator_of_resolves _ ⟨hres.1, hres.2.1, ?_⟩
      exact hpts.symm ▸ hres.2.2
    · have hagain : ¬ Resolves { handleStoreGEP m gs (.gepExpr base pointee idx) with
          objects := objects } base pointee idx :=
        fun h => hres ⟨h.1, h.2.1, hpts ▸ h.2.2⟩
      have hsame := congrArg (fun gs : GlobalState => gs.tuplesOf (.gepExpr base pointee idx))
        (handlePtoGEPOperator_of_not_resolves (.gepExpr base pointee idx) hagain)
      exact hsame

end GepExpr

/-- They agree exactly when the base has no tuple set, or the expression
has been given an entry with what the rule for the instruction makes of
the tuples of the base. -/
theorem gepAgrees_iff (m : Module) (gs : GlobalState) (base : Value) (pointee : Shape)
    (idx : List (Option Nat)) :
    GepAgrees m gs base pointee idx ↔ gs.pts? base = none ∨
      SameTuples (gs.tuplesOf (.gepExpr base pointee idx))
        ((gs.tuplesOf base).map (gepTuple pointee idx)) := by
  cases hbase : gs.pts? base with
  | none =>
      have hres : ¬ Resolves gs base pointee idx := fun h => by
        have hsome := h.2.2
        rw [hbase] at hsome
        cases hsome
      refine iff_of_true ⟨fun self h => ?_, fun t => ?_, fun i v hkind t => ?_⟩ (.inl rfl)
      · rw [hbase] at h
        cases h
      · rw [storeTuples_gepExpr, handlePtoGEPOperator_of_not_resolves _ hres]
      · rw [dispatchClients_gepExpr m gs hkind]
  | some r =>
      have hsome : (gs.pts? base).isSome := by simp [hbase]
      rw [or_iff_right (by simp)]
      constructor
      · intro h t
        rw [h.loadFirst t, ← updatePtoGEP_tuplesOf .null hsome]
        exact h.rules .null hsome t
      · intro h
        have hstore : SameTuples (storeTuples m gs (.gepExpr base pointee idx))
            ((gs.tuplesOf base).map (gepTuple pointee idx)) := by
          rw [storeTuples_gepExpr]
          by_cases hres : Resolves gs base pointee idx
          · rw [handlePtoGEPOperator_of_resolves _ hres]
            exact fun t => .rfl
          · rwa [handlePtoGEPOperator_of_not_resolves _ hres]
        refine ⟨fun self hself t => ?_, fun t => (h t).trans (hstore t).symm, fun i v hkind t => ?_⟩
        · rw [updatePtoGEP_tuplesOf self hself]
          exact hstore t
        · rw [dispatchClients_gepExpr m gs hkind]

/-- A literal struct `s` of two integers, before anything is visited. -/
def structModule : Module := ⟨[("s", .struct none [.int 32, .int 32])], [], []⟩

/-- A load of the second field comes before any store there. -/
theorem constant_gep_unseen : ¬ ∀ (m : Module) (gs : GlobalState) (base : Value) (pointee : Shape)
    (idx : List (Option Nat)), GepAgrees m gs base pointee idx := by
  intro h
  have hload := (h structModule (initializeGS .empty structModule) (.global "s") .struct
    [some 0, some 1]).loadFirst ⟨1, 4⟩
  have hstore : ⟨1, 4⟩ ∈ storeTuples structModule (initializeGS .empty structModule)
      (.gepExpr (.global "s") .struct [some 0, some 1]) := by decide
  have hmem := hload.mpr hstore
  revert hmem
  decide

end Nova

end Oat
