import Oat.FoldRun
import Oat.NovaFrame

/-!
# Parameters and call sites

Each call is followed once, and `InitializeFunction` gives the parameters
of the callee the entries of the arguments. `visits` lists the calls that
a traversal follows, in order, each with the state at the call.

`param_flow` is what comes of the tuples of the arguments. An update of
the analysis leaves the entries of parameters alone and tuple sets only
grow (`Frame`), so at the end a parameter has what its last visit left.
-/

namespace Oat

namespace Nova

/-! ## Frame of the updates -/

def Value.isParam : Value → Bool
  | .param _ _ => true
  | _ => false

structure Frame (gs gs' : GlobalState) : Prop where
  params : ∀ v, v.isParam = true → gs'.pMap.lookup v = gs.pMap.lookup v
  grown : Grown gs gs'
  ci : gs'.ci = gs.ci
  vMap : gs.vMap ⊆ gs'.vMap

namespace Frame

variable {gs gs' : GlobalState}

theorem refl (gs : GlobalState) : Frame gs gs :=
  ⟨fun _ _ => rfl, .refl gs, rfl, List.Subset.refl _⟩

theorem trans {a b c : GlobalState} (h₁ : Frame a b) (h₂ : Frame b c) : Frame a c :=
  ⟨fun v hv => (h₂.params v hv).trans (h₁.params v hv), h₁.grown.trans h₂.grown,
    h₂.ci.trans h₁.ci, List.Subset.trans h₁.vMap h₂.vMap⟩

theorem of_off {K : List Value} (h : Off K gs gs') (hK : ∀ v ∈ K, v.isParam = false) :
    Frame gs gs' := by
  refine ⟨fun v hv => h.lookup v fun hm => ?_, h.grown, h.ci, by rw [h.vMap]; exact List.Subset.refl _⟩
  exact Bool.noConfusion (hv.symm.trans (hK v hm))

end Frame

/-! ## Each rule keeps to its frame -/

section Rules

variable (m : Module) (gs : GlobalState)

theorem isParam_of_gepOperator? {v : Value} {g : Value × Shape × List (Option Nat)}
    (h : m.gepOperator? v = some g) : v.isParam = false := by
  cases v with
  | param fn i =>
      have hnone : (m.insts.find? fun i' => i'.self = .param fn i) = none := by
        apply List.find?_eq_none.mpr
        intro i' _
        simp [Inst.self]
      simp [Module.gepOperator?, hnone] at h
  | _ => rfl

theorem dispatchClients_frame (hci : gs.ci.isParam = false) (i : Inst) :
    Frame gs (dispatchClients m gs i) := by
  refine .of_off (dispatchClients_off m gs i) fun v hv => ?_
  unfold touched at hv
  split at hv
  · rename_i op _
    obtain ⟨rfl, hsome⟩ := mem_gepKey.mp hv
    obtain ⟨g, hg⟩ := Option.isSome_iff_exists.mp hsome
    exact isParam_of_gepOperator? m hg
  · obtain rfl := List.mem_singleton.mp hv
    exact hci
  · exact nomatch hv
  · exact nomatch hv
  · obtain rfl := List.mem_singleton.mp hv
    rfl

end Rules

/-! ## The calls a traversal follows -/

/-- `gs` is the state at the call, `f` the function called. -/
structure Visit where
  gs : GlobalState
  f : Function
  call : Value
  args : List Value

def Visit.entered (v : Visit) : GlobalState := initializeFunction v.gs v.f v.call v.args

/-- The argument for a parameter. -/
def Visit.arg? (v : Visit) (i : Nat) : Option Value := if i < v.f.params then v.args[i]? else none

/-- The body an instruction goes into. -/
def followed (m : Module) (gs : GlobalState) (i : Inst) : Option Visit :=
  match i.kind with
  | .call callee args =>
      match resolveCall gs i.self callee with
      | (some name, gs) =>
          if name = "llvm.var.annotation" then none
          else
            match m.function? name with
            | some f => if f.blocks.isEmpty then none else some ⟨gs, f, i.self, args⟩
            | none => none
      | (none, _) => none
  | _ => none

/-- The instructions of a function as `Traversal` comes to them. -/
def schedule (f : Function) : List Inst :=
  (reverseSCC f).flatMap fun scc =>
    if 1 < scc.length then (List.range maxRuns).flatMap fun _ => scc.flatten else scc.flatten

def visitsIn (m : Module) (traverse : GlobalState → Function → Option GlobalState)
    (inner : Visit → List Visit) : GlobalState → List Inst → List Visit
  | _, [] => []
  | gs, i :: is =>
      ((followed m gs i).map fun v => v :: inner v).getD [] ++
        match visitInst m traverse gs i with
        | some gs => visitsIn m traverse inner gs is
        | none => []

/-- The calls that `traversal` follows. -/
def visits (m : Module) : Nat → GlobalState → Function → List Visit
  | 0, _, _ => []
  | fuel + 1, gs, f =>
      visitsIn m (traversal m fuel) (fun v => visits m fuel v.entered v.f) gs (schedule f)

theorem traversal_succ (m : Module) (fuel : Nat) (gs : GlobalState) (f : Function) :
    traversal m (fuel + 1) gs f = (schedule f).foldlM (visitInst m (traversal m fuel)) gs := by
  rw [schedule, foldlM_flatMap, traversal]
  congr 1
  funext gs scc
  split
  · rw [foldlM_flatMap]
    rfl
  · rfl

/-- Only the first visit of a call whose callee has a body goes into one. -/
theorem followed_inv {m : Module} {gs : GlobalState} {i : Inst} {v : Visit}
    (h : followed m gs i = some v) :
    ∃ name args f, i.kind = .call (some name) args ∧ i.self ∉ gs.vMap ∧
      name ≠ "llvm.var.annotation" ∧ m.function? name = some f ∧ f.blocks.isEmpty = false ∧
      v = ⟨{ gs with vMap := i.self :: gs.vMap }, f, i.self, args⟩ := by
  unfold followed resolveCall at h
  cases hkind : i.kind with
  | call callee args =>
      rw [hkind] at h
      by_cases hmem : i.self ∈ gs.vMap
      · simp [hmem] at h
      · cases callee with
        | none => simp [hmem] at h
        | some name =>
            by_cases hname : name = "llvm.var.annotation"
            · simp [hmem, hname] at h
            · cases hf : m.function? name with
              | none => simp [hmem, hname, hf] at h
              | some f =>
                  simp only [hmem, hname, hf, if_false] at h
                  cases hbody : f.blocks.isEmpty with
                  | true => simp [hbody] at h
                  | false =>
                      simp only [hbody, Bool.false_eq_true, if_false, Option.some.injEq] at h
                      exact ⟨name, args, f, rfl, hmem, hname, hf, hbody, h.symm⟩
  | _ => simp [hkind] at h

theorem visitInst_of_followed {m : Module} {gs : GlobalState} {i : Inst} {v : Visit}
    (traverse : GlobalState → Function → Option GlobalState) (h : followed m gs i = some v) :
    visitInst m traverse gs i = traverse v.entered v.f := by
  obtain ⟨name, args, f, hkind, hnew, hname, hf, hbody, rfl⟩ := followed_inv h
  unfold visitInst
  rw [hkind]
  simp only [handleCall, resolveCall, if_neg hnew, if_neg hname, hf, hbody, Bool.false_eq_true,
    if_false]
  rfl

/-- The state that a body is entered with has the mark of the call. -/
theorem followed_spec {m : Module} {gs : GlobalState} {i : Inst} {v : Visit}
    (h : followed m gs i = some v) :
    v.gs = { gs with vMap := i.self :: gs.vMap } ∧ v.call = i.self ∧ i.self ∉ gs.vMap ∧
      v.f ∈ m.functions ∧ ∃ callee args, i.kind = .call callee args := by
  obtain ⟨name, args, f, hkind, hnew, -, hf, -, rfl⟩ := followed_inv h
  exact ⟨rfl, rfl, hnew, List.mem_of_find?_eq_some hf, some name, args, hkind⟩

def Inst.isCall (i : Inst) : Bool :=
  match i.kind with
  | .call _ _ => true
  | _ => false

/-- An instruction that goes into no body is dispatched, or a call that
leaves its mark and may name a sensitive variable. -/
theorem visitInst_cases {m : Module} {gs : GlobalState} {i : Inst}
    (traverse : GlobalState → Function → Option GlobalState) (h : followed m gs i = none) :
    (i.isCall = false ∧ visitInst m traverse gs i = some (dispatchClients m gs i)) ∨
      (i.isCall = true ∧ ∃ vMap senVarSet, (∀ c, c ∈ vMap ↔ c = i.self ∨ c ∈ gs.vMap) ∧
        visitInst m traverse gs i = some { gs with vMap := vMap, senVarSet := senVarSet }) := by
  unfold followed resolveCall at h
  unfold visitInst Inst.isCall
  cases hkind : i.kind with
  | call callee args =>
      rw [hkind] at h
      refine .inr ⟨rfl, ?_⟩
      dsimp only at h ⊢
      unfold handleCall resolveCall
      by_cases hmem : i.self ∈ gs.vMap
      · have hmark : ∀ c, c ∈ gs.vMap ↔ c = i.self ∨ c ∈ gs.vMap :=
          fun c => (or_iff_right_of_imp fun h => h ▸ hmem).symm
        exact ⟨gs.vMap, gs.senVarSet, hmark, by simp [hmem]⟩
      · refine ⟨i.self :: gs.vMap, ?_⟩
        cases callee with
        | none => exact ⟨gs.senVarSet, fun _ => List.mem_cons, by simp [hmem]⟩
        | some name =>
            by_cases hname : name = "llvm.var.annotation"
            · exact ⟨_, fun _ => List.mem_cons, by simp only [hmem, hname, if_true, if_false]; rfl⟩
            · refine ⟨gs.senVarSet, fun _ => List.mem_cons, ?_⟩
              cases hf : m.function? name with
              | none => simp [hmem, hname, hf]
              | some f =>
                  have hbody : f.blocks.isEmpty = true := by simpa [hmem, hname, hf] using h
                  simp [hmem, hname, hf, hbody]
  | _ => exact .inl ⟨rfl, rfl⟩

/-- An instruction that goes into no body stays in the frame. -/
theorem visitInst_of_not_followed {m : Module} {gs : GlobalState} {i : Inst}
    (traverse : GlobalState → Function → Option GlobalState) (hci : gs.ci.isParam = false)
    (h : followed m gs i = none) :
    ∃ gs', visitInst m traverse gs i = some gs' ∧ Frame gs gs' := by
  rcases visitInst_cases traverse h with ⟨-, hvisit⟩ | ⟨-, vMap, senVarSet, hvMap, hvisit⟩
  · exact ⟨_, hvisit, dispatchClients_frame m gs hci i⟩
  · exact ⟨_, hvisit, fun _ _ => rfl, .refl _, rfl, fun c hc => (hvMap c).mpr (.inr hc)⟩

/-! ## Entering a body -/

/-- The parameters with their arguments. -/
def Visit.pairs (v : Visit) : List (Value × Value) :=
  ((List.range v.f.params).map (Value.param v.f.name)).zip v.args

def assign (gs : GlobalState) (pairs : List (Value × Value)) : GlobalState :=
  pairs.foldl (fun gs p => initializeParam gs p.1 p.2) gs

/-- The state in which `InitializeFunction` comes to parameter `i`. -/
def Visit.before (v : Visit) (i : Nat) : GlobalState :=
  assign { v.gs with ci := v.call } (v.pairs.take i)

/-- Whether the argument has both entries then. -/
def Visit.binds (v : Visit) (i : Nat) : Bool :=
  match v.arg? i with
  | some arg =>
      ((v.before i).pMap.lookup arg).isSome && ((v.before i).tMap.lookup arg).isSome
  | none => false

theorem assign_inv {P : GlobalState → Prop} {gs : GlobalState} {pairs : List (Value × Value)}
    (h0 : P gs) (hstep : ∀ gs, ∀ p ∈ pairs, P gs → P (initializeParam gs p.1 p.2)) :
    P (assign gs pairs) :=
  List.foldlRecOn (motive := P) _ _ h0 fun gs hgs p hp => hstep gs p hp hgs

theorem initializeParam_other (gs : GlobalState) {var arg w : Value} (h : w ≠ var) :
    (initializeParam gs var arg).pMap.lookup w = gs.pMap.lookup w := by
  unfold initializeParam
  split
  · exact AList.lookup_insert_ne h
  · rfl

theorem assign_other {gs : GlobalState} {pairs : List (Value × Value)} {w : Value}
    (h : ∀ p ∈ pairs, w ≠ p.1) : (assign gs pairs).pMap.lookup w = gs.pMap.lookup w :=
  assign_inv (P := fun gs' => gs'.pMap.lookup w = gs.pMap.lookup w) rfl
    fun gs' p hp hgs => (initializeParam_other gs' (h p hp)).trans hgs

/-- Nothing but the two maps changes. -/
theorem assign_rest (gs : GlobalState) (pairs : List (Value × Value)) :
    (assign gs pairs).tupleSets = gs.tupleSets ∧ (assign gs pairs).ci = gs.ci ∧
      (assign gs pairs).vMap = gs.vMap := by
  apply assign_inv (P := fun gs' => gs'.tupleSets = gs.tupleSets ∧ gs'.ci = gs.ci ∧
    gs'.vMap = gs.vMap) ⟨rfl, rfl, rfl⟩
  intro gs' p _ hgs
  unfold initializeParam
  split
  · exact hgs
  · exact hgs

theorem Visit.entered_tupleSet (v : Visit) (r : TupleSetRef) :
    v.entered.tupleSet r = v.gs.tupleSet r :=
  congrArg (fun sets : List (List AliasObjectTuple) => sets[r]?.getD []) (assign_rest _ _).1

theorem Visit.entered_ci (v : Visit) : v.entered.ci = v.call := (assign_rest _ _).2.1

theorem Visit.entered_vMap (v : Visit) : v.entered.vMap = v.gs.vMap := (assign_rest _ _).2.2

theorem Visit.pairs_getElem? (v : Visit) (i : Nat) :
    v.pairs[i]? = (v.arg? i).map fun arg => (Value.param v.f.name i, arg) := by
  rw [Visit.pairs, List.zip, List.getElem?_zipWith', List.getElem?_map, Visit.arg?]
  by_cases hi : i < v.f.params
  · simp [hi]
  · simp [hi]

/-- A pair at `j` is for parameter `j`. -/
theorem Visit.ne_of_getElem? {v : Visit} {i j : Nat} {p : Value × Value} (h : v.pairs[j]? = some p)
    (hij : j ≠ i) (fn : String) : Value.param fn i ≠ p.1 := by
  rw [v.pairs_getElem?] at h
  obtain ⟨arg, -, rfl⟩ := Option.map_eq_some_iff.mp h
  rintro ⟨⟩
  exact hij rfl

theorem Visit.before_lookup (v : Visit) (fn : String) (i : Nat) :
    (v.before i).pMap.lookup (.param fn i) = v.gs.pMap.lookup (.param fn i) := by
  refine assign_other fun p hp => ?_
  obtain ⟨j, hj, hp⟩ := List.mem_take_iff_getElem.mp hp
  exact Visit.ne_of_getElem? (hp ▸ List.getElem?_eq_getElem _) (by omega) fn

/-- `InitializeFunction` on one parameter: the ones before and after it
are others. -/
theorem Visit.entered_lookup (v : Visit) (i : Nat) {arg : Value} (harg : v.arg? i = some arg) :
    v.entered.pMap.lookup (.param v.f.name i) =
      (initializeParam (v.before i) (.param v.f.name i) arg).pMap.lookup
        (.param v.f.name i) := by
  have hi : v.pairs[i]? = some (.param v.f.name i, arg) := by rw [v.pairs_getElem?, harg]; rfl
  obtain ⟨hlt, hget⟩ := List.getElem?_eq_some_iff.mp hi
  have hsplit : v.pairs = v.pairs.take i ++ (.param v.f.name i, arg) :: v.pairs.drop (i + 1) := by
    rw [← hget, List.getElem_cons_drop, List.take_append_drop]
  have hent : v.entered = assign (initializeParam (v.before i) (.param v.f.name i) arg)
      (v.pairs.drop (i + 1)) := by
    show assign { v.gs with ci := v.call } v.pairs = _
    conv_lhs => rw [hsplit]
    rw [assign, List.foldl_append, List.foldl_cons]
    rfl
  rw [hent]
  refine assign_other fun p hp => ?_
  obtain ⟨j, hj, hp⟩ := List.mem_drop_iff_getElem.mp hp
  exact Visit.ne_of_getElem? (hp ▸ List.getElem?_eq_getElem _) (by omega) _

/-- With both entries, the parameter gets the tuples of the argument. -/
theorem Visit.entered_of_binds {v : Visit} {i : Nat} (h : v.binds i = true) :
    ∃ arg, v.arg? i = some arg ∧
      v.entered.pMap.lookup (.param v.f.name i) = (v.before i).pMap.lookup arg := by
  unfold Visit.binds at h
  split at h
  · rename_i arg harg
    obtain ⟨hp, ht⟩ := Bool.and_eq_true_iff.mp h
    obtain ⟨ts, hts⟩ := Option.isSome_iff_exists.mp hp
    obtain ⟨is, his⟩ := Option.isSome_iff_exists.mp ht
    refine ⟨arg, harg, ?_⟩
    rw [v.entered_lookup i harg, initializeParam, hts, his]
    exact AList.lookup_insert _
  · cases h

/-- Without them it keeps what it had. -/
theorem Visit.entered_of_not_binds {v : Visit} {i : Nat} (h : v.binds i = false) :
    v.entered.pMap.lookup (.param v.f.name i) = v.gs.pMap.lookup (.param v.f.name i) := by
  cases harg : v.arg? i with
  | none =>
      refine assign_other fun p hp => ?_
      obtain ⟨j, hj, hp⟩ := List.mem_iff_getElem.mp hp
      have hj : v.pairs[j]? = some p := hp ▸ List.getElem?_eq_getElem _
      refine Visit.ne_of_getElem? hj ?_ _
      rintro rfl
      rw [v.pairs_getElem?, harg] at hj
      cases hj
  | some arg =>
      rw [v.entered_lookup i harg, ← v.before_lookup]
      unfold initializeParam
      split
      · rename_i hp ht
        simp [Visit.binds, harg, hp, ht] at h
      · rfl

theorem Visit.entered_other (v : Visit) {fn : String} (h : v.f.name ≠ fn) (i : Nat) :
    v.entered.pMap.lookup (.param fn i) = v.gs.pMap.lookup (.param fn i) := by
  refine assign_other fun p hp => ?_
  obtain ⟨j, -, hj⟩ := List.mem_map.mp (List.of_mem_zip hp).1
  rw [← hj]
  rintro ⟨⟩
  exact h rfl

/-! ## From the last visit to the end -/

/-- The last call of `fn` that assigns parameter `i`. -/
def lastBinding (fn : String) (i : Nat) (log : List Visit) : Option Visit :=
  (log.filter fun v => v.f.name = fn ∧ v.binds i = true).getLast?

/-- The state that decides the parameter. -/
def bound (gs : GlobalState) (fn : String) (i : Nat) (log : List Visit) : GlobalState :=
  ((lastBinding fn i log).map Visit.entered).getD gs

theorem bound_append (gs : GlobalState) (fn : String) (i : Nat) (l₁ l₂ : List Visit) :
    bound gs fn i (l₁ ++ l₂) = bound (bound gs fn i l₁) fn i l₂ := by
  unfold bound lastBinding
  rw [List.filter_append, List.getLast?_append]
  cases (l₂.filter fun v => v.f.name = fn ∧ v.binds i = true).getLast? <;> rfl

theorem bound_cases (gs gs' : GlobalState) (fn : String) (i : Nat) (log : List Visit) :
    bound gs fn i log = bound gs' fn i log ∨ (∀ a, bound a fn i log = a) := by
  unfold bound
  cases lastBinding fn i log with
  | some w => exact .inl rfl
  | none => exact .inr fun _ => rfl

/-- From `gs` to `gs'`, with the calls of `log` followed on the way. -/
structure Kept (gs : GlobalState) (log : List Visit) (gs' : GlobalState) : Prop where
  params : ∀ fn i,
    gs'.pMap.lookup (.param fn i) = (bound gs fn i log).pMap.lookup (.param fn i)
  since : ∀ fn i, Grown (bound gs fn i log) gs'
  grown : Grown gs gs'
  ci : gs.ci.isParam = false → gs'.ci.isParam = false
  vMap : gs.vMap ⊆ gs'.vMap

theorem Kept.of_frame {gs gs' : GlobalState} (h : Frame gs gs') : Kept gs [] gs' :=
  ⟨fun _ _ => h.params _ rfl, fun _ _ => h.grown, h.grown, fun hci => h.ci ▸ hci, h.vMap⟩

theorem Kept.trans {a b c : GlobalState} {l₁ l₂ : List Visit} (h₁ : Kept a l₁ b)
    (h₂ : Kept b l₂ c) : Kept a (l₁ ++ l₂) c := by
  refine ⟨fun fn i => ?_, fun fn i => ?_, h₁.grown.trans h₂.grown, fun h => h₂.ci (h₁.ci h),
    List.Subset.trans h₁.vMap h₂.vMap⟩
  · rw [bound_append, h₂.params]
    rcases bound_cases b (bound a fn i l₁) fn i l₂ with h | h
    · rw [h]
    · rw [h, h, h₁.params]
  · rw [bound_append]
    rcases bound_cases b (bound a fn i l₁) fn i l₂ with h | h
    · exact h ▸ h₂.since fn i
    · rw [h]
      exact (h₁.since fn i).trans h₂.grown

/-- The step for a call that is followed. -/
theorem kept_enter (v : Visit) (hcall : v.call.isParam = false) : Kept v.gs [v] v.entered := by
  have hgrown : Grown v.gs v.entered := fun r t ht => by rwa [v.entered_tupleSet]
  have hb : ∀ fn i, bound v.gs fn i [v] = v.entered ∨
      (bound v.gs fn i [v] = v.gs ∧ (v.f.name = fn → v.binds i = false)) := by
    intro fn i
    by_cases hfn : v.f.name = fn ∧ v.binds i = true
    · exact .inl (by simp [bound, lastBinding, hfn])
    · refine .inr ⟨by simp [bound, lastBinding, hfn], fun h => ?_⟩
      exact Bool.eq_false_iff.mpr fun hbinds => hfn ⟨h, hbinds⟩
  refine ⟨fun fn i => ?_, fun fn i => ?_, hgrown, fun _ => v.entered_ci ▸ hcall,
    fun c hc => v.entered_vMap ▸ hc⟩
  · rcases hb fn i with h | ⟨h, hfn⟩
    · rw [h]
    · rw [h]
      by_cases hname : v.f.name = fn
      · subst hname
        exact Visit.entered_of_not_binds (hfn rfl)
      · exact v.entered_other hname i
  · rcases hb fn i with h | ⟨h, -⟩
    · rw [h]
      exact .refl _
    · rw [h]
      exact hgrown

/-- The visit has the state of the call, up to the mark of the call. -/
theorem followed_kept {m : Module} {gs : GlobalState} {i : Inst} {v : Visit}
    (h : followed m gs i = some v) :
    Frame gs v.gs ∧ v.call = i.self ∧ i.self ∉ gs.vMap ∧ i.self ∈ v.gs.vMap ∧
      v.f ∈ m.functions := by
  obtain ⟨hgs, hcall, hnew, hf, -⟩ := followed_spec h
  rw [hgs]
  exact ⟨⟨fun _ _ => rfl, .refl _, rfl, List.subset_cons_self _ _⟩, hcall, hnew,
    List.mem_cons_self .., hf⟩

theorem kept_insts {m : Module} {traverse : GlobalState → Function → Option GlobalState}
    {inner : Visit → List Visit}
    (ih : ∀ v gs', v.entered.ci.isParam = false → traverse v.entered v.f = some gs' →
      Kept v.entered (inner v) gs') (is : List Inst) (gs gs' : GlobalState)
    (hci : gs.ci.isParam = false) (h : is.foldlM (visitInst m traverse) gs = some gs') :
    Kept gs (visitsIn m traverse inner gs is) gs' := by
  induction is generalizing gs with
  | nil =>
      cases h
      exact .of_frame (.refl _)
  | cons i is ihs =>
      rw [List.foldlM_cons] at h
      obtain ⟨gs₁, hgs₁, hrest⟩ := Option.bind_eq_some_iff.mp h
      have hstep : Kept gs (((followed m gs i).map fun v => v :: inner v).getD []) gs₁ := by
        cases hf : followed m gs i with
        | none =>
            obtain ⟨gs₂, hgs₂, hframe⟩ := visitInst_of_not_followed traverse hci hf
            obtain rfl : gs₂ = gs₁ := Option.some.inj (hgs₂.symm.trans hgs₁)
            exact .of_frame hframe
        | some v =>
            obtain ⟨hframe, hcall, -⟩ := followed_kept hf
            have hvcall : v.call.isParam = false := hcall ▸ rfl
            rw [visitInst_of_followed traverse hf] at hgs₁
            have hin := ih v gs₁ (v.entered_ci ▸ hvcall) hgs₁
            exact (Kept.of_frame hframe).trans ((kept_enter v hvcall).trans hin)
      rw [visitsIn, hgs₁]
      exact hstep.trans (ihs gs₁ (hstep.ci hci) hrest)

/-- The run lemma. -/
theorem traversal_kept (m : Module) (fuel : Nat) (gs gs' : GlobalState) (f : Function)
    (hci : gs.ci.isParam = false) (h : traversal m fuel gs f = some gs') :
    Kept gs (visits m fuel gs f) gs' := by
  induction fuel generalizing gs gs' f with
  | zero => cases h
  | succ fuel ih =>
      rw [traversal_succ] at h
      exact kept_insts (fun v gs' hv hgs' => ih v.entered gs' v.f hv hgs') _ _ _ hci h

/-! ## The traversal ends -/

/-- The calls that may still be followed. -/
def unvisited (m : Module) (gs : GlobalState) : Nat :=
  (m.insts.filter fun i => i.self ∉ gs.vMap).length

theorem unvisited_mono {m : Module} {gs gs' : GlobalState} (h : gs.vMap ⊆ gs'.vMap) :
    unvisited m gs' ≤ unvisited m gs := by
  unfold unvisited
  apply List.Sublist.length_le
  apply List.monotone_filter_right
  intro i hi
  simp only [decide_eq_true_eq] at hi ⊢
  exact fun hmem => hi (h hmem)

theorem unvisited_lt {m : Module} {gs gs' : GlobalState} {i : Inst} (hi : i ∈ m.insts)
    (h : gs.vMap ⊆ gs'.vMap) (hnew : i.self ∉ gs.vMap) (hold : i.self ∈ gs'.vMap) :
    unvisited m gs' < unvisited m gs := by
  have hfilter : m.insts.filter (fun i => i.self ∉ gs'.vMap) =
      (m.insts.filter fun i => i.self ∉ gs.vMap).filter fun i => i.self ∉ gs'.vMap := by
    rw [List.filter_filter]
    apply List.filter_congr
    intro j _
    by_cases hj : j.self ∈ gs.vMap
    · simp [hj, h hj]
    · simp [hj]
  rw [unvisited, hfilter]
  apply List.length_filter_lt_length_iff_exists.mpr
  exact ⟨i, List.mem_filter.mpr ⟨hi, by simpa using hnew⟩, by simpa using hold⟩

theorem schedule_subset {m : Module} {f : Function} (hf : f ∈ m.functions) :
    ∀ i ∈ schedule f, i ∈ m.insts := by
  intro i hi
  obtain ⟨scc, hscc, hi⟩ := List.mem_flatMap.mp hi
  have hflat : i ∈ scc.flatten := by
    split at hi
    · obtain ⟨_, -, hi⟩ := List.mem_flatMap.mp hi
      exact hi
    · exact hi
  obtain ⟨block, hblock, hi⟩ := List.mem_flatten.mp hflat
  rw [reverseSCC, List.mem_reverse] at hscc
  obtain ⟨bs, -, rfl⟩ := List.mem_map.mp hscc
  rw [List.mem_reverse] at hblock
  obtain ⟨b, -, rfl⟩ := List.mem_map.mp hblock
  cases hb : f.blocks[b]? with
  | none => simp [hb] at hi
  | some block =>
      rw [hb] at hi
      exact List.mem_flatMap.mpr ⟨f, hf, List.mem_flatten.mpr ⟨block, List.mem_of_getElem? hb, hi⟩⟩

theorem total_inst {m : Module} {fuel : Nat} {gs : GlobalState} {i : Inst} (hi : i ∈ m.insts)
    (hci : gs.ci.isParam = false)
    (htraverse : ∀ v : Visit, v.entered.ci.isParam = false → v.f ∈ m.functions →
      unvisited m v.entered < unvisited m gs → ∃ gs', traversal m fuel v.entered v.f = some gs') :
    ∃ gs', visitInst m (traversal m fuel) gs i = some gs' ∧ gs'.ci.isParam = false ∧
      gs.vMap ⊆ gs'.vMap := by
  cases hv : followed m gs i with
  | none =>
      obtain ⟨gs', hgs', hframe⟩ := visitInst_of_not_followed (traversal m fuel) hci hv
      exact ⟨gs', hgs', hframe.ci ▸ hci, hframe.vMap⟩
  | some v =>
      obtain ⟨hframe, hcall, hnew, hold, hvf⟩ := followed_kept hv
      have hvci : v.entered.ci.isParam = false := v.entered_ci ▸ hcall ▸ rfl
      have hlt : unvisited m v.entered < unvisited m gs := by
        rw [unvisited, v.entered_vMap]
        exact unvisited_lt hi hframe.vMap hnew hold
      obtain ⟨gs', hgs'⟩ := htraverse v hvci hvf hlt
      have hkept := traversal_kept m fuel _ _ _ hvci hgs'
      refine ⟨gs', (visitInst_of_followed _ hv).trans hgs', hkept.ci hvci, ?_⟩
      exact List.Subset.trans hframe.vMap fun c hc => hkept.vMap (v.entered_vMap ▸ hc)

/-- There is fuel enough as long as it exceeds the calls not yet followed. -/
theorem traversal_total (m : Module) (fuel : Nat) (gs : GlobalState) (f : Function)
    (hci : gs.ci.isParam = false) (hf : f ∈ m.functions) (hfuel : unvisited m gs < fuel) :
    ∃ gs', traversal m fuel gs f = some gs' := by
  induction fuel generalizing gs f with
  | zero => exact absurd hfuel (Nat.not_lt_zero _)
  | succ fuel ih =>
      have hrun : ∃ gs', traversal m (fuel + 1) gs f = some gs' ∧ gs'.ci.isParam = false ∧
          unvisited m gs' ≤ fuel := by
        rw [traversal_succ]
        refine foldlM_total (fun i hi gs hgs => ?_) ⟨hci, Nat.lt_succ_iff.mp hfuel⟩
        obtain ⟨hci, hle⟩ := hgs
        obtain ⟨gs₁, hgs₁, hci₁, hvMap⟩ := total_inst (schedule_subset hf i hi) hci
          fun v hvci hvf hlt => ih v.entered v.f hvci hvf (Nat.lt_of_lt_of_le hlt hle)
        exact ⟨gs₁, hgs₁, hci₁, Nat.le_trans (unvisited_mono hvMap) hle⟩
      obtain ⟨gs', hgs', -⟩ := hrun
      exact ⟨gs', hgs'⟩

/-! ## Flow into the parameters -/

/-- Each call of `fn` followed finds its argument's tuples in `gs`. -/
def ParamCovers (log : List Visit) (gs : GlobalState) (fn : String) (i : Nat) : Prop :=
  ∀ v ∈ log, v.f.name = fn → ∀ arg, v.arg? i = some arg →
    ∀ t ∈ v.gs.tuplesOf arg, t ∈ gs.tuplesOf (.param fn i)

/-- The last call of `fn` whose argument has both entries passes all these
tuples: the set it passes has them, in a state that may depend on the call. -/
def LastCovers (log : List Visit) (state : Visit → GlobalState) (fn : String) (i : Nat) : Prop :=
  ∀ v ∈ log, v.f.name = fn → ∀ arg, v.arg? i = some arg → ∀ t ∈ v.gs.tuplesOf arg,
    ∃ w arg' r, lastBinding fn i log = some w ∧ w.arg? i = some arg' ∧
      (w.before i).pts? arg' = some r ∧ t ∈ (state w).tupleSet r

theorem initializeGS_frame (m : Module) : Frame .empty (initializeGS .empty m) := by
  apply List.foldlRecOn (motive := fun gs => Frame .empty gs)
  · exact .refl _
  · intro gs hgs g _
    have hoff : Off [.global g.1] gs ((gs.newObject (.global g.1) g.2).newTaint (.global g.1) []) :=
      (Off.newObject _ g.2).trans (.newTaint _ _)
    exact hgs.trans (.of_off hoff (by simp [Value.isParam]))

theorem traversal_main (m : Module) {main : Function} (hmain : m.function? "main" = some main) :
    ∃ gs, traversal m (m.insts.length + 1) (initializeGS .empty m) main = some gs := by
  have hci : (initializeGS .empty m).ci.isParam = false := (initializeGS_frame m).ci ▸ rfl
  apply traversal_total m _ _ _ hci (List.mem_of_find?_eq_some hmain)
  exact Nat.lt_succ_of_le (List.length_filter_le _ _)

/-- The entry of a parameter is what the last call that assigns it passed. -/
theorem pts?_param {m : Module} {fuel : Nat} {main : Function} {gs : GlobalState}
    (h : traversal m fuel (initializeGS .empty m) main = some gs) (fn : String) (i : Nat)
    (r : TupleSetRef) :
    gs.pts? (.param fn i) = some r ↔
      ∃ w arg, lastBinding fn i (visits m fuel (initializeGS .empty m) main) = some w ∧
        w.arg? i = some arg ∧ (w.before i).pts? arg = some r := by
  have hinit := initializeGS_frame m
  have hparams := (traversal_kept m _ _ _ _ (hinit.ci ▸ rfl) h).params fn i
  unfold GlobalState.pts?
  rw [hparams, bound]
  cases hw : lastBinding fn i (visits m fuel (initializeGS .empty m) main) with
  | none =>
      have hnone : (initializeGS .empty m).pMap.lookup (.param fn i) = none :=
        (hinit.params _ rfl).trans (AList.lookup_empty _)
      simp [hnone]
  | some w =>
      have hwmem := List.mem_filter.mp (List.mem_of_getLast? hw)
      obtain ⟨rfl, hbinds⟩ := of_decide_eq_true hwmem.2
      obtain ⟨arg, harg, hentered⟩ := Visit.entered_of_binds hbinds
      simp [hentered, harg]

/-- What the set had at that call it still has. -/
theorem before_grown {m : Module} {fuel : Nat} {main : Function} {gs : GlobalState}
    (h : traversal m fuel (initializeGS .empty m) main = some gs) {fn : String} {i : Nat}
    {w : Visit} (hw : lastBinding fn i (visits m fuel (initializeGS .empty m) main) = some w) :
    Grown (w.before i) gs := by
  intro r t ht
  have hsince := (traversal_kept m _ _ _ _ ((initializeGS_frame m).ci ▸ rfl) h).since fn i
  rw [bound, hw] at hsince
  apply hsince r t
  show t ∈ w.entered.tupleSet r
  rw [w.entered_tupleSet]
  rwa [GlobalState.tupleSet, Visit.before, (assign_rest _ _).1] at ht

/-- `Traversal(main)` ends. A parameter then has the tuples that the
argument of each call followed had at the call, if and only if the last
call that assigns the parameter passes a set with all of them. It is
enough that the set has them at that call. -/
theorem param_flow_iff (m : Module) (main : Function) (hmain : m.function? "main" = some main) :
    ∃ gs, traversal m (m.insts.length + 1) (initializeGS .empty m) main = some gs ∧
      ∀ fn i,
        (ParamCovers (visits m (m.insts.length + 1) (initializeGS .empty m) main) gs fn i ↔
          LastCovers (visits m (m.insts.length + 1) (initializeGS .empty m) main)
            (fun _ => gs) fn i) ∧
        (LastCovers (visits m (m.insts.length + 1) (initializeGS .empty m) main)
            (fun w => w.before i) fn i →
          ParamCovers (visits m (m.insts.length + 1) (initializeGS .empty m) main) gs fn i) := by
  obtain ⟨gs, hgs⟩ := traversal_main m hmain
  refine ⟨gs, hgs, fun fn i => ?_⟩
  have hiff : ParamCovers (visits m (m.insts.length + 1) (initializeGS .empty m) main) gs fn i ↔
      LastCovers (visits m (m.insts.length + 1) (initializeGS .empty m) main)
        (fun _ => gs) fn i := by
    constructor
    · intro h v hv hfn arg harg t ht
      obtain ⟨r, hr, hmem⟩ := mem_tuplesOf.mp (h v hv hfn arg harg t ht)
      obtain ⟨w, arg', hw, harg', hpts⟩ := (pts?_param hgs fn i r).mp hr
      exact ⟨w, arg', r, hw, harg', hpts, hmem⟩
    · intro h v hv hfn arg harg t ht
      obtain ⟨w, arg', r, hw, harg', hpts, hmem⟩ := h v hv hfn arg harg t ht
      exact mem_tuplesOf.mpr ⟨r, (pts?_param hgs fn i r).mpr ⟨w, arg', hw, harg', hpts⟩, hmem⟩
  refine ⟨hiff, fun h => hiff.mpr fun v hv hfn arg harg t ht => ?_⟩
  obtain ⟨w, arg', r, hw, harg', hpts, hmem⟩ := h v hv hfn arg harg t ht
  exact ⟨w, arg', r, hw, harg', hpts, before_grown hgs hw r t hmem⟩

/-- `f(x); f(y);` with globals. -/
def twoCalls (x y : String) : Module where
  globals := [("a", .int 32), ("b", .int 32)]
  functions :=
    [⟨"f", 1, [[⟨"f", 0, .ret .null⟩]], [[0]]⟩,
     ⟨"main", 0,
      [[⟨"main", 0, .call (some "f") [.global x]⟩, ⟨"main", 1, .call (some "f") [.global y]⟩,
        ⟨"main", 2, .ret (.constant 0)⟩]], [[0]]⟩]
  annotations := []

def twoCallsMain (x y : String) : Function :=
  ⟨"main", 0,
    [[⟨"main", 0, .call (some "f") [.global x]⟩, ⟨"main", 1, .call (some "f") [.global y]⟩,
      ⟨"main", 2, .ret (.constant 0)⟩]], [[0]]⟩

theorem param_flow_same : ∃ gs, traversal (twoCalls "a" "a") 5
    (initializeGS .empty (twoCalls "a" "a")) (twoCallsMain "a" "a") = some gs ∧
    ParamCovers (visits (twoCalls "a" "a") 5 (initializeGS .empty (twoCalls "a" "a"))
      (twoCallsMain "a" "a")) gs "f" 0 := by
  obtain ⟨gs, hgs, h⟩ := param_flow_iff (twoCalls "a" "a") (twoCallsMain "a" "a") rfl
  refine ⟨gs, hgs, (h "f" 0).2 ?_⟩
  have hall : ∀ v ∈ visits (twoCalls "a" "a") 5 (initializeGS .empty (twoCalls "a" "a"))
      (twoCallsMain "a" "a"), v.arg? 0 = some (.global "a") ∧
        v.gs.tuplesOf (.global "a") = [⟨0, 1⟩] := by decide
  intro v hv _ arg harg t ht
  obtain ⟨hv, hts⟩ := hall v hv
  obtain rfl : arg = .global "a" := Option.some.inj (harg.symm.trans hv)
  rw [hts] at ht
  obtain rfl := List.mem_singleton.mp ht
  exact ⟨_, .global "a", 0, rfl, rfl, rfl, by decide⟩

/-- The second call replaces what the first has passed. -/
theorem first_argument_lost :
    ¬ ∀ (m : Module) (main : Function), m.function? "main" = some main →
      ∃ gs, traversal m (m.insts.length + 1) (initializeGS .empty m) main = some gs ∧
        ∀ fn i, ParamCovers (visits m (m.insts.length + 1) (initializeGS .empty m) main)
          gs fn i := by
  intro h
  obtain ⟨gs, hgs, hcovers⟩ := h (twoCalls "a" "b") (twoCallsMain "a" "b") rfl
  have hmem := hcovers "f" 0 _ (List.mem_of_mem_head? rfl) rfl (.global "a") rfl ⟨0, 1⟩
    (by decide)
  obtain rfl := Option.some.inj ((Eq.refl (traversal _ _ _ _)).trans hgs)
  revert hmem
  decide

end Nova

end Oat
