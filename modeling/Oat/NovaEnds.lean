import Oat.NovaCalls
import Oat.NovaTypes

/-!
# When the traversal ends

Traversal on a program whose types are those of a table. An instruction
that is not a call is dispatched, which may fail to end: an alloca builds
an alias object for its type. Each call is entered at most once, so that
calls by themselves never keep the traversal from ending; it ends exactly
when the dispatch of each instruction does in each function that can be
entered (`traversal_ends_iff`).
-/

namespace Oat

namespace Nova

open Relation

/-! ## Traversal with a dispatch that may not end -/

def visitInstWith (m : Module) (dispatch : GlobalState → Inst → Option GlobalState)
    (traverse : GlobalState → Function → Option GlobalState) (gs : GlobalState) (i : Inst) :
    Option GlobalState :=
  match i.kind with
  | .call callee args => handleCall m traverse gs i.self callee args
  | _ => dispatch gs i

def traversalWith (m : Module) (dispatch : GlobalState → Inst → Option GlobalState) :
    Nat → GlobalState → Function → Option GlobalState
  | 0, _, _ => none
  | fuel + 1, gs, f =>
      (schedule f).foldlM (visitInstWith m dispatch (traversalWith m dispatch fuel)) gs

/-- The calls whose callee's body is entered, in order. -/
def enteredIn (m : Module) (dispatch : GlobalState → Inst → Option GlobalState)
    (traverse : GlobalState → Function → Option GlobalState) (inner : Visit → List Value) :
    GlobalState → List Inst → List Value
  | _, [] => []
  | gs, i :: is =>
      ((followed m gs i).map fun v => v.call :: inner v).getD [] ++
        match visitInstWith m dispatch traverse gs i with
        | some gs => enteredIn m dispatch traverse inner gs is
        | none => []

def entered (m : Module) (dispatch : GlobalState → Inst → Option GlobalState) :
    Nat → GlobalState → Function → List Value
  | 0, _, _ => []
  | fuel + 1, gs, f =>
      enteredIn m dispatch (traversalWith m dispatch fuel)
        (fun v => entered m dispatch fuel v.entered v.f) gs (schedule f)

/-- `DispatchClients` with types of a table. -/
def dispatchClientsIn (table : StructTable) (m : Module) (fuel : Nat) (gs : GlobalState)
    (i : Inst) : Option GlobalState :=
  match i.kind with
  | .alloca type => do
      let (ao, objects) ← createAliasObjectIn table i.self fuel type gs.objects
      return updateTaintAlloca ({ gs with objects := objects }.newPts i.self [⟨0, ao⟩]) i.self
  | _ => some (dispatchClients m gs i)

/-- `Traversal`. The number bounds the depth of calls and of types. -/
def traversalIn (table : StructTable) (m : Module) (fuel : Nat) :
    GlobalState → Function → Option GlobalState :=
  traversalWith m (dispatchClientsIn table m fuel) fuel

/-! ## On trees -/

theorem visitInst_eq (m : Module) (traverse : GlobalState → Function → Option GlobalState) :
    visitInst m traverse = visitInstWith m (fun gs i => some (dispatchClients m gs i)) traverse := by
  funext gs i
  unfold visitInst visitInstWith
  cases i.kind <;> rfl

theorem traversal_eq (m : Module) (fuel : Nat) :
    traversal m fuel = traversalWith m (fun gs i => some (dispatchClients m gs i)) fuel := by
  induction fuel with
  | zero => rfl
  | succ fuel ih =>
      funext gs f
      rw [traversal_succ, traversalWith, ih, visitInst_eq]

section Tree

variable {m : Module} {table : StructTable}

/-- Only the dispatch of the program's instructions counts. -/
theorem traversalWith_congr {dispatch dispatch' : GlobalState → Inst → Option GlobalState}
    (h : ∀ i ∈ m.insts, ∀ gs, dispatch gs i = dispatch' gs i) (fuel : Nat) (gs : GlobalState)
    {f : Function} (hf : f ∈ m.functions) :
    traversalWith m dispatch fuel gs f = traversalWith m dispatch' fuel gs f := by
  induction fuel generalizing gs f with
  | zero => rfl
  | succ fuel ih =>
      refine foldlM_congr (fun i hi gs => ?_) gs
      have hdispatch := h i (schedule_subset hf i hi) gs
      unfold visitInstWith
      split
      · unfold handleCall
        split
        · rfl
        · split
          · rfl
          · split
            · rename_i g hg
              split
              · rfl
              · exact ih _ (List.mem_of_find?_eq_some hg)
            · rfl
      · exact hdispatch

/-- Where the types are trees, this is the traversal of the state. -/
theorem traversalIn_inlined
    (h : ∀ i ∈ m.insts, ∀ type, i.kind = .alloca type → Inlined table type) :
    ∃ n, ∀ fuel, n ≤ fuel → ∀ gs, ∀ f ∈ m.functions,
      traversalIn table m fuel gs f = traversal m fuel gs f := by
  have hinst : ∀ i ∈ m.insts, ∃ n, ∀ fuel, n ≤ fuel → ∀ gs,
      dispatchClientsIn table m fuel gs i = some (dispatchClients m gs i) := by
    intro i hi
    unfold dispatchClientsIn dispatchClients pointsToAnalysis taintAnalysis
    cases hkind : i.kind with
    | alloca type =>
        obtain ⟨n, hn⟩ := createAliasObjectIn_inlined i.self type (h i hi type hkind)
        refine ⟨n, fun fuel hfuel gs => ?_⟩
        dsimp only
        rw [hn fuel hfuel]
        rfl
    | _ => exact ⟨0, fun _ _ _ => rfl⟩
  obtain ⟨n, hn⟩ := Descent.exists_bound_all hinst
  refine ⟨n, fun fuel hfuel gs f hf => ?_⟩
  rw [traversal_eq]
  exact traversalWith_congr (hn fuel hfuel) fuel gs hf

end Tree

/-! ## One visit -/

/-- The function whose body a call enters at its first visit. -/
def callee? (m : Module) (i : Inst) : Option Function :=
  match i.kind with
  | .call (some name) _ =>
      if name = "llvm.var.annotation" then none
      else (m.function? name).filter fun f => !f.blocks.isEmpty
  | _ => none

theorem followed_callee (m : Module) (gs : GlobalState) (i : Inst) :
    (followed m gs i).map Visit.f = if i.self ∈ gs.vMap then none else callee? m i := by
  unfold followed callee? resolveCall
  cases i.kind with
  | call callee args =>
      by_cases hmem : i.self ∈ gs.vMap
      · simp [hmem]
      · cases callee with
        | none => simp [hmem]
        | some name =>
            by_cases hname : name = "llvm.var.annotation"
            · simp [hmem, hname]
            · cases hf : m.function? name with
              | none => simp [hmem, hname, hf]
              | some f =>
                  cases hbody : f.blocks.isEmpty <;> simp [hmem, hname, hf, hbody, Option.filter]
  | _ => simp

section Visit

variable {m : Module} {dispatch : GlobalState → Inst → Option GlobalState}
  {traverse : GlobalState → Function → Option GlobalState} {gs gs' : GlobalState} {i : Inst}

theorem visitInstWith_of_followed {v : Visit} (h : followed m gs i = some v) :
    visitInstWith m dispatch traverse gs i = traverse v.entered v.f := by
  rw [← visitInst_of_followed traverse h]
  obtain ⟨-, -, -, -, callee, args, hkind⟩ := followed_spec h
  unfold visitInstWith visitInst
  rw [hkind]

/-- An instruction that enters no body: what it marks, and whether it ends. -/
theorem visitInstWith_cases (h : followed m gs i = none) :
    (i.isCall = false ∧ visitInstWith m dispatch traverse gs i = dispatch gs i) ∨
      (i.isCall = true ∧ ∃ gs', visitInstWith m dispatch traverse gs i = some gs' ∧
        ∀ c, c ∈ gs'.vMap ↔ c = i.self ∨ c ∈ gs.vMap) := by
  have hcases := visitInst_cases traverse h
  unfold visitInst Inst.isCall at hcases
  unfold visitInstWith Inst.isCall
  cases hkind : i.kind with
  | call callee args =>
      rw [hkind] at hcases
      obtain ⟨-, vMap, senVarSet, hvMap, hvisit⟩ := hcases.resolve_left (by simp)
      exact .inr ⟨rfl, _, hvisit, hvMap⟩
  | _ => exact .inl ⟨rfl, rfl⟩

end Visit

/-! ## The whole run -/

/-- Nothing is left to do in a function: its instructions are dispatched,
its calls marked. -/
def Done (ok : Inst → Prop) (vMap : List Value) (f : Function) : Prop :=
  ∀ i ∈ schedule f, (i.isCall = false → ok i) ∧ (i.isCall = true → i.self ∈ vMap)

theorem Done.mono {ok : Inst → Prop} {vMap vMap' : List Value} {f : Function}
    (h : Done ok vMap f) (hsub : vMap ⊆ vMap') : Done ok vMap' f :=
  fun i hi => ⟨(h i hi).1, fun hcall => hsub ((h i hi).2 hcall)⟩

/-- The calls marked since have their callee done. -/
structure Ran (m : Module) (ok : Inst → Prop) (gs gs' : GlobalState) : Prop where
  vMap : gs.vMap ⊆ gs'.vMap
  done : ∀ i ∈ m.insts, i.self ∈ gs'.vMap → i.self ∉ gs.vMap → ∀ f, callee? m i = some f →
    Done ok gs'.vMap f

section Run

variable {m : Module} {ok : Inst → Prop} {dispatch : GlobalState → Inst → Option GlobalState}

theorem Ran.trans {a b c : GlobalState} (h₁ : Ran m ok a b) (h₂ : Ran m ok b c) : Ran m ok a c := by
  refine ⟨List.Subset.trans h₁.vMap h₂.vMap, fun i hi hc ha f hf => ?_⟩
  by_cases hb : i.self ∈ b.vMap
  · exact (h₁.done i hi hb ha f hf).mono h₂.vMap
  · exact h₂.done i hi hc hb f hf

/-- What the dispatch has to be: it marks no calls and ends only on
instructions that are `ok`. -/
structure Dispatches (ok : Inst → Prop) (dispatch : GlobalState → Inst → Option GlobalState) :
    Prop where
  vMap : ∀ gs i gs', dispatch gs i = some gs' → gs'.vMap = gs.vMap
  ok : ∀ gs i gs', dispatch gs i = some gs' → ok i

/-- What a traversal of a callee has to do. -/
def Runs (m : Module) (ok : Inst → Prop)
    (traverse : GlobalState → Function → Option GlobalState) : Prop :=
  ∀ gs gs' f, f ∈ m.functions → traverse gs f = some gs' → Ran m ok gs gs' ∧ Done ok gs'.vMap f

variable {traverse : GlobalState → Function → Option GlobalState}

/-- The step lemma. -/
theorem ran_step (hids : (m.insts.map Inst.self).Nodup) (hdispatch : Dispatches ok dispatch)
    (htraverse : Runs m ok traverse) {gs gs' : GlobalState} {i : Inst} (hi : i ∈ m.insts)
    (h : visitInstWith m dispatch traverse gs i = some gs') :
    Ran m ok gs gs' ∧ (i.isCall = false → ok i) ∧ (i.isCall = true → i.self ∈ gs'.vMap) := by
  cases hf : followed m gs i with
  | none =>
      rcases visitInstWith_cases hf with ⟨hcall, hvisit⟩ | ⟨hcall, gs₁, hvisit, hvMap⟩
      · rw [hvisit] at h
        have hsame := hdispatch.vMap _ _ _ h
        refine ⟨⟨hsame ▸ List.Subset.refl _, fun j _ hnew hold => ?_⟩,
          fun _ => hdispatch.ok _ _ _ h, fun hyes => Bool.noConfusion (hcall.symm.trans hyes)⟩
        exact absurd (hsame ▸ hnew) hold
      · obtain rfl := Option.some.inj (hvisit.symm.trans h)
        refine ⟨⟨fun c hc => (hvMap c).mpr (.inr hc), fun j hj hnew hold f hjf => ?_⟩,
          fun hno => Bool.noConfusion (hno.symm.trans hcall), fun _ => (hvMap _).mpr (.inl rfl)⟩
        -- the one call marked here enters nothing
        have hself := ((hvMap _).mp hnew).resolve_right hold
        obtain rfl := List.inj_on_of_nodup_map hids hj hi hself
        have hcallee := followed_callee m gs j
        rw [hf, if_neg hold, hjf] at hcallee
        cases hcallee
  | some v =>
      rw [visitInstWith_of_followed hf] at h
      obtain ⟨hgs, -, -, hvf, callee, args, hkind⟩ := followed_spec hf
      obtain ⟨hran, hdone⟩ := htraverse _ gs' v.f hvf h
      have hcall : i.isCall = true := by rw [Inst.isCall, hkind]
      have hentered : v.entered.vMap = i.self :: gs.vMap := by rw [v.entered_vMap, hgs]
      have hsub : gs.vMap ⊆ v.entered.vMap := hentered ▸ List.subset_cons_self _ _
      refine ⟨⟨List.Subset.trans hsub hran.vMap, fun j hj hnew hold f hjf => ?_⟩,
        fun hno => Bool.noConfusion (hno.symm.trans hcall),
        fun _ => hran.vMap (hentered ▸ List.mem_cons_self ..)⟩
      by_cases hin : j.self ∈ v.entered.vMap
      · rw [hentered] at hin
        have hself := (List.mem_cons.mp hin).resolve_right hold
        obtain rfl := List.inj_on_of_nodup_map hids hj hi hself
        have hcallee := followed_callee m gs j
        rw [hf, if_neg hold, hjf] at hcallee
        obtain rfl := Option.some.inj hcallee
        exact hdone
      · exact hran.done j hj hnew hin f hjf

theorem ran_insts (hids : (m.insts.map Inst.self).Nodup) (hdispatch : Dispatches ok dispatch)
    (htraverse : Runs m ok traverse) {is : List Inst} {gs gs' : GlobalState}
    (hsub : ∀ i ∈ is, i ∈ m.insts)
    (h : is.foldlM (visitInstWith m dispatch traverse) gs = some gs') :
    Ran m ok gs gs' ∧
      ∀ i ∈ is, (i.isCall = false → ok i) ∧ (i.isCall = true → i.self ∈ gs'.vMap) := by
  induction is generalizing gs with
  | nil =>
      cases h
      exact ⟨⟨List.Subset.refl _, fun _ _ hnew hold => absurd hnew hold⟩, fun i hi => nomatch hi⟩
  | cons i is ih =>
      rw [List.foldlM_cons] at h
      obtain ⟨gs₁, hgs₁, hrest⟩ := Option.bind_eq_some_iff.mp h
      obtain ⟨hstep, hok, hmark⟩ :=
        ran_step hids hdispatch htraverse (hsub i (List.mem_cons_self ..)) hgs₁
      obtain ⟨hran, hall⟩ := ih (fun j hj => hsub j (List.mem_cons_of_mem _ hj)) hrest
      refine ⟨hstep.trans hran, fun j hj => ?_⟩
      rcases List.mem_cons.mp hj with rfl | hj
      · exact ⟨hok, fun hcall => hran.vMap (hmark hcall)⟩
      · exact hall j hj

/-- The run lemma: a traversal that ends leaves nothing to do. -/
theorem traversalWith_ran (hids : (m.insts.map Inst.self).Nodup)
    (hdispatch : Dispatches ok dispatch) (fuel : Nat) :
    Runs m ok (traversalWith m dispatch fuel) := by
  induction fuel with
  | zero => exact fun _ _ _ _ h => nomatch h
  | succ fuel ih => exact fun gs gs' f hf h => ran_insts hids hdispatch ih (schedule_subset hf) h

theorem callee_of_followed {gs : GlobalState} {i : Inst} {v : Visit}
    (h : followed m gs i = some v) : callee? m i = some v.f := by
  have hcallee := followed_callee m gs i
  rw [h, if_neg (followed_spec h).2.2.1] at hcallee
  exact hcallee.symm

/-- A body is entered with fewer calls left unmarked. -/
theorem total_step {gs : GlobalState} {i : Inst} (hi : i ∈ m.insts)
    (hends : i.isCall = false → ∀ gs, (dispatch gs i).isSome = true)
    (htraverse : ∀ v : Visit, followed m gs i = some v → unvisited m v.entered < unvisited m gs →
      ∃ gs', traverse v.entered v.f = some gs') :
    ∃ gs', visitInstWith m dispatch traverse gs i = some gs' := by
  cases hv : followed m gs i with
  | none =>
      rcases visitInstWith_cases hv with ⟨hcall, hvisit⟩ | ⟨-, gs', hvisit, -⟩
      · obtain ⟨gs', hgs'⟩ := Option.isSome_iff_exists.mp (hends hcall gs)
        exact ⟨gs', hvisit.trans hgs'⟩
      · exact ⟨gs', hvisit⟩
  | some v =>
      obtain ⟨hgs, -, hnew, -⟩ := followed_spec hv
      have hentered : v.entered.vMap = i.self :: gs.vMap := by rw [v.entered_vMap, hgs]
      have hlt : unvisited m v.entered < unvisited m gs := unvisited_lt hi
        (hentered ▸ List.subset_cons_self _ _) hnew (hentered ▸ List.mem_cons_self ..)
      rw [visitInstWith_of_followed hv]
      exact htraverse v hv hlt

/-- Where the dispatch ends on all that can be entered, the number of
calls not yet marked bounds the depth. -/
theorem traversalWith_total (hids : (m.insts.map Inst.self).Nodup)
    (hdispatch : Dispatches ok dispatch) {P : Function → Prop}
    (hP : ∀ f, P f → ∀ i ∈ schedule f, ∀ g, callee? m i = some g → P g)
    (hends : ∀ f, P f → ∀ i ∈ schedule f, i.isCall = false → ∀ gs, (dispatch gs i).isSome = true)
    (fuel : Nat) (gs : GlobalState) (f : Function) (hf : f ∈ m.functions) (hPf : P f)
    (hfuel : unvisited m gs < fuel) : ∃ gs', traversalWith m dispatch fuel gs f = some gs' := by
  induction fuel generalizing gs f with
  | zero => exact absurd hfuel (Nat.not_lt_zero _)
  | succ fuel ih =>
      have hrun : ∃ gs', traversalWith m dispatch (fuel + 1) gs f = some gs' ∧
          unvisited m gs' ≤ fuel := by
        refine foldlM_total (fun i hi gs hle => ?_) (Nat.lt_succ_iff.mp hfuel)
        have hin := schedule_subset hf i hi
        obtain ⟨gs₁, hgs₁⟩ := total_step hin (hends f hPf i hi) fun v hv hlt =>
          ih v.entered v.f (followed_spec hv).2.2.2.1 (hP f hPf i hi v.f (callee_of_followed hv))
            (Nat.lt_of_lt_of_le hlt hle)
        have hran := (ran_step hids hdispatch (traversalWith_ran hids hdispatch fuel) hin hgs₁).1
        exact ⟨gs₁, hgs₁, Nat.le_trans (unvisited_mono hran.vMap) hle⟩
      obtain ⟨gs', hgs', -⟩ := hrun
      exact ⟨gs', hgs'⟩

/-- The calls entered on the way are new ones, each of them once. -/
structure Once (log : List Value) (gs : GlobalState) (result : Option GlobalState) : Prop where
  nodup : log.Nodup
  fresh : ∀ c ∈ log, c ∉ gs.vMap
  marked : ∀ gs', result = some gs' → ∀ c ∈ log, c ∈ gs'.vMap

theorem Once.nil (gs : GlobalState) (result : Option GlobalState) : Once [] gs result :=
  ⟨List.nodup_nil, fun _ hc => (nomatch hc), fun _ _ _ hc => (nomatch hc)⟩

theorem once_step {inner : Visit → List Value} {gs : GlobalState} {i : Inst}
    (htraverse : Runs m ok traverse)
    (hinner : ∀ v : Visit, v.f ∈ m.functions → Once (inner v) v.entered (traverse v.entered v.f)) :
    Once (((followed m gs i).map fun v => v.call :: inner v).getD []) gs
      (visitInstWith m dispatch traverse gs i) := by
  cases hv : followed m gs i with
  | none => exact .nil _ _
  | some v =>
      obtain ⟨hgs, hcall, hnew, hvf, -⟩ := followed_spec hv
      have hentered : v.entered.vMap = v.call :: gs.vMap := by rw [v.entered_vMap, hgs, hcall]
      have hin := hinner v hvf
      have hmark : v.call ∈ v.entered.vMap := hentered ▸ List.mem_cons_self ..
      refine ⟨List.nodup_cons.mpr ⟨fun hmem => hin.fresh _ hmem hmark, hin.nodup⟩, fun c hc => ?_, ?_⟩
      · rcases List.mem_cons.mp hc with rfl | hc
        · exact hcall ▸ hnew
        · exact fun hmem => hin.fresh c hc (hentered ▸ List.mem_cons_of_mem _ hmem)
      · rw [visitInstWith_of_followed hv]
        intro gs₁ hgs₁ c hc
        rcases List.mem_cons.mp hc with rfl | hc
        · exact (htraverse _ gs₁ v.f hvf hgs₁).1.vMap hmark
        · exact hin.marked gs₁ hgs₁ c hc

theorem once_insts (hids : (m.insts.map Inst.self).Nodup) (hdispatch : Dispatches ok dispatch)
    {inner : Visit → List Value} (htraverse : Runs m ok traverse)
    (hinner : ∀ v : Visit, v.f ∈ m.functions → Once (inner v) v.entered (traverse v.entered v.f))
    (is : List Inst) (gs : GlobalState) (hsub : ∀ i ∈ is, i ∈ m.insts) :
    Once (enteredIn m dispatch traverse inner gs is) gs
      (is.foldlM (visitInstWith m dispatch traverse) gs) := by
  induction is generalizing gs with
  | nil => exact .nil _ _
  | cons i is ih =>
      have hone : Once _ gs (visitInstWith m dispatch traverse gs i) :=
        once_step (i := i) htraverse hinner
      have hsub' : ∀ j ∈ is, j ∈ m.insts := fun j hj => hsub j (List.mem_cons_of_mem _ hj)
      rw [enteredIn, List.foldlM_cons]
      cases hvisit : visitInstWith m dispatch traverse gs i with
      | none =>
          dsimp only
          rw [List.append_nil]
          exact ⟨hone.nodup, hone.fresh, fun _ h => nomatch h⟩
      | some gs₁ =>
          rw [hvisit] at hone
          have hran := (ran_step hids hdispatch htraverse (hsub i (List.mem_cons_self ..)) hvisit).1
          have hrest := ih gs₁ hsub'
          refine ⟨List.nodup_append.mpr ⟨hone.nodup, hrest.nodup, fun c hc d hd => ?_⟩,
            fun c hc => ?_, fun gs' hgs' c hc => ?_⟩
          · rintro rfl
            exact hrest.fresh c hd (hone.marked gs₁ rfl c hc)
          · rcases List.mem_append.mp hc with hc | hc
            · exact hone.fresh c hc
            · exact fun hmem => hrest.fresh c hc (hran.vMap hmem)
          · rcases List.mem_append.mp hc with hc | hc
            · exact (ran_insts hids hdispatch htraverse hsub' hgs').1.vMap
                (hone.marked gs₁ rfl c hc)
            · exact hrest.marked gs' hgs' c hc

theorem entered_once (hids : (m.insts.map Inst.self).Nodup) (hdispatch : Dispatches ok dispatch)
    (fuel : Nat) (gs : GlobalState) (f : Function) (hf : f ∈ m.functions) :
    Once (entered m dispatch fuel gs f) gs (traversalWith m dispatch fuel gs f) := by
  induction fuel generalizing gs f with
  | zero => exact .nil _ _
  | succ fuel ih =>
      exact once_insts hids hdispatch (traversalWith_ran hids hdispatch fuel)
        (fun v hv => ih v.entered v.f hv) (schedule f) gs (schedule_subset hf)

end Run

/-! ## The program's types -/

/-- The alias object of an alloca is built in the end. -/
def Ends (table : StructTable) (i : Inst) : Prop :=
  ∀ type, i.kind = .alloca type →
    ∃ n, Descent.ends (parts table skipStructType) n type = true

/-- `g` is entered by a call in `f`. -/
def Enters (m : Module) (f g : Function) : Prop := ∃ i ∈ schedule f, callee? m i = some g

section Types

variable {table : StructTable} {m : Module}

theorem dispatches_in (table : StructTable) (m : Module) (fuel : Nat) :
    Dispatches (Ends table) (dispatchClientsIn table m fuel) := by
  refine ⟨fun gs i gs' h => ?_, fun gs i gs' h type hkind => ?_⟩
  · unfold dispatchClientsIn at h
    split at h
    · obtain ⟨r, -, h⟩ := Option.bind_eq_some_iff.mp h
      cases h
      rfl
    · cases h
      exact (dispatchClients_off m gs i).vMap
  · refine ⟨fuel, ?_⟩
    rw [dispatchClientsIn, hkind] at h
    obtain ⟨r, hr, -⟩ := Option.bind_eq_some_iff.mp h
    rw [← createAliasObjectIn_isSome (v := i.self) fuel type gs.objects, hr]
    rfl

/-- With enough depth the dispatch ends. -/
theorem dispatchClientsIn_isSome {i : Inst} (h : Ends table i) :
    ∃ n, ∀ fuel, n ≤ fuel → ∀ gs, (dispatchClientsIn table m fuel gs i).isSome = true := by
  unfold dispatchClientsIn
  cases hkind : i.kind with
  | alloca type =>
      obtain ⟨n, hn⟩ := h type hkind
      refine ⟨n, fun fuel hfuel gs => ?_⟩
      have hends := Descent.ends_mono hfuel hn
      rw [← createAliasObjectIn_isSome (v := i.self) fuel type gs.objects] at hends
      obtain ⟨r, hr⟩ := Option.isSome_iff_exists.mp hends
      dsimp only
      rw [hr]
      rfl
  | _ => exact ⟨0, fun _ _ _ => rfl⟩

theorem callee_spec {i : Inst} {f : Function} (h : callee? m i = some f) :
    f ∈ m.functions ∧ i.isCall = true := by
  unfold callee? at h
  split at h
  · rename_i hkind
    split at h
    · cases h
    · exact ⟨List.mem_of_find?_eq_some (Option.filter_eq_some_iff.mp h).1,
        by rw [Inst.isCall, hkind]⟩
  · cases h

theorem mem_functions_of_enters {main f : Function} (hmain : main ∈ m.functions)
    (h : ReflTransGen (Enters m) main f) : f ∈ m.functions := by
  cases h with
  | refl => exact hmain
  | tail _ hstep =>
      obtain ⟨i, -, hcallee⟩ := hstep
      exact (callee_spec hcallee).1

end Types

/-- `Traversal(main)`, in a state with no call visited, ends exactly when
no alloca in a function that `main` enters, directly or not, has a type
that leads back to itself as `CreateAliasObject` goes into it. The body
of each call's callee is entered once at most, whether it ends or not. -/
theorem traversal_ends_iff (table : StructTable) (m : Module)
    (hids : (m.insts.map Inst.self).Nodup) (main : Function)
    (hmain : m.function? "main" = some main) (gs : GlobalState) (hgs : gs.vMap = []) :
    ((∃ fuel gs', traversalIn table m fuel gs main = some gs') ↔
      ∀ f, ReflTransGen (Enters m) main f → ∀ i ∈ schedule f, ∀ type, i.kind = .alloca type →
        ∀ u, ReflTransGen (Descent.Leads (parts table skipStructType)) type u →
          ¬ Recursive table skipStructType u) ∧
      ∀ fuel, (entered m (dispatchClientsIn table m fuel) fuel gs main).Nodup := by
  have hin : main ∈ m.functions := List.mem_of_find?_eq_some hmain
  refine ⟨?_, fun fuel => (entered_once hids (dispatches_in table m fuel) fuel gs main hin).nodup⟩
  simp only [← ends_iff_not_recursive]
  constructor
  · rintro ⟨fuel, gs', h⟩ f hf
    obtain ⟨hran, hdone⟩ := traversalWith_ran hids (dispatches_in table m fuel) fuel gs gs' main hin h
    have hall : Done (Ends table) gs'.vMap f := by
      induction hf with
      | refl => exact hdone
      | tail hreach hstep ih =>
          obtain ⟨i, hi, hcallee⟩ := hstep
          have hfun := mem_functions_of_enters hin hreach
          exact hran.done i (schedule_subset hfun i hi) ((ih i hi).2 (callee_spec hcallee).2)
            (by rw [hgs]; exact fun hmem => nomatch hmem) _ hcallee
    intro i hi type hkind
    exact (hall i hi).1 (by rw [Inst.isCall, hkind]) type hkind
  · intro h
    have hends : ∀ i ∈ m.insts, ∃ n, ∀ fuel, n ≤ fuel →
        (∃ f, ReflTransGen (Enters m) main f ∧ i ∈ schedule f) →
        ∀ gs, (dispatchClientsIn table m fuel gs i).isSome = true := by
      intro i _
      by_cases hreach : ∃ f, ReflTransGen (Enters m) main f ∧ i ∈ schedule f
      · obtain ⟨f, hf, hi⟩ := hreach
        obtain ⟨n, hn⟩ := dispatchClientsIn_isSome (m := m) (h f hf i hi)
        exact ⟨n, fun fuel hfuel _ => hn fuel hfuel⟩
      · exact ⟨0, fun _ _ hyes => absurd hyes hreach⟩
    obtain ⟨n, hn⟩ := Descent.exists_bound_all hends
    let fuel := max n (unvisited m gs + 1)
    refine ⟨fuel, traversalWith_total hids (dispatches_in table m fuel)
      (P := ReflTransGen (Enters m) main) ?_ ?_ fuel gs main hin .refl
      (Nat.lt_of_succ_le (Nat.le_max_right ..))⟩
    · exact fun f hf i hi g hg => hf.tail ⟨i, hi, hg⟩
    · intro f hf i hi _ gs
      exact hn fuel (Nat.le_max_left ..) i (schedule_subset (mem_functions_of_enters hin hf) i hi)
        ⟨f, hf, hi⟩ gs

/-- `main` has a variable and calls itself. -/
def selfCall (type : Ty) : Function :=
  ⟨"main", 0, [[⟨"main", 0, .alloca type⟩, ⟨"main", 1, .call (some "main") []⟩]], [[0]]⟩

def selfModule (type : Ty) : Module := ⟨[], [selfCall type], []⟩

theorem traversal_ends_recursion : ∃ fuel gs', traversalIn [] (selfModule (.int 32)) fuel
    (initializeGS .empty (selfModule (.int 32))) (selfCall (.int 32)) = some gs' := by
  refine (traversal_ends_iff [] (selfModule (.int 32)) (by decide) (selfCall (.int 32)) rfl
    (initializeGS .empty (selfModule (.int 32))) rfl).1.mpr ?_
  intro f hf i hi type hkind u hu
  obtain rfl := List.mem_singleton.mp (mem_functions_of_enters (List.mem_singleton_self _) hf)
  have htype : type = .int 32 := by
    have hi : i = ⟨"main", 0, .alloca (.int 32)⟩ ∨ i = ⟨"main", 1, .call (some "main") []⟩ := by
      simpa [selfCall, schedule, reverseSCC] using hi
    rcases hi with rfl | rfl
    · exact (InstKind.alloca.inj hkind).symm
    · cases hkind
  subst htype
  rintro ⟨⟨name, fields, rfl⟩, -⟩
  rcases ReflTransGen.cases_head hu with heq | ⟨w, hw, -⟩
  · cases heq
  · exact absurd hw List.not_mem_nil

/-- The variable is a `struct.IO_node`. -/
theorem traversal_stuck : ¬ ∀ (table : StructTable) (m : Module), Sized table →
    (m.insts.map Inst.self).Nodup → ∀ main, m.function? "main" = some main →
      ∀ gs : GlobalState, gs.vMap = [] →
        ∃ fuel gs', traversalIn table m fuel gs main = some gs' := by
  intro h
  obtain ⟨fuel, gs', hrun⟩ := h nodeTable (selfModule node) nodeTable_sized (by decide)
    (selfCall node) rfl (initializeGS .empty (selfModule node)) rfl
  have hdone := (traversalWith_ran (by decide) (dispatches_in nodeTable (selfModule node) fuel) fuel
    _ gs' (selfCall node) (List.mem_singleton_self _) hrun).2
  obtain ⟨n, hn⟩ := (hdone ⟨"main", 0, .alloca node⟩ (List.mem_cons_self ..)).1 rfl node rfl
  exact node_not_ends n hn

end Nova

end Oat
