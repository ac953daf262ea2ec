import Oat.Discovery
import Oat.NovaCalls
import Oat.NovaCells

/-!
# Soundness of the points-to map within a function

A run follows the edges of a function, with the pointers into allocas
and globals as values and with the bytes of these in memory. `Flow` is
what the traversal can follow of it: it visits each instruction once, so
that a load sees the stores visited before it, and it looks a store up
under the struct index its address was made with.

`points_to_sound` has two halves: a run whose steps meet `StepOk` makes
no pointers but those of `Flow` (`run_flow`), and what flows is in the
map from the visit on (`flow_covered`).
-/

namespace Oat

namespace Nova

/-! ## Functions -/

def Inst.operands (i : Inst) : List Value :=
  match i.kind with
  | .alloca _ => []
  | .binOp op1 op2 => [op1, op2]
  | .load op => [op]
  | .store v op => [v, op]
  | .gep op _ _ => [op]
  | .ret v => [v]
  | .bitCast op => [op]
  | .call _ args => args
  | .other => []

def Value.isInst : Value → Bool
  | .inst _ _ => true
  | _ => false

def Function.block (f : Function) (b : Nat) : List Inst := f.blocks[b]?.getD []

/-- The blocks as the traversal comes to them. -/
def Function.order (f : Function) : List Nat := (f.sccs.map List.reverse).reverse.flatten

/-- A function without calls, with its edges. The components are in the
order of a depth-first search, and the function is in SSA form: on each
walk a value is there before its uses. -/
structure Body (m : Module) where
  fn : Function
  succ : Nat → List Nat
  mem : fn ∈ m.functions
  ids : (m.insts.map Inst.self).Nodup
  order : Discovery succ 0 fn.order
  noCall : ∀ b ∈ fn.blocks, ∀ i ∈ b, ∀ callee args, i.kind ≠ .call callee args
  ssa : ∀ w, Walk succ 0 w → ∀ pre i post, w.flatMap fn.block = pre ++ i :: post →
    ∀ v ∈ i.operands, v.isInst = true → v ∈ pre.map Inst.self

theorem schedule_eq (f : Function) : schedule f = f.order.flatMap f.block := by
  have hscc : ∀ scc : List (List Inst),
      (if 1 < scc.length then (List.range maxRuns).flatMap fun _ => scc.flatten else scc.flatten) =
        scc.flatten := by
    intro scc
    split
    · simp [maxRuns]
    · rfl
  unfold schedule reverseSCC Function.order
  simp only [hscc, ← List.map_reverse]
  induction f.sccs.reverse with
  | nil => rfl
  | cons scc sccs ih =>
      simp only [List.map_cons, List.flatMap_cons, List.flatten_cons, List.flatMap_append]
      rw [ih, ← List.flatMap_def]
      rfl

theorem mem_block {f : Function} {b : Nat} {i : Inst} (h : i ∈ f.block b) :
    ∃ block ∈ f.blocks, i ∈ block := by
  unfold Function.block at h
  cases hb : f.blocks[b]? with
  | none => simp [hb] at h
  | some block => exact ⟨block, List.mem_of_getElem? hb, by simpa [hb] using h⟩

namespace Body

variable {m : Module} (b : Body m)

theorem blocks_nodup : (b.fn.blocks.flatten.map Inst.self).Nodup := by
  refine List.Nodup.sublist (List.Sublist.map _ ?_) b.ids
  rw [Module.insts, List.flatMap_def]
  exact List.sublist_flatten_of_mem (List.mem_map.mpr ⟨b.fn, b.mem, rfl⟩)

theorem block_nodup (n : Nat) : ((b.fn.block n).map Inst.self).Nodup := by
  unfold Function.block
  cases hn : b.fn.blocks[n]? with
  | none => exact List.nodup_nil
  | some block =>
      exact List.Nodup.sublist
        (List.Sublist.map _ (List.sublist_flatten_of_mem (List.mem_of_getElem? hn))) b.blocks_nodup

theorem block_disjoint {n k : Nat} (hnk : n ≠ k) :
    List.Disjoint ((b.fn.block n).map Inst.self) ((b.fn.block k).map Inst.self) := by
  have hpair : (b.fn.blocks.map (List.map Inst.self)).Pairwise List.Disjoint := by
    refine (List.nodup_flatten.mp ?_).2
    rw [← List.map_flatten]
    exact b.blocks_nodup
  have hlt : ∀ n k, n < k →
      List.Disjoint ((b.fn.block n).map Inst.self) ((b.fn.block k).map Inst.self) := by
    intro n k hlt
    unfold Function.block
    cases hk : b.fn.blocks[k]? with
    | none => simp
    | some block =>
        obtain ⟨hklt, rfl⟩ := List.getElem?_eq_some_iff.mp hk
        rw [List.getElem?_eq_getElem (Nat.lt_trans hlt hklt)]
        have h := List.pairwise_iff_getElem.mp hpair n k (by simpa using Nat.lt_trans hlt hklt)
          (by simpa using hklt) hlt
        simpa using h
  rcases Nat.lt_or_gt_of_ne hnk with h | h
  · exact hlt n k h
  · exact fun v hn hk => hlt k n h hk hn

theorem schedule_nodup : ((schedule b.fn).map Inst.self).Nodup := by
  rw [schedule_eq, List.map_flatMap]
  exact List.nodup_flatMap.mpr ⟨fun n _ => b.block_nodup n,
    b.order.nodup.imp fun hnk => b.block_disjoint hnk⟩

/-- What is before an instruction on every walk is before it here. -/
theorem operand_before {pre post : List Inst} {i : Inst} (h : schedule b.fn = pre ++ i :: post) :
    ∀ v ∈ i.operands, v.isInst = true → v ∈ pre.map Inst.self := by
  rw [schedule_eq] at h
  obtain ⟨front, n, back, pre', post', horder, hblock, rfl⟩ := flatMap_split h
  obtain ⟨w, hw, hfront⟩ := b.order.walk horder
  intro v hv hinst
  have hsplit : (w ++ [n]).flatMap b.fn.block = (w.flatMap b.fn.block ++ pre') ++ i :: post' := by
    simp [hblock]
  have hmem := b.ssa _ hw _ i _ hsplit v hv hinst
  rw [List.map_append, List.mem_append] at hmem ⊢
  refine hmem.imp_left fun hmem => ?_
  obtain ⟨j, hj, rfl⟩ := List.mem_map.mp hmem
  obtain ⟨a, ha, hj⟩ := List.mem_flatMap.mp hj
  exact List.mem_map.mpr ⟨j, List.mem_flatMap.mpr ⟨a, hfront a ha, hj⟩, rfl⟩

theorem mem_schedule {w : List Nat} (hw : Walk b.succ 0 w) {i : Inst}
    (hi : i ∈ w.flatMap b.fn.block) : i ∈ schedule b.fn := by
  obtain ⟨n, hn, hi⟩ := List.mem_flatMap.mp hi
  rw [schedule_eq]
  exact List.mem_flatMap.mpr ⟨n, hw.mem_order b.order n hn, hi⟩

end Body

/-- The state after the visits of instructions. -/
def stateAfter (m : Module) (insts : List Inst) : GlobalState :=
  insts.foldl (dispatchClients m) (initializeGS .empty m)

/-- What the traversal visits before an instruction. -/
def earlier (f : Function) (v : Value) : List Inst := (schedule f).takeWhile fun i => i.self ≠ v

/-- The state in which the traversal comes to an instruction. -/
def visitState (m : Module) (f : Function) (v : Value) : GlobalState := stateAfter m (earlier f v)

/-- `a` is visited before `b`. -/
def Before (f : Function) (a b : Value) : Prop := a ∈ (earlier f b).map Inst.self

/-! ## Runs -/

/-- An object is what one execution of an alloca makes, or a global. -/
structure Obj where
  site : Value
  number : Nat
deriving Repr, DecidableEq

/-- A pointer to a byte of an object. The field is not there at run time:
it is the struct index of the last getelementptr into a struct since the
pointer was last loaded. -/
structure Ptr where
  obj : Obj
  pos : Int
  field : Nat
deriving Repr, DecidableEq

/-- A byte of a pointer in memory, with the store that has put it there
(`null` for an initial value) and the field of its address. -/
structure Cell where
  ptr : Ptr
  source : Value
  field : Nat
deriving Repr, DecidableEq

/-- What is no pointer into an object is `none`. -/
structure Rt where
  env : Value → Option Ptr
  mem : Obj → Int → Option Cell
  made : Nat

/-- Where a constant expression points in its object, and how many bytes
an access is wide. -/
structure Target where
  constPos : Value → Int
  width : Value → Nat

/-- What `gepOffset` makes of a pointer's field. -/
def fieldOf (pointee : Shape) (idx : List (Option Nat)) (field : Nat) : Nat :=
  match pointee with
  | .struct => gepOffset idx
  | _ => field

/-- The global that a constant points into, and the field. -/
def constPtr (m : Module) : Value → Option (Value × Nat)
  | .global name => if name ∈ m.globals.map Prod.fst then some (.global name, 0) else none
  | .gepExpr op pointee idx => (constPtr m op).map fun x => (x.1, fieldOf pointee idx x.2)
  | _ => none

namespace Rt

variable (m : Module) (target : Target) (s : Rt)

def val (v : Value) : Option Ptr :=
  match v with
  | .inst _ _ => s.env v
  | .param _ _ => s.env v
  | _ => (constPtr m v).map fun x => ⟨⟨x.1, 0⟩, target.constPos v, x.2⟩

def assign (v : Value) (r : Option Ptr) : Rt :=
  { s with env := fun w => if w = v then r else s.env w }

/-- What is outside of all objects is not part of the state. -/
def store (source : Value) (addr val : Option Ptr) (width : Nat) : Rt :=
  match addr with
  | none => s
  | some a =>
      { s with
        mem := fun o k =>
          if o = a.obj ∧ a.pos ≤ k ∧ k < a.pos + width then val.map fun p => ⟨p, source, a.field⟩
          else s.mem o k }

end Rt

/-- One instruction. A pointer that is loaded has a byte where it is
loaded from, unless this is outside of all objects. -/
inductive Exec (m : Module) (target : Target) (s : Rt) (i : Inst) : Rt → Prop where
  | alloca {type : Ty} (hkind : i.kind = .alloca type) :
      Exec m target s i
        { s.assign i.self (some ⟨⟨i.self, s.made⟩, 0, 0⟩) with made := s.made + 1 }
  | binOp {op1 op2 : Value} (hkind : i.kind = .binOp op1 op2) (r : Option Ptr)
      (hr : ∀ p, r = some p → ∃ q, (s.val m target op1 = some q ∨ s.val m target op2 = some q) ∧
        q.obj = p.obj ∧ q.field = p.field) :
      Exec m target s i (s.assign i.self r)
  | load {op : Value} (hkind : i.kind = .load op) (r : Option Ptr)
      (hr : ∀ p, r = some p → p.field = 0 ∧ ∀ a, s.val m target op = some a →
        ∃ k < target.width i.self, ∃ c, s.mem a.obj (a.pos + k) = some c ∧ c.ptr.obj = p.obj) :
      Exec m target s i (s.assign i.self r)
  | store {v op : Value} (hkind : i.kind = .store v op) :
      Exec m target s i
        (s.store i.self (s.val m target op) (s.val m target v) (target.width i.self))
  | gep {op : Value} {pointee : Shape} {idx : List (Option Nat)}
      (hkind : i.kind = .gep op pointee idx) (delta : Int) :
      Exec m target s i (s.assign i.self ((s.val m target op).map fun a =>
        ⟨a.obj, a.pos + delta, fieldOf pointee idx a.field⟩))
  | bitCast {op : Value} (hkind : i.kind = .bitCast op) :
      Exec m target s i (s.assign i.self (s.val m target op))
  | ret {v : Value} (hkind : i.kind = .ret v) : Exec m target s i s
  | other (hkind : i.kind = .other) : Exec m target s i s

/-- At the start no instruction has a value, and only globals have
contents. The parameters may be anything. -/
structure Start (s : Rt) : Prop where
  insts : ∀ v, v.isInst = true → s.env v = none
  cells : ∀ o k c, s.mem o k = some c → (∃ name, o.site = .global name) ∧ c.source = .null

structure Step where
  before : Rt
  inst : Inst
  after : Rt

inductive Run (m : Module) (target : Target) (s₀ : Rt) : List Step → Rt → Prop where
  | start : Run m target s₀ [] s₀
  | step {log : List Step} {s s' : Rt} {i : Inst} :
      Run m target s₀ log s → Exec m target s i s' → Run m target s₀ (log ++ [⟨s, i, s'⟩]) s'

/-- The run follows the edges. It may stop anywhere. -/
def Along {m : Module} (b : Body m) (log : List Step) : Prop :=
  ∃ w, Walk b.succ 0 w ∧ log.map Step.inst <+: w.flatMap b.fn.block

/-! ## What the traversal follows -/

/-- A constant that points into a global has an entry. -/
def Known (m : Module) (gs : GlobalState) (v : Value) : Prop :=
  (constPtr m v).isSome → (gs.pts? v).isSome

/-- The update does not give up on the instruction. -/
def Regular (m : Module) (gs : GlobalState) (i : Inst) : Prop :=
  match i.kind with
  | .binOp op1 op2 => Known m gs op1 ∧ Known m gs op2
  | .load op => Known m gs op ∧ NoGap gs op
  | .store v op =>
      Known m gs v ∧ Known m (handleStoreGEP m gs op) op ∧ NoGap (handleStoreGEP m gs op) op
  | .gep op _ _ => Known m gs op
  | .bitCast op => Known m gs op
  | _ => True

/-- The condition on a step that makes, or stores, a pointer into an
object: the update does not give up on the instruction, and what a load
has read was put there by a store visited before it, through an address
of the same field. -/
def StepOk (m : Module) (f : Function) (target : Target) (st : Step) : Prop :=
  match st.inst.kind with
  | .load op => ∀ p, st.after.env st.inst.self = some p →
      Regular m (visitState m f st.inst.self) st.inst ∧
        ∃ a, st.before.val m target op = some a ∧ ∃ k < target.width st.inst.self, ∃ c,
          st.before.mem a.obj (a.pos + k) = some c ∧ c.ptr.obj = p.obj ∧
            Before f c.source st.inst.self ∧ c.field = a.field
  | .store v op => ∀ p a, st.before.val m target v = some p → st.before.val m target op = some a →
      Regular m (visitState m f st.inst.self) st.inst
  | _ => ∀ p, st.after.env st.inst.self = some p →
      Regular m (visitState m f st.inst.self) st.inst

/-- The pointers that flow into a value: the alloca or global, and the
field. -/
inductive Flow (m : Module) (f : Function) : Value → Value × Nat → Prop where
  | const {v : Value} {x : Value × Nat} (h : constPtr m v = some x) : Flow m f v x
  | alloca {i : Inst} {type : Ty} (hi : i ∈ schedule f) (hkind : i.kind = .alloca type) :
      Flow m f i.self (i.self, 0)
  | binOp {i : Inst} {op1 op2 op : Value} {x : Value × Nat} (hi : i ∈ schedule f)
      (hkind : i.kind = .binOp op1 op2) (hreg : Regular m (visitState m f i.self) i)
      (hop : op = op1 ∨ op = op2) (hx : Flow m f op x) : Flow m f i.self x
  | gep {i : Inst} {op : Value} {pointee : Shape} {idx : List (Option Nat)} {x : Value × Nat}
      (hi : i ∈ schedule f) (hkind : i.kind = .gep op pointee idx)
      (hreg : Regular m (visitState m f i.self) i) (hx : Flow m f op x) :
      Flow m f i.self (x.1, fieldOf pointee idx x.2)
  | bitCast {i : Inst} {op : Value} {x : Value × Nat} (hi : i ∈ schedule f)
      (hkind : i.kind = .bitCast op) (hreg : Regular m (visitState m f i.self) i)
      (hx : Flow m f op x) : Flow m f i.self x
  | load {i j : Inst} {op v op' : Value} {x y : Value × Nat} (hi : i ∈ schedule f)
      (hkind : i.kind = .load op) (hreg : Regular m (visitState m f i.self) i) (hx : Flow m f op x)
      (hj : j ∈ schedule f) (hkind' : j.kind = .store v op')
      (hreg' : Regular m (visitState m f j.self) j) (hx' : Flow m f op' x) (hy : Flow m f v y)
      (hbefore : Before f j.self i.self) : Flow m f i.self (y.1, 0)

theorem Flow.constPtr {m : Module} {f : Function} {v : Value} {x : Value × Nat}
    (hflow : Flow m f v x) (hv : v.isInst = false) : Nova.constPtr m v = some x := by
  cases hflow with
  | const hx => exact hx
  | _ => cases hv

/-! ## A run makes what flows -/

/-- Every pointer of the state has flown there. -/
structure Flows (m : Module) (f : Function) (s : Rt) : Prop where
  env : ∀ v, v.isInst = true → ∀ p, s.env v = some p → Flow m f v (p.obj.site, p.field)
  params : ∀ fn i, s.env (.param fn i) = none
  mem : ∀ o k c, s.mem o k = some c → c.source ≠ .null →
    ∃ j v op, j ∈ schedule f ∧ j.self = c.source ∧ j.kind = .store v op ∧
      Regular m (visitState m f j.self) j ∧ Flow m f op (o.site, c.field) ∧
      Flow m f v (c.ptr.obj.site, c.ptr.field)

section Runs

variable {m : Module} {f : Function} {target : Target} {s s' : Rt}

theorem Flows.val (h : Flows m f s) {v : Value} {p : Ptr} (hv : s.val m target v = some p) :
    Flow m f v (p.obj.site, p.field) := by
  have hconst : ∀ w : Value,
      (constPtr m w).map (fun x => (⟨⟨x.1, 0⟩, target.constPos w, x.2⟩ : Ptr)) = some p →
        Flow m f w (p.obj.site, p.field) := by
    intro w hw
    obtain ⟨x, hx, rfl⟩ := Option.map_eq_some_iff.mp hw
    exact .const hx
  unfold Rt.val at hv
  split at hv
  · exact h.env _ rfl p hv
  · rw [h.params] at hv
    cases hv
  · exact hconst v hv

theorem Flows.assign (h : Flows m f s) {v : Value} (hv : v.isInst = true) {r : Option Ptr}
    (hr : ∀ p, r = some p → Flow m f v (p.obj.site, p.field)) : Flows m f (s.assign v r) := by
  refine ⟨fun w hw p hp => ?_, fun fn i => ?_, h.mem⟩
  · simp only [Rt.assign] at hp
    split at hp
    · rename_i heq
      subst heq
      exact hr p hp
    · exact h.env w hw p hp
  · have hne : Value.param fn i ≠ v := by
      rintro rfl
      cases hv
    simp only [Rt.assign, if_neg hne]
    exact h.params fn i

/-- What is stored has flown to the operands of the store. -/
theorem Flows.store (h : Flows m f s) {i : Inst} (hi : i ∈ schedule f) {v op : Value}
    (hkind : i.kind = .store v op)
    (hok : ∀ q a, s.val m target v = some q → s.val m target op = some a →
      Regular m (visitState m f i.self) i) (width : Nat) :
    Flows m f (s.store i.self (s.val m target op) (s.val m target v) width) := by
  unfold Rt.store
  split
  · exact h
  · rename_i a ha
    refine ⟨h.env, h.params, fun o k c hc hsource => ?_⟩
    dsimp only at hc
    split at hc
    · rename_i hand
      obtain ⟨q, hq, rfl⟩ := Option.map_eq_some_iff.mp hc
      refine ⟨i, v, op, hi, rfl, hkind, hok q a hq ha, ?_, h.val hq⟩
      rw [hand.1]
      exact h.val ha
    · exact h.mem o k c hc hsource

theorem Flows.step (h : Flows m f s) {i : Inst} (hi : i ∈ schedule f)
    (hexec : Exec m target s i s') (hok : StepOk m f target ⟨s, i, s'⟩) : Flows m f s' := by
  have hself : i.self.isInst = true := rfl
  have hassign : ∀ r : Option Ptr, (s.assign i.self r).env i.self = r := fun r => by
    simp [Rt.assign]
  unfold StepOk at hok
  cases hexec with
  | alloca hkind =>
      have hassigned := h.assign hself (r := some ⟨⟨i.self, s.made⟩, 0, 0⟩) fun p hp => by
        obtain rfl := Option.some.inj hp
        exact .alloca hi hkind
      exact ⟨hassigned.env, hassigned.params, hassigned.mem⟩
  | binOp hkind r hr =>
      rw [hkind] at hok
      refine h.assign hself fun p hp => ?_
      obtain ⟨q, hq, hobj, hfield⟩ := hr p hp
      rw [← hobj, ← hfield]
      have hreg := hok p ((hassign r).trans hp)
      rcases hq with hq | hq
      · exact .binOp hi hkind hreg (.inl rfl) (h.val hq)
      · exact .binOp hi hkind hreg (.inr rfl) (h.val hq)
  | load hkind r hr =>
      rw [hkind] at hok
      refine h.assign hself fun p hp => ?_
      obtain ⟨hreg, a, ha, k, -, c, hc, hobj, hbefore, hfield⟩ := hok p ((hassign r).trans hp)
      have hsource : c.source ≠ .null := by
        intro hnull
        obtain ⟨j, -, hj⟩ := List.mem_map.mp hbefore
        rw [hnull] at hj
        cases hj
      obtain ⟨j, v, op', hj, hjself, hjkind, hjreg, hx', hy⟩ := h.mem _ _ c hc hsource
      rw [← hobj, (hr p hp).1]
      rw [hfield] at hx'
      exact .load hi hkind hreg (h.val ha) hj hjkind hjreg hx' hy (hjself ▸ hbefore)
  | store hkind =>
      rw [hkind] at hok
      exact h.store hi hkind hok _
  | gep hkind delta =>
      rw [hkind] at hok
      refine h.assign hself fun p hp => ?_
      have hreg := hok p ((hassign _).trans hp)
      obtain ⟨a, ha, rfl⟩ := Option.map_eq_some_iff.mp hp
      exact .gep hi hkind hreg (h.val ha)
  | bitCast hkind =>
      rw [hkind] at hok
      refine h.assign hself fun p hp => ?_
      exact .bitCast hi hkind (hok p ((hassign _).trans hp)) (h.val hp)
  | ret _ => exact h
  | other _ => exact h

/-- The run lemma. -/
theorem run_flow {s₀ : Rt} {log : List Step} (hrun : Run m target s₀ log s) (hstart : Start s₀)
    (hparams : ∀ fn i, s₀.env (.param fn i) = none) (hin : ∀ st ∈ log, st.inst ∈ schedule f)
    (hok : ∀ st ∈ log, StepOk m f target st) : Flows m f s := by
  induction hrun with
  | start =>
      refine ⟨fun v hv p hp => ?_, hparams, fun o k c hc hsource => ?_⟩
      · rw [hstart.insts v hv] at hp
        cases hp
      · exact absurd (hstart.cells o k c hc).2 hsource
  | @step log s s' i _ hexec ih =>
      have hlog : Flows m f s := ih (fun st hst => hin st (List.mem_append_left _ hst))
        (fun st hst => hok st (List.mem_append_left _ hst))
      exact hlog.step (hin ⟨s, i, s'⟩ (by simp)) hexec (hok ⟨s, i, s'⟩ (by simp))

end Runs

/-! ## What flows is in the map -/

theorem initializeGS_induct {P : List String → GlobalState → Prop} (m : Module)
    (h0 : P [] .empty)
    (hstep : ∀ names gs name type, P names gs →
      P (names ++ [name]) ((gs.newObject (.global name) type).newTaint (.global name) [])) :
    P (m.globals.map Prod.fst) (initializeGS .empty m) := by
  unfold initializeGS
  induction m.globals using List.reverseRecOn with
  | nil => exact h0
  | append_singleton globals g ih =>
      rw [List.map_append, List.foldl_append]
      exact hstep _ _ g.1 g.2 ih

/-- A value has a tuple with the start of an object of its own. -/
def HasOwn (gs : GlobalState) (v : Value) : Prop :=
  ∃ ao, ⟨0, ao⟩ ∈ gs.tuplesOf v ∧ ∃ o, gs.objects[ao]? = some o ∧ o.val = v

theorem HasOwn.off {gs gs' : GlobalState} {K : List Value} (h : Off K gs gs') {v : Value}
    (hv : v ∉ K) (hown : HasOwn gs v) : HasOwn gs' v := by
  obtain ⟨ao, hmem, o, ho, hval⟩ := hown
  obtain ⟨o', ho', hgrown⟩ := h.objects ao o ho
  exact ⟨ao, h.tuplesOf hv hmem, o', ho', hgrown.val.trans hval⟩

theorem hasOwn_newObject (gs : GlobalState) (v : Value) (type : Ty) :
    HasOwn (gs.newObject v type) v := by
  obtain ⟨o, ho, hval⟩ := createAliasObject_val v type gs.objects
  refine ⟨_, ?_, o, ho, hval⟩
  rw [GlobalState.newObject, tuplesOf_newPts]
  exact List.mem_singleton.mpr rfl

theorem hasOwn_global (m : Module) {name : String} (h : name ∈ m.globals.map Prod.fst) :
    HasOwn (initializeGS .empty m) (.global name) := by
  revert h name
  refine initializeGS_induct (P := fun names gs => ∀ {name}, name ∈ names → HasOwn gs (.global name))
    m (fun h => nomatch h) fun names gs name type ih name' h => ?_
  have hown := hasOwn_newObject gs (.global name) type
  refine HasOwn.off (K := []) (.newTaint _ _) (List.not_mem_nil) ?_
  by_cases heq : name' = name
  · exact heq ▸ hown
  · rcases List.mem_append.mp h with h | h
    · exact HasOwn.off (.newObject _ type) (by simpa using heq) (ih h)
    · exact absurd (List.mem_singleton.mp h) heq

/-- Only globals have entries at the start. -/
theorem initializeGS_lookup (m : Module) {v : Value} (hv : ∀ name, v ≠ .global name) :
    (initializeGS .empty m).pMap.lookup v = none := by
  refine initializeGS_induct (P := fun _ gs => gs.pMap.lookup v = none) m (AList.lookup_empty v)
    fun names gs name type ih => ?_
  have hoff : Off [.global name] gs ((gs.newObject (.global name) type).newTaint (.global name) []) :=
    (Off.newObject _ type).trans (.newTaint _ _)
  exact (hoff.lookup v (by simpa using hv name)).trans ih

/-- The first tuple of the value with the start of its own object. -/
def rootOf (gs : GlobalState) (v : Value) : AliasObjectRef :=
  (((gs.tuplesOf v).find? fun t =>
    t.offset = 0 ∧ (gs.objects[t.ao]?.map AliasObject.val) = some v).map AliasObjectTuple.ao).getD 0

theorem rootOf_spec {gs : GlobalState} {v : Value} (h : HasOwn gs v) :
    ⟨0, rootOf gs v⟩ ∈ gs.tuplesOf v ∧ ∃ o, gs.objects[rootOf gs v]? = some o ∧ o.val = v := by
  obtain ⟨ao, hmem, o, ho, hval⟩ := h
  unfold rootOf
  cases hfind : (gs.tuplesOf v).find? fun t =>
      t.offset = 0 ∧ (gs.objects[t.ao]?.map AliasObject.val) = some v with
  | none => exact absurd (List.find?_eq_none.mp hfind _ hmem) (by simp [ho, hval])
  | some t =>
      have ht := List.find?_some hfind
      simp only [decide_eq_true_eq] at ht
      obtain ⟨o', ho', hval'⟩ := Option.map_eq_some_iff.mp ht.2
      refine ⟨?_, o', ho', hval'⟩
      have heq : (⟨0, t.ao⟩ : AliasObjectTuple) = t := by rw [← ht.1]
      show (⟨0, t.ao⟩ : AliasObjectTuple) ∈ gs.tuplesOf v
      rw [heq]
      exact List.mem_of_find?_eq_some hfind

/-- The alias object of an alloca or global. -/
def root (m : Module) (f : Function) (v : Value) : AliasObjectRef :=
  match (schedule f).find? fun i => i.self = v with
  | some i => rootOf (dispatchClients m (visitState m f v) i) v
  | none => rootOf (initializeGS .empty m) v

def Covered (m : Module) (f : Function) (gs : GlobalState) (v : Value) (x : Value × Nat) : Prop :=
  ⟨x.2, root m f x.1⟩ ∈ gs.tuplesOf v

section Covered

variable {m : Module} {f : Function} {gs gs' : GlobalState} {v : Value} {x : Value × Nat}

theorem Covered.pts? (h : Covered m f gs v x) : ∃ r, gs.pts? v = some r := by
  obtain ⟨r, hr, -⟩ := mem_tuplesOf.mp h
  exact ⟨r, hr⟩

theorem Covered.off {K : List Value} (h : Covered m f gs v x) (hoff : Off K gs gs') (hv : v ∉ K) :
    Covered m f gs' v x :=
  hoff.tuplesOf hv h

theorem covered_atField {off : Nat} {o : Value} {field : Nat} {ts : List AliasObjectTuple}
    (h : (⟨field, root m f o⟩ : AliasObjectTuple) ∈ ts) :
    (⟨off, root m f o⟩ : AliasObjectTuple) ∈ atField off ts :=
  List.mem_map.mpr ⟨_, h, rfl⟩

/-- The entry of a getelementptr is made from that of its operand, or
stays. -/
theorem handlePtoGEPOperator_covered (gop : Value) {op : Value} (pointee : Shape)
    (idx : List (Option Nat)) (h : Covered m f gs op x) :
    handlePtoGEPOperator gs gop op pointee idx = gs ∨
      Covered m f (handlePtoGEPOperator gs gop op pointee idx) gop
        (x.1, fieldOf pointee idx x.2) := by
  obtain ⟨r, hr, hmem⟩ := mem_tuplesOf.mp h
  unfold handlePtoGEPOperator
  split
  · exact .inl rfl
  · rw [hr]
    cases pointee with
    | array =>
        right
        show _ ∈ (gs.setPts gop (some r)).tuplesOf gop
        rw [tuplesOf_setPts]
        exact hmem
    | struct =>
        right
        show _ ∈ (gs.newPts gop _).tuplesOf gop
        rw [tuplesOf_newPts]
        exact covered_atField hmem
    | scalar => exact .inl rfl

theorem handlePtoGEPOperator_none {gop op : Value} {pointee : Shape} {idx : List (Option Nat)}
    (h : gs.pts? op = none) : handlePtoGEPOperator gs gop op pointee idx = gs := by
  unfold handlePtoGEPOperator
  rw [h]
  split <;> rfl

/-- The getelementptr that a value is covers its pointers as its operand
covers theirs. -/
def GepCovered (m : Module) (f : Function) (gs : GlobalState) (v : Value) (x : Value × Nat) : Prop :=
  ∀ op pointee idx, m.gepOperator? v = some (op, pointee, idx) →
    op ≠ v ∧ ∃ y, Covered m f gs op y ∧ x = (y.1, fieldOf pointee idx y.2)

theorem handleStoreGEP_covered (op : Value) (h : Covered m f gs v x)
    (hgep : GepCovered m f gs v x) : Covered m f (handleStoreGEP m gs op) v x := by
  by_cases heq : v = op
  · subst heq
    unfold handleStoreGEP
    cases hg : m.gepOperator? v with
    | none => exact h
    | some g =>
        obtain ⟨base, pointee, idx⟩ := g
        obtain ⟨-, y, hy, rfl⟩ := hgep base pointee idx hg
        show Covered m f (handlePtoGEPOperator gs v base pointee idx) v _
        rcases handlePtoGEPOperator_covered v pointee idx hy with hsame | hcov
        · rw [hsame]
          exact h
        · exact hcov
  · exact h.off (handleStoreGEP_off m gs op) fun hm => heq (mem_gepKey.mp hm).1

theorem GepCovered.off {K : List Value} (h : GepCovered m f gs v x) (hoff : Off K gs gs')
    (hK : ∀ w ∈ K, w = v) : GepCovered m f gs' v x := by
  intro op pointee idx hg
  obtain ⟨hne, y, hy, hx⟩ := h op pointee idx hg
  exact ⟨hne, y, hy.off hoff fun hm => hne (hK op hm), hx⟩

end Covered

/-! ## Constants -/

/-- Constants with an entry are covered. -/
def ConstCovered (m : Module) (f : Function) (gs : GlobalState) : Prop :=
  ∀ v x, constPtr m v = some x → (gs.pts? v).isSome → Covered m f gs v x

section Const

variable {m : Module} {f : Function} {gs gs' : GlobalState}

theorem root_global (m : Module) (f : Function) (name : String) :
    root m f (.global name) = rootOf (initializeGS .empty m) (.global name) := by
  have hnone : (schedule f).find? (fun i => i.self = .global name) = none :=
    List.find?_eq_none.mpr fun i _ => by simp [Inst.self]
  rw [root, hnone]

theorem constCovered_init (m : Module) (f : Function) :
    ConstCovered m f (initializeGS .empty m) := by
  intro v x hx hsome
  cases v with
  | global name =>
      unfold constPtr at hx
      split at hx
      · rename_i hmem
        obtain rfl := Option.some.inj hx
        unfold Covered
        rw [root_global]
        exact (rootOf_spec (hasOwn_global m hmem)).1
      · cases hx
  | gepExpr op pointee idx =>
      rw [GlobalState.pts?, initializeGS_lookup m (by simp)] at hsome
      cases hsome
  | null | param _ _ | inst _ _ | constant _ => cases hx

theorem ConstCovered.off {K : List Value} (h : ConstCovered m f gs) (hoff : Off K gs gs')
    (hK : ∀ v ∈ K, constPtr m v = none) : ConstCovered m f gs' := by
  intro v x hx hsome
  have hv : v ∉ K := fun hm => by
    rw [hK v hm] at hx
    cases hx
  rw [hoff.pts? hv] at hsome
  exact (h v x hx hsome).off hoff hv

theorem handleStoreGEP_global (m : Module) (gs : GlobalState) (name : String) :
    Nova.handleStoreGEP m gs (.global name) = gs := by
  have hnone : (m.insts.find? fun i => i.self = .global name) = none :=
    List.find?_eq_none.mpr fun i _ => by simp [Inst.self]
  simp [Nova.handleStoreGEP, Module.gepOperator?, hnone]

theorem ConstCovered.handleStoreGEP (h : ConstCovered m f gs) (op : Value) :
    ConstCovered m f (handleStoreGEP m gs op) := by
  have hoff := handleStoreGEP_off m gs op
  intro v x hx hsome
  by_cases heq : v = op
  · subst heq
    cases v with
    | gepExpr base pointee idx =>
        have hrule : Nova.handleStoreGEP m gs (.gepExpr base pointee idx) =
            handlePtoGEPOperator gs (.gepExpr base pointee idx) base pointee idx := rfl
        obtain ⟨y, hy, rfl⟩ := Option.map_eq_some_iff.mp hx
        have hcases : Nova.handleStoreGEP m gs (.gepExpr base pointee idx) = gs ∨
            Covered m f (Nova.handleStoreGEP m gs (.gepExpr base pointee idx))
              (.gepExpr base pointee idx) (y.1, fieldOf pointee idx y.2) := by
          rw [hrule]
          cases hbase : gs.pts? base with
          | none => exact .inl (handlePtoGEPOperator_none hbase)
          | some r => exact handlePtoGEPOperator_covered _ _ _ (h base y hy (by simp [hbase]))
        rcases hcases with hsame | hcov
        · rw [hsame] at hsome ⊢
          exact h _ _ hx hsome
        · exact hcov
    | global name =>
        rw [handleStoreGEP_global] at hsome ⊢
        exact h _ _ hx hsome
    | null | param _ _ | inst _ _ | constant _ => cases hx
  · have hv : v ∉ gepKey m op := fun hm => heq (mem_gepKey.mp hm).1
    rw [hoff.pts? hv] at hsome
    exact (h v x hx hsome).off hoff hv

end Const

/-! ## One visit -/

section Dispatch

variable {m : Module} {f : Function} {gs : GlobalState} {i : Inst}

/-- What a store keeps if its parts do. -/
theorem dispatch_store {P : GlobalState → Prop} {v op : Value}
    (hoff : ∀ a b, Off [] a b → P a → P b) (hgep : ∀ a, P a → P (handleStoreGEP m a op))
    (hkind : i.kind = .store v op) (h : P gs) : P (dispatchClients m gs i) := by
  have hpto : P (updatePtoStore m gs v op) := by
    unfold updatePtoStore
    split
    · exact h
    · dsimp only
      split
      · exact hoff _ _ (storeAliases_off _ _ _) (hgep gs h)
      · exact hgep gs h
  unfold dispatchClients pointsToAnalysis taintAnalysis
  rw [hkind]
  dsimp only
  unfold updateTaintStore
  dsimp only
  split
  · exact hgep _ hpto
  · exact hoff _ _ (storeTaints_off _ _ _) (hgep _ hpto)

theorem touched_of_not_store (hkind : ∀ v op, i.kind ≠ .store v op) :
    ∀ w ∈ touched m gs.ci i, w = i.self ∨ w = gs.ci := by
  intro w hw
  unfold touched at hw
  split at hw
  · rename_i v op hstore
    exact absurd hstore (hkind v op)
  · exact .inr (List.mem_singleton.mp hw)
  · exact nomatch hw
  · exact nomatch hw
  · exact .inl (List.mem_singleton.mp hw)

theorem ConstCovered.dispatch (h : ConstCovered m f gs) (hci : gs.ci = .null) :
    ConstCovered m f (dispatchClients m gs i) := by
  by_cases hstore : ∃ v op, i.kind = .store v op
  · obtain ⟨v, op, hkind⟩ := hstore
    exact dispatch_store (fun _ _ hoff h => h.off hoff (by simp))
      (fun _ h => h.handleStoreGEP op) hkind h
  · refine h.off (dispatchClients_off m gs i) fun w hw => ?_
    rcases touched_of_not_store (fun v op hkind => hstore ⟨v, op, hkind⟩) w hw with rfl | rfl
    · rfl
    · rw [hci]
      rfl

/-- The visit of another instruction. -/
theorem Covered.dispatch {v : Value} {x : Value × Nat} (h : Covered m f gs v x)
    (hgep : GepCovered m f gs v x) (hself : v ≠ i.self) (hci : v ≠ gs.ci) :
    Covered m f (dispatchClients m gs i) v x := by
  by_cases hstore : ∃ v' op, i.kind = .store v' op
  · obtain ⟨v', op, hkind⟩ := hstore
    by_cases heq : op = v
    · subst heq
      have hkey : ∀ w ∈ gepKey m op, w = op := fun w hw => (mem_gepKey.mp hw).1
      exact (dispatch_store (P := fun a => Covered m f a op x ∧ GepCovered m f a op x)
        (fun _ _ hoff h => ⟨h.1.off hoff List.not_mem_nil, h.2.off hoff (by simp)⟩)
        (fun a h => ⟨handleStoreGEP_covered op h.1 h.2,
          h.2.off (handleStoreGEP_off m a op) hkey⟩) hkind ⟨h, hgep⟩).1
    · refine h.off (dispatchClients_off m gs i) fun hm => ?_
      unfold touched at hm
      rw [hkind] at hm
      exact heq (mem_gepKey.mp hm).1.symm
  · refine h.off (dispatchClients_off m gs i) fun hm => ?_
    rcases touched_of_not_store (fun v op hkind => hstore ⟨v, op, hkind⟩) v hm with heq | heq
    · exact hself heq
    · exact hci heq

/-- A visit that sets the entry of the instruction itself. -/
theorem Covered.of_pointsTo {v : Value} {x : Value × Nat} (hkind : ∀ v op, i.kind ≠ .store v op)
    (h : Covered m f (pointsToAnalysis m gs i) v x) : Covered m f (dispatchClients m gs i) v x := by
  refine h.off (taintAnalysis_off m _ i) ?_
  cases hk : i.kind with
  | store v op => exact absurd hk (hkind v op)
  | _ => exact List.not_mem_nil

/-- The visit of a store puts the objects of the value where the address
points. -/
theorem store_aliases {v op : Value} {x y : Value × Nat} (hkind : i.kind = .store v op)
    (hlookup : ∃ r, gs.pts? v = some r) (hop : Covered m f (handleStoreGEP m gs op) op x)
    (hv : Covered m f (handleStoreGEP m gs op) v y) (hgap : NoGap (handleStoreGEP m gs op) op) :
    ∃ s, (dispatchClients m gs i).aliasSet? ⟨x.2, root m f x.1⟩ = some s ∧ root m f y.1 ∈ s := by
  obtain ⟨r, hr⟩ := hlookup
  have hentry : gs.pMap.lookup v ≠ none := by
    intro hnone
    rw [GlobalState.pts?, hnone] at hr
    cases hr
  obtain ⟨ots, hots, hxmem⟩ := mem_tuplesOf.mp hop
  obtain ⟨vts, hvts, hymem⟩ := mem_tuplesOf.mp hv
  have hpto : updatePtoStore m gs v op = storeAliases
      (((handleStoreGEP m gs op).tupleSet vts).map fun t => t.ao)
      ((handleStoreGEP m gs op).tupleSet ots) (handleStoreGEP m gs op) := by
    simp [updatePtoStore, hentry, hots, hvts]
  have hall : ∀ t ∈ (handleStoreGEP m gs op).tupleSet ots,
      ((handleStoreGEP m gs op).aliasSet? t).isSome := fun t ht =>
    hgap t (mem_tuplesOf.mpr ⟨ots, hots, ht⟩)
  obtain ⟨s, hs, hsub⟩ : ∃ s, (storeAliases
      (((handleStoreGEP m gs op).tupleSet vts).map fun t => t.ao)
      ((handleStoreGEP m gs op).tupleSet ots) (handleStoreGEP m gs op)).aliasSet?
        ⟨x.2, root m f x.1⟩ = some s ∧ root m f y.1 ∈ s := by
    rw [← mem_cell, mem_cell_storeAliases, reached, List.takeWhile_eq_self_iff.mpr hall]
    exact .inr ⟨hxmem, List.mem_map.mpr ⟨_, hymem, rfl⟩⟩
  rw [← hpto] at hs
  have hpoints : pointsToAnalysis m gs i = updatePtoStore m gs v op := by
    unfold pointsToAnalysis
    rw [hkind]
  rw [← hpoints] at hs
  obtain ⟨s', hs', hsub'⟩ := (taintAnalysis_off m (pointsToAnalysis m gs i) i).objects.aliasSet? hs
  exact ⟨s', hs', hsub' hsub⟩

/-- An entry is not taken away again. -/
theorem handleStoreGEP_isSome {v : Value} (op : Value) (h : (gs.pts? v).isSome) :
    ((handleStoreGEP m gs op).pts? v).isSome := by
  by_cases heq : v = op
  · subst heq
    unfold handleStoreGEP handlePtoGEPOperator
    split
    · split
      · exact h
      · split
        · exact h
        · split
          · simp [GlobalState.pts?, GlobalState.setPts]
          · simp [GlobalState.pts?, GlobalState.newPts]
          · exact h
    · exact h
  · rw [(handleStoreGEP_off m gs op).pts? fun hm => heq (mem_gepKey.mp hm).1]
    exact h

theorem dispatch_isSome {v : Value} (h : (gs.pts? v).isSome) (hself : v ≠ i.self)
    (hci : v ≠ gs.ci) : ((dispatchClients m gs i).pts? v).isSome := by
  by_cases hstore : ∃ v' op, i.kind = .store v' op
  · obtain ⟨v', op, hkind⟩ := hstore
    refine dispatch_store (P := fun a => (a.pts? v).isSome) (fun _ _ hoff h => ?_)
      (fun a h => handleStoreGEP_isSome op h) hkind h
    rw [hoff.pts? List.not_mem_nil]
    exact h
  · rw [(dispatchClients_off m gs i).pts? fun hm => ?_]
    · exact h
    · rcases touched_of_not_store (fun v op hkind => hstore ⟨v, op, hkind⟩) v hm with heq | heq
      · exact hself heq
      · exact hci heq

theorem visit_binOp {op1 op2 op : Value} {x : Value × Nat} (hkind : i.kind = .binOp op1 op2)
    (hfresh : gs.pts? i.self = none) (hop : op = op1 ∨ op = op2) (h : Covered m f gs op x) :
    Covered m f (dispatchClients m gs i) i.self x := by
  refine .of_pointsTo (by simp [hkind]) ?_
  unfold pointsToAnalysis updatePtoBinOp
  rw [hkind]
  simp only [hfresh]
  unfold Covered
  rw [tuplesOf_newPts]
  rcases hop with rfl | rfl
  · exact mem_setInsertAll.mpr (.inl (mem_setInsertAll.mpr (.inr h)))
  · exact mem_setInsertAll.mpr (.inr h)

theorem visit_gep {op : Value} {pointee : Shape} {idx : List (Option Nat)} {x : Value × Nat}
    (hkind : i.kind = .gep op pointee idx) (h : Covered m f gs op x) :
    Covered m f (dispatchClients m gs i) i.self (x.1, fieldOf pointee idx x.2) := by
  refine .of_pointsTo (by simp [hkind]) ?_
  obtain ⟨r, hr, hmem⟩ := mem_tuplesOf.mp h
  unfold pointsToAnalysis updatePtoGEP
  rw [hkind]
  simp only [hr]
  unfold Covered
  cases pointee with
  | array =>
      dsimp only
      rw [tuplesOf_setPts]
      exact hmem
  | struct =>
      dsimp only
      rw [tuplesOf_newPts]
      exact covered_atField hmem
  | scalar =>
      dsimp only
      rw [tuplesOf_setPts]
      exact hmem

theorem visit_bitCast {op : Value} {x : Value × Nat} (hkind : i.kind = .bitCast op)
    (h : Covered m f gs op x) : Covered m f (dispatchClients m gs i) i.self x := by
  refine .of_pointsTo (by simp [hkind]) ?_
  obtain ⟨r, hr, hmem⟩ := mem_tuplesOf.mp h
  unfold pointsToAnalysis updatePtoBitCast
  rw [hkind]
  simp only [hr]
  unfold Covered
  rw [tuplesOf_setPts]
  exact hmem

theorem visit_load {op : Value} {x : Value × Nat} {o : Value} (hkind : i.kind = .load op)
    (h : Covered m f gs op x) (hgap : NoGap gs op)
    (hs : ∃ s, gs.aliasSet? ⟨x.2, root m f x.1⟩ = some s ∧ root m f o ∈ s) :
    Covered m f (dispatchClients m gs i) i.self (o, 0) := by
  refine .of_pointsTo (by simp [hkind]) ?_
  obtain ⟨r, hr, -⟩ := mem_tuplesOf.mp h
  have hpoints : pointsToAnalysis m gs i = updatePtoLoad gs i.self op := by
    unfold pointsToAnalysis
    rw [hkind]
  unfold Covered at h ⊢
  rw [hpoints, updatePtoLoad_of_noGap (by simp [hr]) hgap]
  exact List.mem_flatMap.mpr ⟨_, h, List.mem_map.mpr ⟨_, mem_cell.mpr hs, rfl⟩⟩

end Dispatch

/-! ## All visits -/

section Visits

variable {m : Module} {b : Body m}

theorem stateAfter_concat (m : Module) (pre : List Inst) (i : Inst) :
    stateAfter m (pre ++ [i]) = dispatchClients m (stateAfter m pre) i := by
  rw [stateAfter, List.foldl_append]
  rfl

theorem stateAfter_ci (m : Module) (pre : List Inst) : (stateAfter m pre).ci = .null := by
  induction pre using List.reverseRecOn with
  | nil => exact (initializeGS_frame m).ci
  | append_singleton pre i ih =>
      rw [stateAfter_concat]
      exact (dispatchClients_off m _ i).ci.trans ih

theorem stateAfter_objects (m : Module) (pre mid : List Inst) :
    ObjectsGrown (stateAfter m pre).objects (stateAfter m (pre ++ mid)).objects := by
  induction mid using List.reverseRecOn with
  | nil =>
      rw [List.append_nil]
      exact .refl _
  | append_singleton mid i ih =>
      rw [← List.append_assoc, stateAfter_concat]
      exact ih.trans (dispatchClients_off m _ i).objects

theorem stateAfter_isSome {v : Value} (hv : (constPtr m v).isSome) (pre mid : List Inst)
    (h : ((stateAfter m pre).pts? v).isSome) : ((stateAfter m (pre ++ mid)).pts? v).isSome := by
  have hne : ∀ w, constPtr m w = none → v ≠ w := by
    rintro w hw rfl
    rw [hw] at hv
    cases hv
  induction mid using List.reverseRecOn with
  | nil => simpa using h
  | append_singleton mid i ih =>
      rw [← List.append_assoc, stateAfter_concat]
      refine dispatch_isSome ih (hne _ rfl) ?_
      rw [stateAfter_ci]
      exact hne _ rfl

theorem stateAfter_constCovered (m : Module) (f : Function) (pre : List Inst) :
    ConstCovered m f (stateAfter m pre) := by
  induction pre using List.reverseRecOn with
  | nil => exact constCovered_init m f
  | append_singleton pre i ih =>
      rw [stateAfter_concat]
      exact ih.dispatch (stateAfter_ci m pre)

theorem Body.earlier_eq {pre post : List Inst} {i : Inst} (h : schedule b.fn = pre ++ i :: post) :
    earlier b.fn i.self = pre := by
  have hnodup := b.schedule_nodup
  rw [h, List.map_append, List.map_cons] at hnodup
  have hne : ∀ j ∈ pre, decide (j.self ≠ i.self) = true := by
    intro j hj
    refine decide_eq_true fun heq => ?_
    have hdisj := (List.nodup_append.mp hnodup).2.2
    exact hdisj _ (List.mem_map.mpr ⟨j, hj, rfl⟩) _ (List.mem_cons_self ..) heq
  rw [earlier, h, List.takeWhile_append_of_pos hne, List.takeWhile_cons_of_neg (by simp),
    List.append_nil]

/-- An instruction has one place. -/
theorem Body.self_inj {pre post pre' post' : List Inst} {i j : Inst}
    (h : schedule b.fn = pre ++ i :: post) (h' : schedule b.fn = pre' ++ j :: post')
    (hself : i.self = j.self) : pre = pre' ∧ i = j := by
  have hpre : pre = pre' := by rw [← b.earlier_eq h, ← b.earlier_eq h', hself]
  subst hpre
  exact ⟨rfl, (List.cons_eq_cons.mp (List.append_cancel_left (h.symm.trans h'))).1⟩

/-- What is among the instructions visited so far splits them. -/
theorem Body.split_visited {pre post pre' post' : List Inst} {i : Inst}
    (h : schedule b.fn = pre ++ i :: post) (h' : schedule b.fn = pre' ++ post')
    (hmem : i.self ∈ pre'.map Inst.self) : ∃ mid, pre' = pre ++ i :: mid := by
  obtain ⟨j, hj, hself⟩ := List.mem_map.mp hmem
  obtain ⟨front, mid, rfl⟩ := List.append_of_mem hj
  have hsplit : schedule b.fn = front ++ j :: (mid ++ post') := by
    rw [h', List.append_assoc, List.cons_append]
  obtain ⟨rfl, rfl⟩ := b.self_inj hsplit h hself
  exact ⟨mid, rfl⟩

theorem Body.visitState_eq {pre post : List Inst} {i : Inst}
    (h : schedule b.fn = pre ++ i :: post) :
    visitState m b.fn i.self = stateAfter m pre := by
  rw [visitState, b.earlier_eq h]

theorem Body.mem_insts {i : Inst} (h : i ∈ schedule b.fn) : i ∈ m.insts := schedule_subset b.mem i h

/-- An instruction is the getelementptr that its value is. -/
theorem Body.gepOperator?_self {i : Inst} (h : i ∈ schedule b.fn)
    {g : Value × Shape × List (Option Nat)} (hg : m.gepOperator? i.self = some g) :
    i.kind = .gep g.1 g.2.1 g.2.2 := by
  have hfind := find?_of_nodup b.ids (b.mem_insts h)
  unfold Module.gepOperator? at hg
  split at hg
  · rename_i heq
    cases heq
  · rw [hfind] at hg
    split at hg
    · rename_i heq
      obtain rfl := Option.some.inj heq
      exact Option.some.inj hg ▸ rfl
    · cases hg

/-- An instruction that has not been visited has no entry. -/
theorem Body.lookup_fresh {pre post : List Inst} (h : schedule b.fn = pre ++ post) {v : Value}
    (hv : v.isInst = true) (hpre : v ∉ pre.map Inst.self) :
    (stateAfter m pre).pMap.lookup v = none := by
  induction pre using List.reverseRecOn generalizing post with
  | nil =>
      refine initializeGS_lookup m fun name => ?_
      rintro rfl
      cases hv
  | append_singleton pre i ih =>
      rw [List.append_assoc] at h
      rw [List.map_append, List.mem_append, not_or] at hpre
      have hself : v ≠ i.self := fun heq => hpre.2 (by simp [heq])
      rw [stateAfter_concat]
      refine ((dispatchClients_off m _ i).lookup v fun hm => ?_).trans (ih h hpre.1)
      by_cases hstore : ∃ v' op, i.kind = .store v' op
      · obtain ⟨v', op, hkind⟩ := hstore
        unfold touched at hm
        rw [hkind] at hm
        obtain ⟨rfl, -⟩ := mem_gepKey.mp hm
        exact hpre.1 (b.operand_before h v (by simp [Inst.operands, hkind]) hv)
      · rcases touched_of_not_store (fun v op hkind => hstore ⟨v, op, hkind⟩) v hm with heq | heq
        · exact hself heq
        · rw [stateAfter_ci] at heq
          subst heq
          cases hv

/-- In each state after its visit the value is covered. -/
def CoveredSince (m : Module) (f : Function) (v : Value) (x : Value × Nat) : Prop :=
  ∀ pre post, schedule f = pre ++ post → v ∈ pre.map Inst.self →
    Covered m f (stateAfter m pre) v x ∧ GepCovered m f (stateAfter m pre) v x

/-- What is covered by the visit of an instruction stays covered. -/
theorem Body.covered_from {pre post : List Inst} {i : Inst} {x : Value × Nat}
    (h : schedule b.fn = pre ++ i :: post)
    (hvisit : Covered m b.fn (stateAfter m (pre ++ [i])) i.self x)
    (hgep : ∀ pre' post', schedule b.fn = pre' ++ post' → i.self ∈ pre'.map Inst.self →
      GepCovered m b.fn (stateAfter m pre') i.self x) :
    CoveredSince m b.fn i.self x := by
  intro pre' post' h' hmem
  refine ⟨?_, hgep pre' post' h' hmem⟩
  induction pre' using List.reverseRecOn generalizing post' with
  | nil => exact nomatch hmem
  | append_singleton pre' j ih =>
      rw [List.append_assoc] at h'
      by_cases hself : j.self = i.self
      · obtain ⟨rfl, rfl⟩ := b.self_inj h' h hself
        exact hvisit
      · have hmem' : i.self ∈ pre'.map Inst.self := by
          rw [List.map_append, List.mem_append] at hmem
          exact hmem.resolve_right fun hm => hself (List.mem_singleton.mp hm).symm
        rw [stateAfter_concat]
        refine (ih _ h' hmem').dispatch (hgep _ _ h' hmem') (fun heq => hself heq.symm) ?_
        rw [stateAfter_ci]
        exact fun heq => nomatch heq

/-- The same for an instruction that is no getelementptr. -/
theorem Body.covered_from_visit {pre post : List Inst} {i : Inst} {x : Value × Nat}
    (h : schedule b.fn = pre ++ i :: post) (hkind : ∀ op pointee idx, i.kind ≠ .gep op pointee idx)
    (hvisit : Covered m b.fn (stateAfter m (pre ++ [i])) i.self x) :
    CoveredSince m b.fn i.self x := by
  have hi : i ∈ schedule b.fn := by simp [h]
  refine b.covered_from h hvisit fun pre' post' _ _ op pointee idx hg => ?_
  exact absurd (b.gepOperator?_self hi hg) (hkind _ _ _)

/-- An operand of an instruction is covered by the visit, and later. -/
theorem Body.operand_covered_later (mid : List Inst) {pre post post' : List Inst} {i : Inst}
    {op : Value} {x : Value × Nat} (h : schedule b.fn = pre ++ i :: post) (hop : op ∈ i.operands)
    (hflow : Flow m b.fn op x) (ih : op.isInst = true → CoveredSince m b.fn op x)
    (hknown : Known m (stateAfter m pre) op) (h' : schedule b.fn = (pre ++ mid) ++ post') :
    Covered m b.fn (stateAfter m (pre ++ mid)) op x := by
  cases hinst : op.isInst with
  | true =>
      refine (ih hinst _ _ h' ?_).1
      rw [List.map_append]
      exact List.mem_append_left _ (b.operand_before h op hop hinst)
  | false =>
      have hx := hflow.constPtr hinst
      have hsome : (constPtr m op).isSome := by simp [hx]
      exact stateAfter_constCovered m b.fn _ op x hx
        (stateAfter_isSome hsome pre mid (hknown hsome))

theorem Body.operand_covered {pre post : List Inst} {i : Inst} {op : Value} {x : Value × Nat}
    (h : schedule b.fn = pre ++ i :: post) (hop : op ∈ i.operands) (hflow : Flow m b.fn op x)
    (ih : op.isInst = true → CoveredSince m b.fn op x)
    (hknown : Known m (stateAfter m pre) op) : Covered m b.fn (stateAfter m pre) op x := by
  have hnil : pre ++ [] = pre := List.append_nil pre
  have hcov := b.operand_covered_later [] h hop hflow ih hknown (hnil.symm ▸ h)
  rwa [hnil] at hcov

theorem Body.not_mem_earlier {pre post : List Inst} {i : Inst}
    (h : schedule b.fn = pre ++ i :: post) : i.self ∉ pre.map Inst.self := by
  have hnodup := b.schedule_nodup
  rw [h, List.map_append, List.map_cons] at hnodup
  exact fun hm => (List.nodup_append.mp hnodup).2.2 _ hm _ (List.mem_cons_self ..) rfl

/-- The operands of a store, when the entry of the address has been made. -/
theorem Body.operand_covered_store {pre post : List Inst} {i : Inst} {v op w : Value}
    {x : Value × Nat} (h : schedule b.fn = pre ++ i :: post) (hkind : i.kind = .store v op)
    (hw : w = v ∨ w = op) (hflow : Flow m b.fn w x)
    (ih : w.isInst = true → CoveredSince m b.fn w x)
    (hreg : Regular m (stateAfter m pre) i) :
    Covered m b.fn (handleStoreGEP m (stateAfter m pre) op) w x := by
  have hmem : w ∈ i.operands := by simpa [Inst.operands, hkind] using hw
  rw [Regular, hkind] at hreg
  cases hinst : w.isInst with
  | true =>
      obtain ⟨hcov, hgep⟩ := ih hinst pre _ h (b.operand_before h w hmem hinst)
      exact handleStoreGEP_covered op hcov hgep
  | false =>
      have hx := hflow.constPtr hinst
      have hsome : (constPtr m w).isSome := by simp [hx]
      refine (stateAfter_constCovered m b.fn pre).handleStoreGEP op w x hx ?_
      rcases hw with rfl | rfl
      · exact handleStoreGEP_isSome op (hreg.1 hsome)
      · exact hreg.2.1 hsome

/-- A store visited has its value in the alias sets, from then on. -/
theorem Body.stored {pre : List Inst} (mid : List Inst) {i : Inst} {v op : Value}
    {x y : Value × Nat} (hkind : i.kind = .store v op) (hreg : Regular m (stateAfter m pre) i)
    (hop : Covered m b.fn (handleStoreGEP m (stateAfter m pre) op) op x)
    (hv : Covered m b.fn (handleStoreGEP m (stateAfter m pre) op) v y)
    (hentry : ∃ r, (stateAfter m pre).pts? v = some r) :
    ∃ s, (stateAfter m (pre ++ i :: mid)).aliasSet? ⟨x.2, root m b.fn x.1⟩ = some s ∧
      root m b.fn y.1 ∈ s := by
  rw [Regular, hkind] at hreg
  obtain ⟨s, hs, hmem⟩ := store_aliases hkind hentry hop hv hreg.2.2
  rw [← stateAfter_concat] at hs
  obtain ⟨s', hs', hsub⟩ := (stateAfter_objects m (pre ++ [i]) mid).aliasSet? hs
  rw [List.append_assoc] at hs'
  exact ⟨s', hs', hsub hmem⟩

theorem Body.hasOwn_alloca {pre post : List Inst} {i : Inst} (h : schedule b.fn = pre ++ i :: post)
    {type : Ty} (hkind : i.kind = .alloca type) :
    HasOwn (stateAfter m (pre ++ [i])) i.self ∧
      root m b.fn i.self = rootOf (stateAfter m (pre ++ [i])) i.self := by
  rw [stateAfter_concat]
  constructor
  · unfold dispatchClients pointsToAnalysis taintAnalysis
    rw [hkind]
    exact hasOwn_newObject _ _ type
  · unfold root
    rw [find?_of_nodup b.schedule_nodup (by simp [h])]
    dsimp only
    rw [b.visitState_eq h]

/-- What flows into an instruction is in the map from the visit on. -/
theorem flow_covered {v : Value} {x : Value × Nat} (hflow : Flow m b.fn v x) :
    v.isInst = true → CoveredSince m b.fn v x := by
  induction hflow with
  | @const v x hx =>
      intro hinst
      cases v with
      | inst fn id => cases hx
      | _ => cases hinst
  | @alloca i type hi hkind =>
      intro _
      obtain ⟨pre, post, h⟩ := List.append_of_mem hi
      obtain ⟨hown, hroot⟩ := b.hasOwn_alloca h hkind
      refine b.covered_from_visit h (by simp [hkind]) ?_
      unfold Covered
      rw [hroot]
      exact (rootOf_spec hown).1
  | @binOp i op1 op2 op x hi hkind hreg hop hx ih =>
      intro _
      obtain ⟨pre, post, h⟩ := List.append_of_mem hi
      rw [b.visitState_eq h, Regular, hkind] at hreg
      refine b.covered_from_visit h (by simp [hkind]) ?_
      have hknown : Known m (stateAfter m pre) op := by
        rcases hop with rfl | rfl
        · exact hreg.1
        · exact hreg.2
      have hmem : op ∈ i.operands := by simpa [Inst.operands, hkind] using hop
      have hfresh : (stateAfter m pre).pts? i.self = none := by
        rw [GlobalState.pts?, b.lookup_fresh h rfl (b.not_mem_earlier h)]
        rfl
      rw [stateAfter_concat]
      exact visit_binOp hkind hfresh hop (b.operand_covered h hmem hx ih hknown)
  | @gep i op pointee idx x hi hkind hreg hx ih =>
      intro _
      obtain ⟨pre, post, h⟩ := List.append_of_mem hi
      rw [b.visitState_eq h, Regular, hkind] at hreg
      have hmem : op ∈ i.operands := by simp [Inst.operands, hkind]
      have hop := b.operand_covered h hmem hx ih hreg
      refine b.covered_from h ?_ fun pre' post' h' hself op' pointee' idx' hg => ?_
      · rw [stateAfter_concat]
        exact visit_gep hkind hop
      · rw [b.gepOperator?_self hi hg] at hkind
        obtain ⟨rfl, rfl, rfl⟩ := InstKind.gep.inj hkind
        obtain ⟨mid, rfl⟩ := b.split_visited h h' hself
        refine ⟨?_, x, b.operand_covered_later _ h hmem hx ih hreg h', rfl⟩
        rintro rfl
        exact b.not_mem_earlier h (b.operand_before h _ hmem rfl)
  | @bitCast i op x hi hkind hreg hx ih =>
      intro _
      obtain ⟨pre, post, h⟩ := List.append_of_mem hi
      rw [b.visitState_eq h, Regular, hkind] at hreg
      refine b.covered_from_visit h (by simp [hkind]) ?_
      have hmem : op ∈ i.operands := by simp [Inst.operands, hkind]
      rw [stateAfter_concat]
      exact visit_bitCast hkind (b.operand_covered h hmem hx ih hreg)
  | @load i j op v op' x y hi hkind hreg hx hj hkind' hreg' hx' hy hbefore ih ih' ihy =>
      intro _
      obtain ⟨pre, post, h⟩ := List.append_of_mem hi
      obtain ⟨pre', post', h'⟩ := List.append_of_mem hj
      rw [b.visitState_eq h, Regular, hkind] at hreg
      rw [b.visitState_eq h'] at hreg'
      refine b.covered_from_visit h (by simp [hkind]) ?_
      have hmem : op ∈ i.operands := by simp [Inst.operands, hkind]
      have hop := b.operand_covered h hmem hx ih hreg.1
      -- the store is in front of the load
      rw [Before, b.earlier_eq h] at hbefore
      obtain ⟨mid, rfl⟩ := b.split_visited h' h hbefore
      have hknown : Known m (stateAfter m pre') v := by
        rw [Regular, hkind'] at hreg'
        exact hreg'.1
      have hv := b.operand_covered h' (by simp [Inst.operands, hkind']) hy ihy hknown
      have hs := b.stored mid hkind' hreg'
        (b.operand_covered_store h' hkind' (.inr rfl) hx' ih' hreg')
        (b.operand_covered_store h' hkind' (.inl rfl) hy ihy hreg') hv.pts?
      rw [stateAfter_concat]
      exact visit_load hkind hop hreg.2 hs

theorem constPtr_site {m : Module} {v : Value} {x : Value × Nat} (h : constPtr m v = some x) :
    ∃ name ∈ m.globals.map Prod.fst, x.1 = .global name := by
  induction v generalizing x with
  | global name =>
      unfold constPtr at h
      split at h
      · rename_i hmem
        obtain rfl := Option.some.inj h
        exact ⟨name, hmem, rfl⟩
      · cases h
  | gepExpr op pointee idx ih =>
      obtain ⟨y, hy, rfl⟩ := Option.map_eq_some_iff.mp h
      obtain ⟨name, hname, hsite⟩ := ih hy
      exact ⟨name, hname, hsite⟩
  | _ => cases h

/-- Pointers come from globals and allocas. -/
theorem flow_site {v : Value} {x : Value × Nat} (hflow : Flow m b.fn v x) :
    (∃ name ∈ m.globals.map Prod.fst, x.1 = .global name) ∨
      ∃ i ∈ schedule b.fn, (∃ type, i.kind = .alloca type) ∧ x.1 = i.self := by
  induction hflow with
  | const hx => exact .inl (constPtr_site hx)
  | alloca hi hkind => exact .inr ⟨_, hi, ⟨_, hkind⟩, rfl⟩
  | binOp _ _ _ _ _ ih => exact ih
  | gep _ _ _ _ ih => exact ih
  | bitCast _ _ _ _ ih => exact ih
  | load _ _ _ _ _ _ _ _ _ _ _ _ ih => exact ih

/-- At the end the alias object of what a pointer points into is there. -/
theorem root_val {v : Value} {x : Value × Nat} (hflow : Flow m b.fn v x) :
    ∃ o, (stateAfter m (schedule b.fn)).objects[root m b.fn x.1]? = some o ∧ o.val = x.1 := by
  rcases flow_site hflow with ⟨name, hname, hx⟩ | ⟨i, hi, ⟨type, hkind⟩, hx⟩
  · obtain ⟨-, o, ho, hval⟩ := rootOf_spec (hasOwn_global m hname)
    obtain ⟨o', ho', hgrown⟩ := stateAfter_objects m [] (schedule b.fn) _ o ho
    rw [hx, root_global]
    exact ⟨o', ho', hgrown.val.trans hval⟩
  · obtain ⟨pre, post, h⟩ := List.append_of_mem hi
    obtain ⟨hown, hroot⟩ := b.hasOwn_alloca h hkind
    obtain ⟨-, o, ho, hval⟩ := rootOf_spec hown
    obtain ⟨o', ho', hgrown⟩ := stateAfter_objects m (pre ++ [i]) post _ o ho
    rw [hx, hroot, h]
    rw [List.append_assoc] at ho'
    exact ⟨o', ho', hgrown.val.trans hval⟩

theorem Body.traversal_eq (b : Body m) (fuel : Nat) :
    traversal m (fuel + 1) (initializeGS .empty m) b.fn = some (stateAfter m (schedule b.fn)) := by
  have hvisit : ∀ i ∈ schedule b.fn, ∀ gs,
      visitInst m (traversal m fuel) gs i = some (dispatchClients m gs i) := by
    intro i hi gs
    rw [schedule_eq] at hi
    obtain ⟨n, -, hi⟩ := List.mem_flatMap.mp hi
    obtain ⟨block, hblock, hi⟩ := mem_block hi
    unfold visitInst
    split
    · rename_i callee args hkind
      exact absurd hkind (b.noCall block hblock i hi callee args)
    · rfl
  have hfold : ∀ (is : List Inst) (gs : GlobalState), (∀ i ∈ is, i ∈ schedule b.fn) →
      is.foldlM (visitInst m (traversal m fuel)) gs = some (is.foldl (dispatchClients m) gs) := by
    intro is
    induction is with
    | nil => exact fun gs _ => rfl
    | cons i is ih =>
        intro gs his
        rw [List.foldlM_cons, hvisit i (his i (List.mem_cons_self ..))]
        exact ih _ fun j hj => his j (List.mem_cons_of_mem _ hj)
  rw [traversal_succ]
  exact hfold _ _ fun _ h => h

end Visits

/-- The values of instructions, and parameters and globals. -/
def Value.isVariable : Value → Bool
  | .inst _ _ => true
  | .param _ _ => true
  | .global _ => true
  | _ => false

theorem flow_mem {m : Module} {f : Function} {v : Value} {x : Value × Nat} (hflow : Flow m f v x)
    (hv : v.isInst = true) : v ∈ (schedule f).map Inst.self := by
  cases hflow with
  | const hx =>
      cases v with
      | inst fn id => cases hx
      | _ => cases hv
  | alloca hi _ => exact List.mem_map.mpr ⟨_, hi, rfl⟩
  | binOp hi _ _ _ _ => exact List.mem_map.mpr ⟨_, hi, rfl⟩
  | gep hi _ _ _ => exact List.mem_map.mpr ⟨_, hi, rfl⟩
  | bitCast hi _ _ _ => exact List.mem_map.mpr ⟨_, hi, rfl⟩
  | load hi _ _ _ _ _ _ _ _ _ => exact List.mem_map.mpr ⟨_, hi, rfl⟩

/-- A global has an entry from the start. -/
theorem variable_isSome {m : Module} {insts : List Inst} {v : Value} {x : Value × Nat}
    (hv : v.isVariable = true) (hx : constPtr m v = some x) :
    ((stateAfter m insts).pts? v).isSome := by
  cases v with
  | global name =>
      have hname : name ∈ m.globals.map Prod.fst := by
        unfold constPtr at hx
        split at hx
        · assumption
        · cases hx
      obtain ⟨ao, hmem, -⟩ := hasOwn_global m hname
      obtain ⟨r, hr, -⟩ := mem_tuplesOf.mp hmem
      exact stateAfter_isSome (by simp [hx]) [] insts (Option.isSome_iff_exists.mpr ⟨r, hr⟩)
  | inst _ _ | param _ _ => cases hx
  | _ => cases hv

/-- Each pointer of the state points into an object that is in the map. -/
def PointsTo (m : Module) (target : Target) (gs : GlobalState) (s : Rt) : Prop :=
  ∀ v p, v.isVariable = true → s.val m target v = some p →
    ∃ t ∈ gs.tuplesOf v, ∃ o, gs.objects[t.ao]? = some o ∧ o.val = p.obj.site

/-- In a run whose steps meet the condition, and that is given no pointers
into objects, the map has all that a value points into. -/
theorem points_to_sound {m : Module} (b : Body m) (target : Target) {s₀ s : Rt} {log : List Step}
    (hstart : Start s₀) (hrun : Run m target s₀ log s) (halong : Along b log)
    (hparams : ∀ fn i, s₀.env (.param fn i) = none) (hok : ∀ st ∈ log, StepOk m b.fn target st)
    (fuel : Nat) :
    ∃ gs, traversal m (fuel + 1) (initializeGS .empty m) b.fn = some gs ∧
      PointsTo m target gs s := by
  refine ⟨_, b.traversal_eq fuel, fun v p hv hval => ?_⟩
  obtain ⟨w, hw, hinit⟩ := halong
  have hin : ∀ st ∈ log, st.inst ∈ schedule b.fn := fun st hst =>
    b.mem_schedule hw (hinit.subset (List.mem_map.mpr ⟨st, hst, rfl⟩))
  have hflow := (run_flow hrun hstart hparams hin hok).val hval
  have hcov : Covered m b.fn (stateAfter m (schedule b.fn)) v (p.obj.site, p.field) := by
    cases hinst : v.isInst with
    | true =>
        exact (flow_covered hflow hinst _ [] (List.append_nil _).symm (flow_mem hflow hinst)).1
    | false =>
        have hx := hflow.constPtr hinst
        exact stateAfter_constCovered _ _ _ _ _ hx (variable_isSome hv hx)
  exact ⟨_, hcov, root_val hflow⟩

/-! ## Fixed functions -/

/-- Each operand is from the entry block or from the block itself. -/
def localSsa (known : List Value) : List Inst → Bool
  | [] => true
  | i :: is => i.operands.all (fun v => !v.isInst || v ∈ known) && localSsa (known ++ [i.self]) is

theorem localSsa_spec {known : List Value} {pre post : List Inst} {i : Inst}
    (h : localSsa known (pre ++ i :: post) = true) :
    ∀ v ∈ i.operands, v.isInst = true → v ∈ known ∨ v ∈ pre.map Inst.self := by
  induction pre generalizing known with
  | nil =>
      intro v hv hinst
      have hall := List.all_eq_true.mp (Bool.and_eq_true_iff.mp h).1 v hv
      simpa [hinst] using hall
  | cons j pre ih =>
      intro v hv hinst
      have hrest := ih (Bool.and_eq_true_iff.mp h).2 v hv hinst
      simpa [or_assoc] using hrest

theorem ssa_of_local {f : Function} {succ : Nat → List Nat}
    (h : ∀ n, localSsa (if n = 0 then [] else (f.block 0).map Inst.self) (f.block n) = true) :
    ∀ w, Walk succ 0 w → ∀ pre i post, w.flatMap f.block = pre ++ i :: post →
      ∀ v ∈ i.operands, v.isInst = true → v ∈ pre.map Inst.self := by
  intro w hw pre i post hsplit v hv hinst
  obtain ⟨front, n, back, pre', post', rfl, hblock, rfl⟩ := flatMap_split hsplit
  have hn := h n
  rw [hblock] at hn
  rw [List.map_append, List.mem_append]
  rcases localSsa_spec hn v hv hinst with hentry | hlocal
  · split at hentry
    · exact nomatch hentry
    · rename_i hne
      obtain ⟨rest, hrest⟩ := hw.exists_head
      cases front with
      | nil => exact absurd (List.cons_eq_cons.mp hrest).1 hne
      | cons a front =>
          obtain ⟨rfl, -⟩ := List.cons_eq_cons.mp hrest
          obtain ⟨j, hj, rfl⟩ := List.mem_map.mp hentry
          exact .inl (List.mem_map.mpr ⟨j, by simp [hj], rfl⟩)
  · exact .inr hlocal

/-- Pointers are eight bytes wide. -/
def target64 : Target := ⟨fun _ => 0, fun _ => 8⟩

def emptyRt : Rt := ⟨fun _ => none, fun _ _ => none, 0⟩

theorem emptyRt_start : Start emptyRt :=
  ⟨fun _ _ => rfl, fun _ _ _ h => nomatch h⟩

/-- `int x, *p = &x, *v = p;` -/
def straightFn : Function where
  name := "main"
  params := 0
  blocks :=
    [[⟨"main", 0, .alloca (.ptr (.int 32))⟩, ⟨"main", 1, .alloca (.int 32)⟩,
      ⟨"main", 2, .store (.inst "main" 1) (.inst "main" 0)⟩,
      ⟨"main", 3, .load (.inst "main" 0)⟩, ⟨"main", 4, .ret (.constant 0)⟩]]
  sccs := [[0]]

def straightModule : Module := ⟨[], [straightFn], []⟩

def straightBody : Body straightModule where
  fn := straightFn
  succ _ := []
  mem := List.mem_singleton.mpr rfl
  ids := by decide
  order :=
    { nodup := by decide
      found := fun front b back h => by
        have hlist : [0] = front ++ b :: back := h
        cases front with
        | nil => exact .inl (List.cons_eq_cons.mp hlist).1.symm
        | cons a front =>
            have hlength := congrArg List.length hlist
            simp at hlength
      mem_root := by decide
      closed := by decide }
  noCall := by simp [straightFn]
  ssa := ssa_of_local fun n => match n with
    | 0 => rfl
    | _ + 1 => rfl

theorem points_to_sound_straight : ∃ log s,
    Run straightModule target64 emptyRt log s ∧
      s.env (.inst "main" 3) = some ⟨⟨.inst "main" 1, 1⟩, 0, 0⟩ ∧
      ∃ gs, traversal straightModule 1 (initializeGS .empty straightModule) straightFn = some gs ∧
        PointsTo straightModule target64 gs s := by
  have h0 : Run straightModule target64 emptyRt [] emptyRt := .start
  have h1 := h0.step (.alloca (i := ⟨"main", 0, .alloca (.ptr (.int 32))⟩) rfl)
  have h2 := h1.step (.alloca (i := ⟨"main", 1, .alloca (.int 32)⟩) rfl)
  have h3 := h2.step (.store (i := ⟨"main", 2, .store (.inst "main" 1) (.inst "main" 0)⟩) rfl)
  have h4 := h3.step (.load (i := ⟨"main", 3, .load (.inst "main" 0)⟩) rfl
    (some ⟨⟨.inst "main" 1, 1⟩, 0, 0⟩) fun p hp => by
      obtain rfl := Option.some.inj hp
      refine ⟨rfl, fun a ha => ?_⟩
      obtain rfl : (⟨⟨.inst "main" 0, 0⟩, 0, 0⟩ : Ptr) = a := Option.some.inj ha
      exact ⟨0, by decide, _, rfl, rfl⟩)
  have hstoreGap : NoGap (visitState straightModule straightFn (.inst "main" 2)) (.inst "main" 0) := by
    unfold NoGap
    decide +kernel
  have hloadGap : NoGap (visitState straightModule straightFn (.inst "main" 3)) (.inst "main" 0) := by
    unfold NoGap
    decide +kernel
  refine ⟨_, _, h4, rfl, points_to_sound straightBody target64 emptyRt_start h4
    ⟨[0], .root, ⟨_, rfl⟩⟩ (fun _ _ => rfl) (fun st hst => ?_) 0⟩
  simp only [List.nil_append, List.cons_append, List.mem_cons, List.not_mem_nil, or_false] at hst
  rcases hst with rfl | rfl | rfl | rfl
  · exact fun _ _ => trivial
  · exact fun _ _ => trivial
  · exact fun _ _ _ _ => ⟨(fun h => nomatch h), (fun h => nomatch h), hstoreGap⟩
  · intro p hp
    obtain rfl := Option.some.inj hp
    exact ⟨⟨(fun h => nomatch h), hloadGap⟩, _, rfl, 0, by decide, _, rfl, rfl, by
      unfold Before
      decide, rfl⟩

/-- `int x, *p = 0, *v; do { v = p; p = &x; } while (..);` -/
def loopFn : Function where
  name := "main"
  params := 0
  blocks :=
    [[⟨"main", 0, .alloca (.ptr (.int 32))⟩, ⟨"main", 1, .alloca (.int 32)⟩,
      ⟨"main", 2, .store .null (.inst "main" 0)⟩, ⟨"main", 3, .other⟩],
     [⟨"main", 4, .load (.inst "main" 0)⟩,
      ⟨"main", 5, .store (.inst "main" 1) (.inst "main" 0)⟩, ⟨"main", 6, .other⟩],
     [⟨"main", 7, .ret (.constant 0)⟩]]
  sccs := [[2], [1], [0]]

def loopModule : Module := ⟨[], [loopFn], []⟩

def loopSucc : Nat → List Nat
  | 0 => [1]
  | 1 => [1, 2]
  | _ => []

def loopBody : Body loopModule where
  fn := loopFn
  succ := loopSucc
  mem := List.mem_singleton.mpr rfl
  ids := by decide
  order :=
    { nodup := by decide
      found := by
        intro front b back h
        have hlist : [0, 1, 2] = front ++ b :: back := h
        rcases front with _ | ⟨a, _ | ⟨a', _ | ⟨c, front⟩⟩⟩
        · obtain ⟨rfl, -⟩ := List.cons_eq_cons.mp hlist
          exact .inl rfl
        · simp only [List.cons_append, List.cons.injEq, List.nil_append] at hlist
          obtain ⟨rfl, rfl, -⟩ := hlist
          exact .inr ⟨0, by decide⟩
        · simp only [List.cons_append, List.cons.injEq, List.nil_append] at hlist
          obtain ⟨rfl, rfl, rfl, -⟩ := hlist
          exact .inr ⟨1, by decide⟩
        · have hlength := congrArg List.length hlist
          simp at hlength
      mem_root := by decide
      closed := by decide }
  noCall := by simp [loopFn]
  ssa := ssa_of_local fun n => match n with
    | 0 => rfl
    | 1 => rfl
    | 2 => rfl
    | _ + 3 => rfl

/-- At the second load `p` points to `x`. -/
theorem loop_run : ∃ log s, Run loopModule target64 emptyRt log s ∧ Along loopBody log ∧
    s.env (.inst "main" 4) = some ⟨⟨.inst "main" 1, 1⟩, 0, 0⟩ := by
  have h0 : Run loopModule target64 emptyRt [] emptyRt := .start
  have h1 := h0.step (.alloca (i := ⟨"main", 0, .alloca (.ptr (.int 32))⟩) rfl)
  have h2 := h1.step (.alloca (i := ⟨"main", 1, .alloca (.int 32)⟩) rfl)
  have h3 := h2.step (.store (i := ⟨"main", 2, .store .null (.inst "main" 0)⟩) rfl)
  have h4 := h3.step (.other (i := ⟨"main", 3, .other⟩) rfl)
  have h5 := h4.step (.load (i := ⟨"main", 4, .load (.inst "main" 0)⟩) rfl none
    fun _ h => nomatch h)
  have h6 := h5.step (.store (i := ⟨"main", 5, .store (.inst "main" 1) (.inst "main" 0)⟩) rfl)
  have h7 := h6.step (.other (i := ⟨"main", 6, .other⟩) rfl)
  have h8 := h7.step (.load (i := ⟨"main", 4, .load (.inst "main" 0)⟩) rfl
    (some ⟨⟨.inst "main" 1, 1⟩, 0, 0⟩) fun p hp => by
      obtain rfl := Option.some.inj hp
      refine ⟨rfl, fun a ha => ?_⟩
      obtain rfl : (⟨⟨.inst "main" 0, 0⟩, 0, 0⟩ : Ptr) = a := Option.some.inj ha
      exact ⟨0, by decide, _, rfl, rfl⟩)
  have hwalk : Walk loopSucc 0 ([] ++ [0] ++ [1] ++ [1]) :=
    .step (a := 1) (.step (a := 0) .root (by decide)) (by decide)
  exact ⟨_, _, h8, ⟨_, hwalk, ⟨_, rfl⟩⟩, rfl⟩

/-- The second iteration loads what the first has stored, but the visit of
the load comes before that of the store. -/
theorem back_edge_missed :
    ¬ ∀ (m : Module) (b : Body m) (target : Target) (s₀ s : Rt) (log : List Step),
      Start s₀ → Run m target s₀ log s → Along b log → ∀ fuel,
        ∃ gs, traversal m (fuel + 1) (initializeGS .empty m) b.fn = some gs ∧
          PointsTo m target gs s := by
  intro h
  obtain ⟨log, s, hrun, halong, hval⟩ := loop_run
  obtain ⟨gs, hgs, hpoints⟩ := h loopModule loopBody target64 emptyRt s log emptyRt_start hrun
    halong 0
  obtain ⟨t, ht, o, ho, hsite⟩ := hpoints (.inst "main" 4) _ rfl hval
  rw [loopBody.traversal_eq] at hgs
  obtain rfl := Option.some.inj hgs
  have hmiss : ∀ t ∈ (stateAfter loopModule (schedule loopFn)).tuplesOf (.inst "main" 4),
      ((stateAfter loopModule (schedule loopFn)).objects[t.ao]?.map AliasObject.val) ≠
        some (.inst "main" 1) := by
    decide +kernel
  exact hmiss t ht ((congrArg (Option.map AliasObject.val) ho).trans (congrArg some hsite))

end Nova

end Oat
