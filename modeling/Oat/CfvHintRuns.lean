import Oat.CfvErase

/-!
# What the hint passes tell of an execution

Over the three passes in their order. They insert hint calls and nothing
else (`erase_hintPasses`), and each right before the indirect call, the
indirect branch or the conditional branch it is about (`Announced`,
along a block and from any place in it that is not behind a hint). With
`CfvErase` this makes the hint calls of an execution the list of these
transfers in the execution of the module the passes were given.
-/

namespace Oat

namespace CfvHints

/-! ## What hints are about -/

/-- The value a hint passes on. -/
inductive Watched where
  | cond (v : Value)
  | ibranch (v : Value)
  | icall (v : Value)
deriving Repr, DecidableEq

/-- A hint without the ids of its place. -/
inductive Told where
  | cond (taken : Bool)
  | ibranch (target : BitVec 64)
  | icall (target : BitVec 64)
deriving Repr, DecidableEq

def Hint.told : Hint → Told
  | .cond taken => .cond taken
  | .ibranch _ _ target => .ibranch target
  | .icall _ _ target => .icall target

def Watched.told (env : Env) : Watched → Told
  | .cond v => .cond (env.taken v)
  | .ibranch v => .ibranch (env.ptrtoint v)
  | .icall v => .icall (env.ptrtoint v)

/-- What a hint call is about. -/
def Inst.watches : Inst → Option Watched
  | .collectCondBranchHints c => some (.cond c)
  | .collectIBranchHints _ _ v => some (.ibranch v)
  | .collectICallHints _ _ v => some (.icall v)
  | _ => none

/-- The passes that have been over a function; `CollectICallHints` goes
over the calls and over the invokes of a block. -/
structure Passes where
  ibranches : Bool
  icalls : Bool
  invokes : Bool
  conds : Bool
deriving Repr, DecidableEq

def Passes.none : Passes := ⟨false, false, false, false⟩

/-- All three, where `icalls` says whether `CollectICallHints` looks at
the function. -/
def Passes.all (icalls : Bool) : Passes := ⟨true, icalls, icalls, true⟩

def Callee.watched (looked : Bool) : Callee → Option Watched
  | .value v => if looked then some (.icall v) else none
  | _ => none

/-- What the passes put a hint in front of. -/
def Item.watched (p : Passes) : Item → Option Watched
  | .inst (.call callee) => callee.watched p.icalls
  | .term (.invoke callee _ _) => callee.watched p.invokes
  | .term (.indirectBr v _) => if p.ibranches then some (.ibranch v) else none
  | .term (.condBr v _ _) => if p.conds then some (.cond v) else none
  | _ => none

theorem watched_none (callee : Callee) : callee.watched false = none := by
  cases callee <;> rfl

theorem watched_inst {p p' : Passes} (h : p'.icalls = p.icalls) (i : Inst) :
    (Item.inst i).watched p' = (Item.inst i).watched p := by
  cases i with
  | call callee => exact congrArg callee.watched h
  | _ => rfl

theorem hints_told (env : Env) (i : Inst) :
    (i.hints env).map Hint.told = (i.watches.map (Watched.told env)).toList := by
  cases i <;> rfl

theorem isHint_eq (i : Inst) : i.isHint = i.watches.isSome := by
  cases i <;> rfl

/-- The hints of a block, each in front of what it is about. -/
inductive Announced (p : Passes) (t : Terminator) : List Inst → Prop where
  | term {hs : List Inst}
      (h : hs.map Inst.watches = ((Item.term t).watched p).toList.map some) : Announced p t hs
  | inst {hs : List Inst} {i : Inst} {is : List Inst} (hi : i.isHint = false)
      (h : hs.map Inst.watches = ((Item.inst i).watched p).toList.map some)
      (rest : Announced p t is) : Announced p t (hs ++ i :: is)

/-- All of these are hints. -/
theorem isHint_of_watches {hs : List Inst} {o : Option Watched}
    (h : hs.map Inst.watches = o.toList.map some) : ∀ i ∈ hs, i.isHint = true := by
  intro i hi
  have hmem : i.watches ∈ o.toList.map some := h ▸ List.mem_map_of_mem hi
  obtain ⟨w, -, hw⟩ := List.mem_map.mp hmem
  rw [isHint_eq, ← hw]
  rfl

theorem nil_of_watches {hs : List Inst} {o : Option Watched}
    (h : hs.map Inst.watches = o.toList.map some) (ho : o = none) : hs = [] := by
  rw [ho] at h
  exact List.map_eq_nil_iff.mp h

/-- Hints alone do not end with an instruction that is none. -/
theorem prefix_of_hints {hs pre todo : List Inst} (hhs : ∀ i ∈ hs, i.isHint = true)
    (hpre : ∀ i ∈ pre.getLast?, i.isHint = false) (h : hs = pre ++ todo) : pre = [] := by
  rcases List.eq_nil_or_concat pre with rfl | ⟨pre', i, rfl⟩
  · rfl
  · have hhint := hhs i (by simp [h])
    have hnot := hpre i (by simp)
    rw [hhint] at hnot
    cases hnot

/-- What is left of a block behind an instruction that is no hint. -/
theorem Announced.split {p : Passes} {t : Terminator} {is : List Inst}
    (h : Announced p t is) {pre todo : List Inst} (his : is = pre ++ todo)
    (hpre : ∀ i ∈ pre.getLast?, i.isHint = false) : Announced p t todo := by
  induction h generalizing pre with
  | term hhs =>
      obtain rfl := prefix_of_hints (isHint_of_watches hhs) hpre his
      obtain rfl : _ = todo := his
      exact .term hhs
  | @inst hs i is hi hhs rest ih =>
      rcases List.append_eq_append_iff.mp his with ⟨mid, hmid, htodo⟩ | ⟨mid, hmid, htodo⟩
      · cases mid with
        | nil =>
            -- the place is right behind the hints
            obtain rfl : pre = hs := by simpa using hmid
            obtain rfl : i :: is = todo := htodo
            obtain rfl := prefix_of_hints (isHint_of_watches hhs) hpre
              (List.append_nil pre).symm
            show Announced p t ([] ++ i :: is)
            exact .inst hi hhs rest
        | cons j mid =>
            obtain ⟨rfl, his⟩ := List.cons.inj htodo
            refine ih his fun k hk => hpre k ?_
            obtain ⟨mid', rfl⟩ := List.getLast?_eq_some_iff.mp hk
            exact List.getLast?_eq_some_iff.mpr ⟨hs ++ i :: mid', by simp [hmid]⟩
      · obtain rfl := prefix_of_hints (isHint_of_watches hhs) hpre hmid
        obtain rfl : mid = hs := hmid.symm
        rw [htodo]
        exact .inst hi hhs rest

/-! ## The passes insert hints in front -/

/-- A block that has been gone over. -/
def Block.Announced (p : Passes) (b : Block) : Prop := CfvHints.Announced p b.term b.insts

/-- Another pass that leaves the block as it is. -/
theorem Announced.congr {p p' : Passes} {t : Terminator} {is : List Inst} (h : Announced p t is)
    (hterm : (Item.term t).watched p' = (Item.term t).watched p)
    (hinst : ∀ i, (Item.inst i).watched p' = (Item.inst i).watched p) : Announced p' t is := by
  induction h with
  | term hhs => exact .term (by rw [hterm]; exact hhs)
  | inst hi hhs _ ih => exact .inst hi (by rw [hinst]; exact hhs) ih

/-- A pass that looks at terminators inserts a hint at the end. -/
theorem Announced.insertBeforeTerm {p p' : Passes} {t : Terminator} {is : List Inst}
    (h : Announced p t is) {hint : Inst} {w : Watched} (hw : hint.watches = some w)
    (hnone : (Item.term t).watched p = none) (hterm : (Item.term t).watched p' = some w)
    (hinst : ∀ i, (Item.inst i).watched p' = (Item.inst i).watched p) :
    Announced p' t (is ++ [hint]) := by
  induction h with
  | term hhs =>
      obtain rfl := nil_of_watches hhs hnone
      exact .term (by rw [hterm, List.nil_append, List.map_singleton, hw]; rfl)
  | @inst hs i is hi hhs _ ih =>
      rw [List.append_assoc]
      exact .inst hi (by rw [hinst]; exact hhs) ih

theorem instrumentIBranches_announced {p : Passes} (hp : p.ibranches = false) (fid : Nat)
    (bs : List Block) (count : Nat) (h : ∀ b ∈ bs, Block.Announced p b) :
    ∀ b ∈ instrumentIBranches fid count bs,
      Block.Announced { p with ibranches := true } b := by
  induction bs generalizing count with
  | nil =>
      intro b hb
      cases hb
  | cons b₀ bs ih =>
      have hb₀ := h b₀ (List.mem_cons_self ..)
      have hrest : ∀ count, ∀ b ∈ instrumentIBranches fid count bs, _ :=
        fun count => ih count fun b hb => h b (List.mem_cons_of_mem _ hb)
      intro b hb
      unfold instrumentIBranches at hb
      split at hb
      · rename_i address dests hterm
        rcases List.mem_cons.mp hb with rfl | hb
        · have hnone : (Item.term b₀.term).watched p = none := by simp [hterm, Item.watched, hp]
          exact hb₀.insertBeforeTerm rfl hnone (by rw [hterm]; rfl) (watched_inst rfl)
        · exact hrest _ b hb
      · rename_i hne
        rcases List.mem_cons.mp hb with rfl | hb
        · refine hb₀.congr ?_ (watched_inst rfl)
          cases hterm : b.term with
          | indirectBr address dests => exact absurd hterm (hne address dests)
          | _ => rfl
        · exact hrest _ b hb

theorem instrumentICalls_hints (fid : Nat) {hs : List Inst} (hhs : ∀ i ∈ hs, i.isHint = true)
    (is : List Inst) (count : Nat) :
    (instrumentICalls fid count (hs ++ is)).1 = hs ++ (instrumentICalls fid count is).1 := by
  induction hs with
  | nil => rfl
  | cons i hs ih =>
      have hi := hhs i (List.mem_cons_self ..)
      have hrest := ih fun j hj => hhs j (List.mem_cons_of_mem _ hj)
      cases i with
      | call callee => cases hi
      | other opcode => cases hi
      | _ => exact congrArg (List.cons _) hrest

theorem instrumentICalls_announced {p : Passes} (hp : p.icalls = false) (fid : Nat)
    {t : Terminator} {is : List Inst} (h : Announced p t is) (count : Nat) :
    Announced { p with icalls := true } t (instrumentICalls fid count is).1 := by
  induction h generalizing count with
  | @term hs hhs =>
      have hsame := instrumentICalls_hints fid (isHint_of_watches hhs) [] count
      rw [List.append_nil] at hsame
      rw [hsame]
      refine .term ?_
      rw [instrumentICalls, List.append_nil, hhs]
      cases t <;> rfl
  | @inst hs i is hi hhs _ ih =>
      rw [instrumentICalls_hints fid (isHint_of_watches hhs)]
      unfold instrumentICalls
      split
      · rename_i v
        have hnone : (Item.inst (.call (.value v))).watched p = none := by
          simp [Item.watched, hp, watched_none]
        obtain rfl := nil_of_watches hhs hnone
        show Announced _ t ([Inst.collectICallHints fid count v] ++ .call (.value v) :: _)
        exact .inst rfl rfl (ih (count + 1))
      · rename_i hne
        refine .inst hi ?_ (ih count)
        rw [hhs]
        cases i with
        | call callee =>
            cases callee with
            | value v => exact absurd rfl (hne v)
            | _ => rfl
        | _ => rfl

theorem instrumentInvoke_announced {p : Passes} (hp : p.invokes = false) (fid count : Nat)
    {b : Block} (h : Block.Announced p b) :
    Block.Announced { p with invokes := true } (instrumentInvoke fid count b).1 := by
  unfold instrumentInvoke
  split
  · rename_i v normal unwind hterm
    have hnone : (Item.term b.term).watched p = none := by
      simp [hterm, Item.watched, hp, watched_none]
    exact Announced.insertBeforeTerm h rfl hnone (by rw [hterm]; rfl) (watched_inst rfl)
  · rename_i hne
    refine Announced.congr h ?_ (watched_inst rfl)
    cases hterm : b.term with
    | invoke callee normal unwind =>
        cases callee with
        | value v => exact absurd hterm (hne v normal unwind)
        | _ => rfl
    | _ => rfl

theorem processBlocks_announced {p : Passes} (hcalls : p.icalls = false)
    (hinvokes : p.invokes = false) (fid : Nat) (bs : List Block) (count : Nat)
    (h : ∀ b ∈ bs, Block.Announced p b) :
    ∀ b ∈ processBlocks fid count bs,
      Block.Announced { p with icalls := true, invokes := true } b := by
  induction bs generalizing count with
  | nil =>
      intro b hb
      cases hb
  | cons b₀ bs ih =>
      intro b hb
      rcases List.mem_cons.mp hb with rfl | hb
      · have hblock : Block.Announced { p with icalls := true }
            { b₀ with insts := (instrumentICalls fid count b₀.insts).1 } :=
          instrumentICalls_announced hcalls fid (h b₀ (List.mem_cons_self ..)) count
        exact instrumentInvoke_announced (p := ⟨_, true, _, _⟩) hinvokes fid _ hblock
      · exact ih _ (fun b hb => h b (List.mem_cons_of_mem _ hb)) b hb

theorem instrumentCondBranch_announced {p : Passes} (hp : p.conds = false) {b : Block}
    (h : Block.Announced p b) :
    Block.Announced { p with conds := true } (instrumentCondBranch b) := by
  unfold instrumentCondBranch
  split
  · rename_i cond ifTrue ifFalse hterm
    have hnone : (Item.term b.term).watched p = none := by simp [hterm, Item.watched, hp]
    exact Announced.insertBeforeTerm h rfl hnone (by rw [hterm]; rfl) (watched_inst rfl)
  · rename_i hne
    refine Announced.congr h ?_ (watched_inst rfl)
    cases hterm : b.term with
    | condBr cond ifTrue ifFalse => exact absurd hterm (hne cond ifTrue ifFalse)
    | _ => rfl

/-- A module that makes no hint calls of its own. -/
structure HintFree where
  module : Module
  noHint : ∀ f ∈ module, ∀ b ∈ f.blocks, ∀ i ∈ b.insts, i.isHint = false

theorem announced_none {t : Terminator} {is : List Inst} (h : ∀ i ∈ is, i.isHint = false) :
    Announced Passes.none t is := by
  have hterm : (Item.term t).watched Passes.none = none := by
    cases t with
    | invoke callee normal unwind => exact watched_none callee
    | _ => rfl
  have hinst : ∀ i, (Item.inst i).watched Passes.none = none := by
    intro i
    cases i with
    | call callee => exact watched_none callee
    | _ => rfl
  induction is with
  | nil => exact .term (by rw [hterm]; rfl)
  | cons i is ih =>
      have hi := h i (List.mem_cons_self ..)
      show Announced Passes.none t ([] ++ i :: is)
      exact .inst hi (by rw [hinst]; rfl) (ih fun j hj => h j (List.mem_cons_of_mem _ hj))

theorem collectIBranchHints_announced (m : FunctionMap) {f : Function}
    (h : ∀ b ∈ f.blocks, Block.Announced Passes.none b) :
    ∀ b ∈ (collectIBranchHints m f).1.blocks,
      Block.Announced { Passes.none with ibranches := true } b := by
  unfold collectIBranchHints
  split
  · rename_i hempty
    intro b hb
    rw [List.isEmpty_iff.mp hempty] at hb
    cases hb
  · exact instrumentIBranches_announced rfl _ _ _ h

theorem collectICallHints_announced (m : FunctionMap) {f : Function}
    (h : ∀ b ∈ f.blocks, Block.Announced { Passes.none with ibranches := true } b) :
    ∀ b ∈ (collectICallHints m f).1.blocks,
      Block.Announced ⟨true, !(collectICallHints m f).1.optimizeNone,
        !(collectICallHints m f).1.optimizeNone, false⟩ b := by
  unfold collectICallHints
  split
  · rename_i hempty
    intro b hb
    rw [List.isEmpty_iff.mp hempty] at hb
    cases hb
  · split
    · rename_i hnone
      rw [hnone]
      exact h
    · rename_i hnone
      rw [Bool.not_eq_true] at hnone
      simp only [hnone]
      exact processBlocks_announced rfl rfl _ _ _ h

/-- Whatever has to be told is told, and nothing else. -/
theorem hintPasses_announced (p : HintFree) {f : Function} (hf : f ∈ hintPasses p.module) :
    ∀ b ∈ f.blocks, Block.Announced (.all (!f.optimizeNone)) b := by
  obtain ⟨f₂, hf₂, rfl⟩ := List.mem_map.mp hf
  obtain ⟨m₂, f₁, hf₁, rfl⟩ := mem_runOnFunctions hf₂
  obtain ⟨m₁, f₀, hf₀, rfl⟩ := mem_runOnFunctions hf₁
  intro b hb
  obtain ⟨b₂, hb₂, rfl⟩ := List.mem_map.mp hb
  have h₀ : ∀ b ∈ f₀.blocks, Block.Announced Passes.none b :=
    fun b hb => announced_none (p.noHint f₀ hf₀ b hb)
  have h₂ := collectICallHints_announced m₂ (collectIBranchHints_announced m₁ h₀) b₂ hb₂
  exact instrumentCondBranch_announced rfl h₂

theorem hintPasses_block?_announced (p : HintFree) {fn : String} {b : Nat} {block : Block}
    (h : Module.block? (hintPasses p.module) fn b = some block) :
    Block.Announced (.all (Module.hintsICalls (hintPasses p.module) fn)) block := by
  obtain ⟨f, hf, hb⟩ := Option.bind_eq_some_iff.mp h
  have hh := hintPasses_announced p (List.mem_of_find?_eq_some hf) block
    (List.mem_of_getElem? hb)
  simpa [Module.hintsICalls, hf] using hh

/-! ## The passes insert nothing else -/

theorem erase_insertBeforeTerm (b : Block) {hint : Inst} (h : hint.isHint = true) :
    (b.insertBeforeTerm hint).erase = b.erase := by
  have hdrop : dropHints (b.insts ++ [hint]) = dropHints b.insts := by
    rw [dropHints_append, dropHints_cons_hint h]
    exact List.append_nil _
  exact congrArg (Block.mk · b.term) hdrop

theorem erase_instrumentIBranches (fid : Nat) (bs : List Block) (count : Nat) :
    (instrumentIBranches fid count bs).map Block.erase = bs.map Block.erase := by
  induction bs generalizing count with
  | nil => rfl
  | cons b bs ih =>
      unfold instrumentIBranches
      split
      · rw [List.map_cons, List.map_cons, erase_insertBeforeTerm _ rfl, ih]
      · rw [List.map_cons, List.map_cons, ih]

theorem dropHints_instrumentICalls (fid : Nat) (is : List Inst) (count : Nat) :
    dropHints (instrumentICalls fid count is).1 = dropHints is := by
  induction is generalizing count with
  | nil => rfl
  | cons i is ih =>
      unfold instrumentICalls
      split
      · rw [dropHints_cons_hint rfl, dropHints_cons rfl, dropHints_cons rfl, ih]
      · cases hi : i.isHint with
        | true => rw [dropHints_cons_hint hi, dropHints_cons_hint hi, ih]
        | false => rw [dropHints_cons hi, dropHints_cons hi, ih]

theorem erase_instrumentInvoke (fid count : Nat) (b : Block) :
    (instrumentInvoke fid count b).1.erase = b.erase := by
  unfold instrumentInvoke
  split
  · exact erase_insertBeforeTerm b rfl
  · rfl

theorem erase_processBlocks (fid : Nat) (bs : List Block) (count : Nat) :
    (processBlocks fid count bs).map Block.erase = bs.map Block.erase := by
  induction bs generalizing count with
  | nil => rfl
  | cons b bs ih =>
      have hcalls : (Block.mk (instrumentICalls fid count b.insts).1 b.term).erase = b.erase :=
        congrArg (Block.mk · b.term) (dropHints_instrumentICalls fid b.insts count)
      unfold processBlocks
      rw [List.map_cons, List.map_cons, erase_instrumentInvoke, hcalls, ih]

theorem erase_instrumentCondBranch (b : Block) : (instrumentCondBranch b).erase = b.erase := by
  unfold instrumentCondBranch
  split
  · exact erase_insertBeforeTerm b rfl
  · rfl

theorem erase_collectIBranchHints (m : FunctionMap) (f : Function) :
    (collectIBranchHints m f).1.erase = f.erase := by
  unfold collectIBranchHints
  split
  · rfl
  · exact congrArg (Function.mk f.name f.optimizeNone) (erase_instrumentIBranches _ _ _)

theorem erase_collectICallHints (m : FunctionMap) (f : Function) :
    (collectICallHints m f).1.erase = f.erase := by
  unfold collectICallHints
  split
  · rfl
  · split
    · rfl
    · exact congrArg (Function.mk f.name f.optimizeNone) (erase_processBlocks _ _ _)

theorem erase_runOnFunctions {run : FunctionMap → Function → Function × FunctionMap}
    (hrun : ∀ m f, (run m f).1.erase = f.erase) (fs : Module) (m : FunctionMap) :
    Module.erase (runOnFunctions run m fs) = Module.erase fs := by
  induction fs generalizing m with
  | nil => rfl
  | cons f fs ih => exact congrArg₂ List.cons (hrun m f) (ih _)

theorem erase_collectCondBranchHints (m : Module) :
    Module.erase (m.map collectCondBranchHints) = Module.erase m := by
  unfold Module.erase
  rw [List.map_map]
  refine List.map_congr_left fun f _ => ?_
  refine congrArg (Function.mk f.name f.optimizeNone) ?_
  rw [collectCondBranchHints, List.map_map]
  exact List.map_congr_left fun b _ => erase_instrumentCondBranch b

theorem HintFree.erase_module (p : HintFree) : Module.erase p.module = p.module := by
  have hdrop : ∀ f ∈ p.module, ∀ b ∈ f.blocks, b.erase = b := by
    intro f hf b hb
    refine congrArg (Block.mk · b.term) (List.filter_eq_self.mpr fun i hi => ?_)
    rw [p.noHint f hf b hb i hi]
    rfl
  refine (List.map_congr_left fun f hf => ?_).trans (List.map_id p.module)
  refine congrArg (Function.mk f.name f.optimizeNone) ?_
  exact (List.map_congr_left (hdrop f hf)).trans (List.map_id f.blocks)

theorem erase_hintPasses (p : HintFree) : Module.erase (hintPasses p.module) = p.module := by
  rw [hintPasses, erase_collectCondBranchHints, erase_runOnFunctions erase_collectICallHints,
    erase_runOnFunctions erase_collectIBranchHints, p.erase_module]

theorem hintsICalls_hintPasses (p : HintFree) (fn : String) :
    Module.hintsICalls (hintPasses p.module) fn = Module.hintsICalls p.module fn := by
  have herase : ∀ m : Module, Module.hintsICalls (Module.erase m) fn = Module.hintsICalls m fn := by
    intro m
    unfold Module.hintsICalls Module.erase
    rw [List.find?_map]
    show ((m.find? fun f => f.name = fn).map Function.erase).any _ = _
    cases m.find? fun f => f.name = fn <;> rfl
  rw [← herase (hintPasses p.module), erase_hintPasses]

/-! ## The two executions -/

def Frame.next (fr : Frame) : Item :=
  match fr.pos.todo with
  | [] => .term fr.pos.term
  | i :: _ => .inst i

section Told

variable {M : Type}

/-- The hint call that is next, with the place it is about and what it
tells. -/
def hintCalls (m : Module) (s : State M) : List (Site × Told) :=
  match s.stack with
  | [] => []
  | fr :: _ =>
      match fr.next with
      | .inst i => (i.hints fr.env).map fun h => (Module.unhinted m fr.site, h.told)
      | .term _ => []

/-- The transfer that is next, if it is one to tell of. -/
def transfers (m : Module) (s : State M) : List (Site × Told) :=
  match s.stack with
  | [] => []
  | fr :: _ =>
      ((fr.next.watched (.all (Module.hintsICalls m fr.pos.fn))).map fun w =>
        (fr.site, w.told fr.env)).toList

/-- What is next in the erased code, with the hints that stand before it. -/
theorem Announced.next {p : Passes} {fr : Frame} (h : Announced p fr.pos.term fr.pos.todo) :
    ∃ hs rest, fr.pos.todo = hs ++ rest
      ∧ hs.map Inst.watches = (fr.erase.next.watched p).toList.map some
      ∧ ∀ i ∈ rest.head?, i.isHint = false := by
  have hdrop : ∀ hs : List Inst, (∀ i ∈ hs, i.isHint = true) → dropHints hs = [] := by
    intro hs hhs
    refine List.filter_eq_nil_iff.mpr fun i hi => ?_
    rw [hhs i hi]
    exact Bool.false_ne_true
  obtain ⟨⟨fn, block, past, todo, t⟩, env⟩ := fr
  dsimp only at h
  cases h with
  | term hhs =>
      refine ⟨todo, [], (List.append_nil todo).symm, ?_, fun i hi => by cases hi⟩
      have hnext : (Frame.erase ⟨⟨fn, block, past, todo, t⟩, env⟩).next = .term t := by
        unfold Frame.next Frame.erase
        dsimp only
        rw [hdrop todo (isHint_of_watches hhs)]
      rw [hnext]
      exact hhs
  | @inst hs i is hi hhs rest =>
      refine ⟨hs, i :: is, rfl, ?_, fun j hj => ?_⟩
      · have hnext : (Frame.erase ⟨⟨fn, block, past, hs ++ i :: is, t⟩, env⟩).next = .inst i := by
          unfold Frame.next Frame.erase
          dsimp only
          rw [dropHints_append, hdrop hs (isHint_of_watches hhs), dropHints_cons hi]
          rfl
        rw [hnext]
        exact hhs
      · obtain rfl : i = j := Option.some.inj hj
        exact hi

/-- The frame is at the hint for what is next behind it. -/
structure Telling (watched : Option Watched) (fr : Frame) (hint : Inst) (w : Watched)
    (rest : List Inst) : Prop where
  todo : fr.pos.todo = hint :: rest
  about : hint.watches = some w
  next : watched = some w
  last : ∀ i ∈ rest.head?, i.isHint = false

variable (p : HintFree)

/-- What is to be told of the next item of a frame. -/
def HintFree.due (fr : Frame) : Option Watched :=
  fr.next.watched (.all (Module.hintsICalls p.module fr.pos.fn))

/-- A frame behind no hint has either nothing to tell, or is at the hint
for what is next. -/
theorem due_cases {fr : Frame} {stack : Config}
    (h : SteadyFresh (hintPasses p.module) (fr :: stack)) :
    (Settled fr ∧ p.due fr.erase = none)
      ∨ ∃ hint w rest, Telling (p.due fr.erase) fr hint w rest := by
  obtain ⟨⟨hplaced, -⟩, hfresh⟩ := h
  have hblock := hintPasses_block?_announced p hplaced
  rw [hintsICalls_hintPasses] at hblock
  have htodo : Announced (.all (Module.hintsICalls p.module fr.pos.fn)) fr.pos.term fr.pos.todo := by
    refine Announced.split hblock rfl fun i hi => hfresh fr rfl i ?_
    rwa [List.getLast?_reverse] at hi
  obtain ⟨hs, rest, hsplit, hwatches, hrest⟩ := htodo.next
  have hdue : p.due fr.erase
      = fr.erase.next.watched (.all (Module.hintsICalls p.module fr.pos.fn)) := rfl
  rw [← hdue] at hwatches
  cases hw : p.due fr.erase with
  | none =>
      left
      obtain rfl := nil_of_watches hwatches hw
      refine ⟨fun i hi => hrest i ?_, rfl⟩
      rwa [hsplit] at hi
  | some w =>
      right
      rw [hw] at hwatches
      obtain ⟨hint, hs', rfl, hhint, hnil⟩ := List.map_eq_cons_iff.mp hwatches
      obtain rfl := List.map_eq_nil_iff.mp hnil
      exact ⟨hint, w, rest, hsplit, hhint, rfl, hrest⟩

variable (img : Image) (sem : Sem M) (fn : String) (env : Env) (mem : M)

/-- The instructions do what they did before the passes. -/
def HintFree.instrumented : Nat → State M :=
  execution (hintPasses p.module) img (sem.along (Module.unhinted (hintPasses p.module))) fn env mem

/-- The stuttering simulation, for whatever is seen of the two executions. -/
theorem sameSequence_erase {α : Type} {out₁ out₂ : State M → List α}
    (hover : ∀ mem, out₂ ⟨[], mem⟩ = out₁ ⟨[], mem⟩)
    (hstep : ∀ fr stack mem, SteadyFresh (hintPasses p.module) (fr :: stack) → Settled fr →
      p.due fr.erase = none → out₂ ⟨fr :: stack, mem⟩ = out₁ (State.erase ⟨fr :: stack, mem⟩))
    (hhint : ∀ fr stack mem hint w rest, SteadyFresh (hintPasses p.module) (fr :: stack) →
      Telling (p.due fr.erase) fr hint w rest →
      out₂ ⟨fr :: stack, mem⟩ ++ out₂ ⟨⟨fr.pos.advance hint rest, fr.env⟩ :: stack, mem⟩
        = out₁ (State.erase ⟨fr :: stack, mem⟩)) :
    SameSequence (fun n => out₁ (execution p.module img sem fn env mem n))
      (fun n => out₂ (p.instrumented img sem fn env mem n)) := by
  have hexec : ∀ s : State M, ¬ AtHint s → Steady (hintPasses p.module) s.stack →
      exec p.module img sem s.erase = (exec (hintPasses p.module) img
        (sem.along (Module.unhinted (hintPasses p.module))) s).erase := by
    intro s hs h
    rw [← exec_erase hs h, erase_hintPasses]
  apply SameSequence.of_stutter
    (R := fun s s' => s = s'.erase ∧ SteadyFresh (hintPasses p.module) s'.stack)
  · refine ⟨?_, enter_steady _ _ _ (by simp), enter_fresh _ _ _ _⟩
    have henter := enter_erase (hintPasses p.module) env fn 0 []
    rw [erase_hintPasses] at henter
    exact congrArg (State.mk · mem) henter
  · rintro _ ⟨stack, mem⟩ ⟨rfl, hfresh⟩
    rcases stack with _ | ⟨fr, stack⟩
    · refine ⟨0, ⟨rfl, hfresh⟩, ?_⟩
      show out₂ ⟨[], mem⟩ ++ [] = out₁ ⟨[], mem⟩
      rw [List.append_nil, hover]
    · obtain ⟨hsettled, hnone⟩ | ⟨hint, w, rest, htell⟩ := due_cases p hfresh
      · have hs : ¬ AtHint (⟨fr :: stack, mem⟩ : State M) := by
          rintro ⟨_, _, i, _, heq, htodo, hi⟩
          obtain ⟨rfl, rfl⟩ := List.cons.inj heq
          rw [hsettled i (by rw [htodo]; rfl)] at hi
          cases hi
        refine ⟨0, ⟨hexec _ hs hfresh.1, exec_steadyFresh hs hfresh.1⟩, ?_⟩
        show out₂ ⟨fr :: stack, mem⟩ ++ [] = _
        rw [List.append_nil]
        exact hstep fr stack mem hfresh hsettled hnone
      · -- the hint call, and then the step it is about
        have hi : hint.isHint = true := by rw [isHint_eq, htell.about]; rfl
        have hcall : exec (hintPasses p.module) img
            (sem.along (Module.unhinted (hintPasses p.module))) ⟨fr :: stack, mem⟩
              = ⟨⟨fr.pos.advance hint rest, fr.env⟩ :: stack, mem⟩ :=
          exec_hint mem htell.todo hi
        have herase : State.erase ⟨⟨fr.pos.advance hint rest, fr.env⟩ :: stack, mem⟩
            = State.erase ⟨fr :: stack, mem⟩ :=
          congrArg (fun fr' => State.mk (fr' :: stack.map Frame.erase) mem)
            (erase_advance htell.todo hi)
        have hsteady := advance_steady hfresh.1 htell.todo fr.env
        have hs : ¬ AtHint (⟨⟨fr.pos.advance hint rest, fr.env⟩ :: stack, mem⟩ : State M) := by
          rintro ⟨_, _, i, _, heq, htodo, hi⟩
          obtain ⟨rfl, rfl⟩ := List.cons.inj heq
          have hrest : rest = i :: _ := htodo
          rw [htell.last i (by rw [hrest]; rfl)] at hi
          cases hi
        refine ⟨1, ⟨?_, ?_⟩, ?_⟩
        · rw [← herase, hexec _ hs hsteady, ← hcall]
          rfl
        · have hnext : SteadyFresh (hintPasses p.module) (exec (hintPasses p.module) img
              (sem.along (Module.unhinted (hintPasses p.module)))
              ⟨⟨fr.pos.advance hint rest, fr.env⟩ :: stack, mem⟩).stack :=
            exec_steadyFresh hs hsteady
          rw [← hcall] at hnext
          exact hnext
        · rw [← hhint fr stack mem hint w rest hfresh htell, ← hcall]
          simp [outUpTo, List.range_succ]

theorem hintCalls_hint {m : Module} {fr : Frame} {stack : Config} {mem : M} {hint : Inst}
    {w : Watched} {rest : List Inst} (htodo : fr.pos.todo = hint :: rest)
    (hw : hint.watches = some w) :
    hintCalls m ⟨fr :: stack, mem⟩ = [(Module.unhinted m fr.site, w.told fr.env)] := by
  have hnext : fr.next = .inst hint := by
    unfold Frame.next
    rw [htodo]
  have htold : (hint.hints fr.env).map Hint.told = [w.told fr.env] := by
    rw [hints_told, hw]
    rfl
  have hpair : (hint.hints fr.env).map (fun h => (Module.unhinted m fr.site, h.told))
      = ((hint.hints fr.env).map Hint.told).map (Prod.mk (Module.unhinted m fr.site)) := by
    rw [List.map_map]
    rfl
  unfold hintCalls
  dsimp only
  rw [hnext]
  dsimp only
  rw [hpair, htold]
  rfl

theorem hintCalls_settled {m : Module} {fr : Frame} {stack : Config} {mem : M}
    (hs : Settled fr) : hintCalls m ⟨fr :: stack, mem⟩ = [] := by
  unfold hintCalls Frame.next
  dsimp only
  rcases htodo : fr.pos.todo with _ | ⟨i, rest⟩
  · rfl
  · have hi := hs i (by rw [htodo]; rfl)
    cases i with
    | call callee => rfl
    | other opcode => rfl
    | _ => cases hi

theorem transfers_erase (fr : Frame) (stack : Config) (mem : M) :
    transfers p.module (State.erase ⟨fr :: stack, mem⟩)
      = ((p.due fr.erase).map fun w => (fr.erase.site, w.told fr.env)).toList :=
  rfl

/-- Behind no hint, the start of a block is the start of the erased block. -/
theorem seen_erase {fr : Frame} {stack : Config} {mem : M} (h : Fresh (fr :: stack)) :
    seen (⟨fr :: stack, mem⟩ : State M) = seen (State.erase ⟨fr :: stack, mem⟩) := by
  have hpast : fr.erase.pos.past = [] ↔ fr.pos.past = [] := by
    show dropHints fr.pos.past = [] ↔ _
    rcases hp : fr.pos.past with _ | ⟨i, past⟩
    · exact Iff.rfl
    · rw [dropHints_cons (h fr rfl i (by rw [hp]; rfl))]
      simp
  show (if fr.pos.past = [] then _ else _) = if fr.erase.pos.past = [] then _ else _
  simp only [hpast]
  rfl

/-- Over the passes, an execution makes a hint call right for each
indirect call in a function `CollectICallHints` looks at, each indirect
branch and each conditional branch of the execution without them, in
order, at the place and with the target or the outcome of that transfer.
The blocks that start do so with the same values and memory, and the
execution ends with the same memory if it ends. -/
theorem hints_are_transfers :
    SameSequence (fun n => hintCalls (hintPasses p.module) (p.instrumented img sem fn env mem n))
      (fun n => transfers p.module (execution p.module img sem fn env mem n))
    ∧ SameSequence (fun n => seen (p.instrumented img sem fn env mem n))
      (fun n => seen (execution p.module img sem fn env mem n)) := by
  have hhints : SameSequence
      (fun n => transfers p.module (execution p.module img sem fn env mem n))
      (fun n => hintCalls (hintPasses p.module) (p.instrumented img sem fn env mem n)) := by
    apply sameSequence_erase p img sem fn env mem
    · exact fun _ => rfl
    · intro fr stack mem _ hs hnone
      rw [hintCalls_settled hs, transfers_erase, hnone]
      rfl
    · intro fr stack mem hint w rest hfresh htell
      have hrest : Settled ⟨fr.pos.advance hint rest, fr.env⟩ := htell.last
      rw [hintCalls_hint htell.todo htell.about, hintCalls_settled hrest, transfers_erase,
        htell.next, site_unhinted hfresh.1.1]
      rfl
  have hseen : SameSequence (fun n => seen (execution p.module img sem fn env mem n))
      (fun n => seen (p.instrumented img sem fn env mem n)) := by
    apply sameSequence_erase p img sem fn env mem
    · exact fun _ => rfl
    · intro fr stack mem hfresh _ _
      exact seen_erase hfresh.2
    · intro fr stack mem hint w rest hfresh htell
      have hnone : seen (⟨⟨fr.pos.advance hint rest, fr.env⟩ :: stack, mem⟩ : State M) = [] := rfl
      rw [hnone, List.append_nil]
      exact seen_erase hfresh.2
  exact ⟨hhints.symm, hseen.symm⟩

end Told

/-- The module of a handler and a branch makes no hint calls itself. -/
def plainDispatch : HintFree := ⟨dispatch, by decide⟩

/-- The handler is called, and the branch taken. -/
def dispatchEnv : Env := fun v => if v = 3 then 64 else 1

/-- The execution of the module with the hints. -/
def dispatchRun : Nat → State Nat :=
  plainDispatch.instrumented dispatchImage countdownSem "dispatch" dispatchEnv 2

/-- It tells of the call and of the branch. -/
theorem hints_are_transfers_dispatch :
    (List.range 8).flatMap (fun n => hintCalls (hintPasses dispatch) (dispatchRun n)) =
      [(⟨"dispatch", 0, 0⟩, .icall 64), (⟨"dispatch", 0, 1⟩, .cond true)] ∧
    SameSequence (fun n => hintCalls (hintPasses dispatch) (dispatchRun n)) (fun n => transfers
      dispatch (execution dispatch dispatchImage countdownSem "dispatch" dispatchEnv 2 n)) :=
  ⟨rfl, (hints_are_transfers plainDispatch dispatchImage countdownSem "dispatch" dispatchEnv 2).1⟩

end CfvHints

end Oat
