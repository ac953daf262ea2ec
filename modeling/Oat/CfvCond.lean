import Oat.CfvHints
import Oat.InsertLoop

/-!
# Conditional hints and executed branches

Executions of LLVM functions with the values they compute. What an
instruction does to the values of its frame and to the memory is a
parameter (`Sem`), so that nothing is assumed of it; control flow, calls,
returns and exceptions are those of `CfvHints`. A hook does nothing to
the program.

The function that `CollectCondBranchHints` leaves is the original with a
hook after the instructions of each block that ends in a conditional
branch. `Config.lift` puts these hooks into a configuration, and a step
of the original is a step of the result, or two where the hook is called
(`exec_lift`).
-/

namespace Oat

namespace CfvHints

/-! ## The loops of the pass -/

/-- What the inner loop goes over. -/
inductive Item where
  | inst (i : Inst)
  | term (t : Terminator)
deriving Repr, DecidableEq

def Block.items (b : Block) : List Item := b.insts.map .inst ++ [.term b.term]

/-- The body of the inner loop: `instrumentCondBranch` on a conditional branch. -/
def visitItem : Item → Option (List Item)
  | .term (.condBr cond _ _) => some [.inst (.collectCondBranchHints cond)]
  | _ => none

/-- The hook that a block gets. -/
def Terminator.hook : Terminator → List Inst
  | .condBr cond _ _ => [.collectCondBranchHints cond]
  | _ => []

theorem instrumentCondBranch_eq (b : Block) :
    instrumentCondBranch b = { b with insts := b.insts ++ b.term.hook } := by
  obtain ⟨insts, term⟩ := b
  cases term <;> simp [instrumentCondBranch, Block.insertBeforeTerm, Terminator.hook]

theorem expand_items (b : Block) :
    InsertLoop.expand visitItem b.items = (instrumentCondBranch b).items := by
  have hinsts : ∀ is : List Inst, (is.map Item.inst).flatMap
      (fun a => (visitItem a).getD [] ++ [a]) = is.map Item.inst := by
    intro is
    induction is with
    | nil => rfl
    | cons i is ih => exact congrArg _ ih
  rw [instrumentCondBranch_eq, InsertLoop.expand, Block.items, List.flatMap_append, hinsts]
  cases b.term <;> simp [visitItem, Terminator.hook, Block.items]

/-- `runOnFunction` after a number of turns of its loops. -/
def runOnFunction (f : Function) (n : Nat) : InsertLoop.State Item :=
  (InsertLoop.step visitItem)^[n] (InsertLoop.start (f.blocks.map Block.items))

/-- Whatever the function, the loops end with the blocks of
`collectCondBranchHints`. -/
theorem runOnFunction_ends (f : Function) :
    ∃ n, (runOnFunction f n).Finished ∧
      (runOnFunction f n).done = (collectCondBranchHints f).blocks.map Block.items := by
  have hreaches : Reaches (InsertLoop.step visitItem) (InsertLoop.start (f.blocks.map Block.items))
    _ := InsertLoop.step_result _
  obtain ⟨n, hn⟩ := hreaches
  refine ⟨n, ?_⟩
  rw [runOnFunction, hn]
  refine ⟨⟨rfl, rfl⟩, ?_⟩
  rw [collectCondBranchHints, List.map_map, List.map_map]
  exact List.map_congr_left fun b _ => expand_items b

/-! ## Executions -/

/-- An instruction: how many the visit of the block has executed before it. -/
structure Site where
  fn : String
  block : Nat
  index : Nat

/-- What the instructions do to the values of their frame and to the
memory, which holds all the rest of the world. -/
structure Sem (M : Type) where
  other : Site → Nat → Env → M → Env × M
  phis : String → Nat → Nat → Env → M → Env      -- of a block, by the one it is entered from
  params : Site → String → Env → M → Env × M     -- of a function that has a body
  foreign : Site → Callee → Env → M → Outcome × Env × M
  returned : Site → Env → Env → M → Env × M      -- to the caller's values, from the callee's
  raised : Site → Env → M → M
  landed : Site → Env → M → Env × M
  handler : Site → Env → M → Nat

structure State (M : Type) where
  stack : Config
  mem : M

def Frame.site (fr : Frame) : Site := ⟨fr.pos.fn, fr.pos.block, fr.pos.past.length⟩

section Exec

variable {M : Type} (m : Module) (img : Image) (sem : Sem M)

def stop (mem : M) : State M := ⟨[], mem⟩

def goTo (fr : Frame) (b : Nat) (env : Env) (mem : M) (stack : Config) : State M :=
  ⟨enter m (sem.phis fr.pos.fn fr.pos.block b env mem) fr.pos.fn b stack, mem⟩

/-- A call is over: its caller goes on with new values. -/
def resume (env : Env) (mem : M) (fr : Frame) (stack : Config) : State M :=
  match fr.pos.todo, fr.pos.term with
  | .call callee :: rest, _ => ⟨⟨fr.pos.advance (.call callee) rest, env⟩ :: stack, mem⟩
  | [], .invoke _ normal _ => goTo m sem fr normal env mem stack
  | _, _ => stop mem

def unwind (mem : M) : Config → State M
  | [] => stop mem
  | fr :: stack =>
      match fr.pos.todo, fr.pos.term with
      | [], .invoke _ _ unwind =>
          let (env, mem) := sem.landed fr.site fr.env mem
          goTo m sem fr unwind env mem stack
      | _, _ => unwind mem stack

def unwindTarget (fr : Frame) (stack : Config) (mem : M) : Option Nat → State M
  | some b => goTo m sem fr b fr.env mem stack
  | none => unwind m sem mem stack

def callFrom (callee : Callee) (fr : Frame) (stack : Config) (mem : M) : State M :=
  match bodyOf m img fr.env callee with
  | some g =>
      let (env, mem) := sem.params fr.site g fr.env mem
      ⟨enter m env g 0 (fr :: stack), mem⟩
  | none =>
      match sem.foreign fr.site callee fr.env mem with
      | (.returns, env, mem) => resume m sem env mem fr stack
      | (.unwinds, _, mem) => unwind m sem mem (fr :: stack)
      | (.stays, _, mem) => stop mem

def execTerm (fr : Frame) (stack : Config) (mem : M) : State M :=
  match fr.pos.term with
  | .ret =>
      match stack with
      | [] => stop mem
      | caller :: stack =>
          let (env, mem) := sem.returned caller.site caller.env fr.env mem
          resume m sem env mem caller stack
  | .br dest => goTo m sem fr dest fr.env mem stack
  | .condBr c t f => goTo m sem fr (if fr.env.taken c then t else f) fr.env mem stack
  | .switch c default cases => goTo m sem fr (switchDest fr.env c default cases) fr.env mem stack
  | .indirectBr a dests =>
      match img.indirectDest? fr.pos.fn (fr.env.ptrtoint a) dests with
      | some b => goTo m sem fr b fr.env mem stack
      | none => stop mem
  | .invoke callee _ _ => callFrom m img sem callee fr stack mem
  | .resume => unwind m sem (sem.raised fr.site fr.env mem) stack
  | .unreachable => stop mem
  | .cleanupRet target => unwindTarget m sem fr stack mem target
  | .catchRet dest => goTo m sem fr dest fr.env mem stack
  | .catchSwitch handlers target =>
      match handlers[sem.handler fr.site fr.env mem]? with
      | some b => goTo m sem fr b fr.env mem stack
      | none => unwindTarget m sem fr stack mem target

def exec (s : State M) : State M :=
  match s.stack with
  | [] => s
  | fr :: stack =>
      match fr.pos.todo with
      | [] => execTerm m img sem fr stack s.mem
      | .call callee :: _ => callFrom m img sem callee fr stack s.mem
      | .other opcode :: rest =>
          let (env, mem) := sem.other fr.site opcode fr.env s.mem
          ⟨⟨fr.pos.advance (.other opcode) rest, env⟩ :: stack, mem⟩
      | i :: rest => ⟨{ fr with pos := fr.pos.advance i rest } :: stack, s.mem⟩

/-- `fn` is called with its arguments. -/
def initial (fn : String) (env : Env) (mem : M) : State M := ⟨enter m env fn 0 [], mem⟩

/-- An execution of `fn`. -/
def execution (fn : String) (env : Env) (mem : M) (n : Nat) : State M :=
  (exec m img sem)^[n] (initial m fn env mem)

end Exec

/-! ## What is seen of an execution -/

section Seen

variable {M : Type}

/-- The hook call that is next, with its place and argument. -/
def hookCalls (s : State M) : List (String × Nat × Bool) :=
  match s.stack with
  | [] => []
  | fr :: _ =>
      match fr.pos.todo with
      | .collectCondBranchHints c :: _ => [(fr.pos.fn, fr.pos.block, fr.env.taken c)]
      | _ => []

/-- The conditional branch that is next, with its place and outcome. -/
def branches (s : State M) : List (String × Nat × Bool) :=
  match s.stack with
  | [] => []
  | fr :: _ =>
      match fr.pos.todo, fr.pos.term with
      | [], .condBr c _ _ => [(fr.pos.fn, fr.pos.block, fr.env.taken c)]
      | _, _ => []

inductive Event (M : Type) where
  | visit (fn : String) (block : Nat) (env : Env) (mem : M)
  | over (mem : M)

/-- The start of a block with the values and the memory there, or the end. -/
def seen (s : State M) : List (Event M) :=
  match s.stack with
  | [] => [.over s.mem]
  | fr :: _ => if fr.pos.past = [] then [.visit fr.pos.fn fr.pos.block fr.env s.mem] else []

end Seen

/-! ## Putting in the hooks -/

def Frame.lift (fr : Frame) : Frame :=
  { fr with pos := { fr.pos with todo := fr.pos.todo ++ fr.pos.term.hook } }

def State.lift {M : Type} (s : State M) : State M := ⟨s.stack.map Frame.lift, s.mem⟩

section Lift

variable {M : Type} {m : Module} {img : Image} {sem : Sem M}

theorem block?_collect (m : Module) (fn : String) (b : Nat) :
    Module.block? (m.map collectCondBranchHints) fn b =
      (Module.block? m fn b).map instrumentCondBranch := by
  unfold Module.block?
  rw [List.find?_map]
  show ((m.find? fun f => f.name = fn).map collectCondBranchHints).bind _ = _
  cases m.find? fun f => f.name = fn with
  | none => rfl
  | some f => simp [collectCondBranchHints]

theorem enter_lift (env : Env) (fn : String) (b : Nat) (stack : Config) :
    enter (m.map collectCondBranchHints) env fn b (stack.map Frame.lift) =
      (enter m env fn b stack).map Frame.lift := by
  unfold enter
  rw [block?_collect]
  cases Module.block? m fn b with
  | none => rfl
  | some block =>
      simp only [Option.map_some, instrumentCondBranch_eq]
      rfl

theorem bodyOf_collect (img : Image) (env : Env) (callee : Callee) :
    bodyOf (m.map collectCondBranchHints) img env callee = bodyOf m img env callee := by
  unfold bodyOf
  congr 1
  funext g
  rw [block?_collect, Option.isSome_map]

/-- Only the place of the branching frame counts. -/
theorem goTo_lift {fr fr' : Frame} (hfn : fr'.pos.fn = fr.pos.fn)
    (hblock : fr'.pos.block = fr.pos.block) (b : Nat) (env : Env) (mem : M) (stack : Config) :
    goTo (m.map collectCondBranchHints) sem fr' b env mem (stack.map Frame.lift) =
      (goTo m sem fr b env mem stack).lift := by
  unfold goTo State.lift
  rw [hfn, hblock, enter_lift]

theorem resume_lift (env : Env) (mem : M) (fr : Frame) (stack : Config) :
    resume (m.map collectCondBranchHints) sem env mem fr.lift (stack.map Frame.lift) =
      (resume m sem env mem fr stack).lift := by
  obtain ⟨⟨fn, block, past, todo, term⟩, old⟩ := fr
  cases todo with
  | cons i rest => cases i <;> rfl
  | nil =>
      cases term with
      | invoke callee normal unwind => exact goTo_lift rfl rfl normal env mem stack
      | _ => rfl

theorem unwind_lift (mem : M) (stack : Config) :
    unwind (m.map collectCondBranchHints) sem mem (stack.map Frame.lift) =
      (unwind m sem mem stack).lift := by
  induction stack with
  | nil => rfl
  | cons fr stack ih =>
      obtain ⟨⟨fn, block, past, todo, term⟩, old⟩ := fr
      cases todo with
      | cons i rest => exact ih
      | nil =>
          cases term with
          | invoke callee normal target => exact goTo_lift rfl rfl target _ _ stack
          | _ => exact ih

theorem unwindTarget_lift (fr : Frame) (stack : Config) (mem : M) (target : Option Nat) :
    unwindTarget (m.map collectCondBranchHints) sem fr.lift (stack.map Frame.lift) mem target =
      (unwindTarget m sem fr stack mem target).lift := by
  cases target with
  | some b => exact goTo_lift rfl rfl b _ mem stack
  | none => exact unwind_lift mem stack

theorem callFrom_lift (callee : Callee) (fr : Frame) (stack : Config) (mem : M) :
    callFrom (m.map collectCondBranchHints) img sem callee fr.lift (stack.map Frame.lift) mem =
      (callFrom m img sem callee fr stack mem).lift := by
  have henv : fr.lift.env = fr.env := rfl
  have hsite : fr.lift.site = fr.site := rfl
  unfold callFrom
  rw [bodyOf_collect, henv, hsite]
  cases bodyOf m img fr.env callee with
  | some g =>
      have henter := enter_lift (m := m) (sem.params fr.site g fr.env mem).1 g 0 (fr :: stack)
      exact congrArg (State.mk · _) henter
  | none =>
      dsimp only
      rcases sem.foreign fr.site callee fr.env mem with ⟨outcome, env, mem⟩
      cases outcome with
      | returns => exact resume_lift env mem fr stack
      | unwinds => exact unwind_lift mem (fr :: stack)
      | stays => rfl

/-- A block without a hook ends as it did. -/
theorem execTerm_lift (fr : Frame) (stack : Config) (mem : M) (hhook : fr.pos.term.hook = []) :
    execTerm (m.map collectCondBranchHints) img sem fr.lift (stack.map Frame.lift) mem =
      (execTerm m img sem fr stack mem).lift := by
  obtain ⟨⟨fn, block, past, todo, term⟩, env⟩ := fr
  cases term with
  | ret =>
      cases stack with
      | nil => rfl
      | cons caller stack => exact resume_lift _ _ caller stack
  | br dest => exact goTo_lift rfl rfl dest env mem stack
  | condBr c t f => cases hhook
  | switch c default cases => exact goTo_lift rfl rfl _ env mem stack
  | indirectBr a dests =>
      unfold execTerm
      dsimp only [Frame.lift]
      cases img.indirectDest? fn (env.ptrtoint a) dests with
      | some b => exact goTo_lift rfl rfl b env mem stack
      | none => rfl
  | invoke callee normal target =>
      exact callFrom_lift callee ⟨⟨fn, block, past, todo, .invoke callee normal target⟩, env⟩ stack mem
  | resume => exact unwind_lift _ stack
  | unreachable => rfl
  | cleanupRet target =>
      exact unwindTarget_lift ⟨⟨fn, block, past, todo, .cleanupRet target⟩, env⟩ stack mem target
  | catchRet dest => exact goTo_lift rfl rfl dest env mem stack
  | catchSwitch handlers target =>
      unfold execTerm
      dsimp only [Frame.lift, Frame.site]
      cases handlers[sem.handler ⟨fn, block, past.length⟩ env mem]? with
      | some b => exact goTo_lift rfl rfl b env mem stack
      | none =>
          exact unwindTarget_lift ⟨⟨fn, block, past, todo, .catchSwitch handlers target⟩, env⟩ stack
            mem target

/-- The next step is a conditional branch. -/
def AtBranch (s : State M) : Prop :=
  ∃ fr stack c t f, s.stack = fr :: stack ∧ fr.pos.todo = [] ∧ fr.pos.term = .condBr c t f

/-- Away from the branches, a step is a step. -/
theorem exec_lift (s : State M) (h : ¬ AtBranch s) :
    exec (m.map collectCondBranchHints) img sem s.lift = (exec m img sem s).lift := by
  obtain ⟨stack, mem⟩ := s
  cases stack with
  | nil => rfl
  | cons fr stack =>
      cases htodo : fr.pos.todo with
      | nil =>
          have hhook : fr.pos.term.hook = [] := by
            unfold Terminator.hook
            split
            · rename_i c t f hterm
              exact absurd ⟨fr, stack, c, t, f, rfl, htodo, hterm⟩ h
            · rfl
          have hlift : fr.lift.pos.todo = [] := by simp [Frame.lift, htodo, hhook]
          unfold exec State.lift
          rw [List.map_cons]
          dsimp only
          rw [hlift, htodo]
          exact execTerm_lift fr stack mem hhook
      | cons i rest =>
          have hlift : fr.lift.pos.todo = i :: (rest ++ fr.pos.term.hook) := by
            simp [Frame.lift, htodo]
          unfold exec State.lift
          rw [List.map_cons]
          dsimp only
          rw [hlift, htodo]
          cases i with
          | call callee => exact callFrom_lift callee fr stack mem
          | _ => rfl

/-- At a branch, the hook is called and then the branch is taken. -/
theorem exec_lift_branch (s : State M) (h : AtBranch s) :
    exec (m.map collectCondBranchHints) img sem
        (exec (m.map collectCondBranchHints) img sem s.lift) = (exec m img sem s).lift := by
  obtain ⟨stack, mem⟩ := s
  obtain ⟨fr, stack, c, t, f, rfl, htodo, hterm⟩ := h
  obtain ⟨⟨fn, block, past, todo, term⟩, env⟩ := fr
  cases htodo
  cases hterm
  exact goTo_lift rfl rfl _ env mem stack

end Lift

/-! ## Modules without hooks -/

def Inst.isHook : Inst → Bool
  | .collectCondBranchHints _ => true
  | _ => false

/-- A module that makes no hook calls of its own. -/
structure Uninstrumented where
  module : Module
  noHook : ∀ f ∈ module, ∀ block ∈ f.blocks, ∀ i ∈ block.insts, i.isHook = false

def NoHook (stack : Config) : Prop := ∀ fr ∈ stack, ∀ i ∈ fr.pos.todo, i.isHook = false

section NoHook

variable {M : Type} {u : Uninstrumented} {img : Image} {sem : Sem M}

theorem NoHook.tail {fr : Frame} {stack : Config} (h : NoHook (fr :: stack)) : NoHook stack :=
  fun fr' hfr' => h fr' (List.mem_cons_of_mem _ hfr')

theorem NoHook.cons {fr : Frame} {stack : Config} (h : NoHook stack)
    (hfr : ∀ i ∈ fr.pos.todo, i.isHook = false) : NoHook (fr :: stack) := by
  intro fr' hfr'
  rcases List.mem_cons.mp hfr' with rfl | hfr'
  · exact hfr
  · exact h fr' hfr'

/-- An instruction of the first frame is over. -/
theorem NoHook.advance {fr : Frame} {stack : Config} (h : NoHook (fr :: stack)) {i : Inst}
    {rest : List Inst} (htodo : fr.pos.todo = i :: rest) (env : Env) :
    NoHook (⟨fr.pos.advance i rest, env⟩ :: stack) :=
  h.tail.cons fun j hj => h fr (List.mem_cons_self ..) j (htodo ▸ List.mem_cons_of_mem _ hj)

theorem enter_noHook (env : Env) (fn : String) (b : Nat) {stack : Config} (h : NoHook stack) :
    NoHook (enter u.module env fn b stack) := by
  unfold enter
  split
  · rename_i block hblock
    unfold Module.block? at hblock
    obtain ⟨f, hf, hget⟩ := Option.bind_eq_some_iff.mp hblock
    exact h.cons (u.noHook f (List.mem_of_find?_eq_some hf) block (List.mem_of_getElem? hget))
  · exact fun _ hfr => nomatch hfr

theorem stop_noHook (mem : M) : NoHook (stop mem).stack := fun _ hfr => nomatch hfr

theorem resume_noHook (env : Env) (mem : M) {fr : Frame} {stack : Config}
    (h : NoHook (fr :: stack)) : NoHook (resume u.module sem env mem fr stack).stack := by
  unfold resume
  split
  · exact h.advance ‹_› env
  · exact enter_noHook _ _ _ h.tail
  · exact stop_noHook mem

theorem unwind_noHook (mem : M) {stack : Config} (h : NoHook stack) :
    NoHook (unwind u.module sem mem stack).stack := by
  induction stack with
  | nil => exact stop_noHook mem
  | cons fr stack ih =>
      unfold unwind
      split
      · exact enter_noHook _ _ _ h.tail
      · exact ih h.tail

theorem unwindTarget_noHook (fr : Frame) {stack : Config} (mem : M) (target : Option Nat)
    (h : NoHook stack) : NoHook (unwindTarget u.module sem fr stack mem target).stack := by
  cases target with
  | some b => exact enter_noHook _ _ _ h
  | none => exact unwind_noHook mem h

theorem callFrom_noHook (callee : Callee) {fr : Frame} {stack : Config} (mem : M)
    (h : NoHook (fr :: stack)) : NoHook (callFrom u.module img sem callee fr stack mem).stack := by
  unfold callFrom
  split
  · exact enter_noHook _ _ _ h
  · split
    · exact resume_noHook _ _ h
    · exact unwind_noHook _ h
    · exact stop_noHook _

theorem execTerm_noHook {fr : Frame} {stack : Config} (mem : M) (h : NoHook (fr :: stack)) :
    NoHook (execTerm u.module img sem fr stack mem).stack := by
  unfold execTerm
  split
  · split
    · exact stop_noHook mem
    · exact resume_noHook _ _ h.tail
  · exact enter_noHook _ _ _ h.tail
  · exact enter_noHook _ _ _ h.tail
  · exact enter_noHook _ _ _ h.tail
  · split
    · exact enter_noHook _ _ _ h.tail
    · exact stop_noHook mem
  · exact callFrom_noHook _ mem h
  · exact unwind_noHook _ h.tail
  · exact stop_noHook mem
  · exact unwindTarget_noHook fr mem _ h.tail
  · exact enter_noHook _ _ _ h.tail
  · split
    · exact enter_noHook _ _ _ h.tail
    · exact unwindTarget_noHook fr mem _ h.tail

theorem exec_noHook {s : State M} (h : NoHook s.stack) :
    NoHook (exec u.module img sem s).stack := by
  obtain ⟨stack, mem⟩ := s
  cases stack with
  | nil => exact h
  | cons fr stack =>
      unfold exec
      dsimp only
      split
      · exact execTerm_noHook mem h
      · exact callFrom_noHook _ mem h
      · exact NoHook.advance h ‹_› _
      · exact NoHook.advance h ‹_› _

end NoHook

/-! ## The two executions -/

section Same

variable {M : Type}

theorem hookCalls_lift {s : State M} (h : NoHook s.stack) : hookCalls s.lift = branches s := by
  obtain ⟨_ | ⟨⟨⟨fn, block, past, todo, term⟩, env⟩, stack⟩, mem⟩ := s
  · rfl
  · cases todo with
    | nil => cases term <;> rfl
    | cons i rest =>
        cases i with
        | collectCondBranchHints c =>
            exact absurd (h _ (List.mem_cons_self ..) _ (List.mem_cons_self ..)) (by simp [Inst.isHook])
        | _ => rfl

theorem branches_lift (s : State M) : branches s.lift = [] := by
  obtain ⟨_ | ⟨⟨⟨fn, block, past, todo, term⟩, env⟩, stack⟩, mem⟩ := s
  · rfl
  · cases todo with
    | nil => cases term <;> rfl
    | cons i rest => rfl

theorem seen_lift (s : State M) : seen s.lift = seen s := by
  obtain ⟨_ | ⟨fr, stack⟩, mem⟩ := s <;> rfl

/-- After the hook, the branch is next. -/
theorem after_hook {m : Module} {img : Image} {sem : Sem M} {s : State M} (h : AtBranch s) :
    hookCalls (exec m img sem s.lift) = [] ∧ branches (exec m img sem s.lift) = branches s ∧
      seen (exec m img sem s.lift) = [] := by
  obtain ⟨stack, mem⟩ := s
  obtain ⟨⟨⟨fn, block, past, todo, term⟩, env⟩, stack, c, t, f, rfl, htodo, hterm⟩ := h
  cases htodo
  cases hterm
  exact ⟨rfl, rfl, rfl⟩

theorem branches_of_not_atBranch {s : State M} (h : ¬ AtBranch s) : branches s = [] := by
  obtain ⟨_ | ⟨fr, stack⟩, mem⟩ := s
  · rfl
  · unfold branches
    dsimp only
    split
    · rename_i c t f htodo hterm
      exact absurd ⟨fr, stack, c, t, f, rfl, htodo, hterm⟩ h
    · rfl

variable (u : Uninstrumented) (img : Image) (sem : Sem M) (fn : String) (env : Env) (mem : M)

/-- The stuttering simulation, for whatever is seen of the two executions. -/
theorem sameSequence_lift {α : Type} {out₁ out₂ : State M → List α}
    (hlift : ∀ s, NoHook s.stack → ¬ AtBranch s → out₂ s.lift = out₁ s)
    (hbranch : ∀ s, NoHook s.stack → AtBranch s →
      out₂ s.lift ++ out₂ (exec (u.module.map collectCondBranchHints) img sem s.lift) = out₁ s) :
    SameSequence (fun n => out₁ (execution u.module img sem fn env mem n))
      (fun n => out₂ (execution (u.module.map collectCondBranchHints) img sem fn env mem n)) := by
  apply SameSequence.of_stutter (R := fun s s' => s' = s.lift ∧ NoHook s.stack)
  · refine ⟨?_, enter_noHook env fn 0 fun _ hfr => nomatch hfr⟩
    exact congrArg (State.mk · mem) (enter_lift env fn 0 [])
  · rintro s _ ⟨rfl, hs⟩
    by_cases h : AtBranch s
    · refine ⟨1, ⟨exec_lift_branch s h, exec_noHook hs⟩, ?_⟩
      rw [← hbranch s hs h]
      simp [outUpTo, List.range_succ]
    · refine ⟨0, ⟨exec_lift s h, exec_noHook hs⟩, ?_⟩
      rw [← hlift s hs h]
      simp [outUpTo]

/-- The pass ends on each function. Whatever the instructions do, an
execution of what it leaves calls the hook once for each conditional
branch it executes, with its outcome and in order: these are also those
of the original on the same inputs, which starts the same blocks with the
same values and memory, and ends with the same memory if it ends. -/
theorem hooks_are_branches :
    let instrumented := execution (u.module.map collectCondBranchHints) img sem fn env mem
    let original := execution u.module img sem fn env mem
    (∀ f ∈ u.module, ∃ n, (runOnFunction f n).Finished ∧
      (runOnFunction f n).done = (collectCondBranchHints f).blocks.map Block.items) ∧
      SameSequence (fun n => hookCalls (instrumented n)) (fun n => branches (instrumented n)) ∧
      SameSequence (fun n => hookCalls (instrumented n)) (fun n => branches (original n)) ∧
      SameSequence (fun n => seen (instrumented n)) (fun n => seen (original n)) := by
  intro instrumented original
  have hhooks : SameSequence (fun n => branches (original n)) fun n => hookCalls (instrumented n) := by
    apply sameSequence_lift u img sem fn env mem
    · exact fun s hs _ => hookCalls_lift hs
    · intro s hs h
      rw [hookCalls_lift hs, (after_hook h).1, List.append_nil]
  have hbranches : SameSequence (fun n => branches (original n)) fun n =>
      branches (instrumented n) := by
    apply sameSequence_lift u img sem fn env mem
    · intro s _ h
      rw [branches_lift, branches_of_not_atBranch h]
    · intro s _ h
      rw [branches_lift, (after_hook h).2.1, List.nil_append]
  have hseen : SameSequence (fun n => seen (original n)) fun n => seen (instrumented n) := by
    apply sameSequence_lift u img sem fn env mem
    · exact fun s _ _ => seen_lift s
    · intro s _ h
      rw [seen_lift, (after_hook h).2.2, List.append_nil]
  exact ⟨fun f _ => runOnFunction_ends f, hhooks.symm.trans hbranches, hhooks.symm, hseen.symm⟩

end Same

/-- A loop that counts down. -/
def countdown : Uninstrumented where
  module := [⟨"f", false, [⟨[.other 0], .condBr 0 0 1⟩, ⟨[], .ret⟩]⟩]
  noHook := by decide

/-- The one instruction takes 1 off the memory, which is its value. -/
def countdownSem : Sem Nat where
  other := fun _ _ _ mem => (fun _ => mem - 1, mem - 1)
  phis := fun _ _ _ env _ => env
  params := fun _ _ env mem => (env, mem)
  foreign := fun _ _ env mem => (.returns, env, mem)
  returned := fun _ env _ mem => (env, mem)
  raised := fun _ _ mem => mem
  landed := fun _ env mem => (env, mem)
  handler := fun _ _ _ => 0

example : (List.range 8).flatMap (fun n => hookCalls (execution
    (countdown.module.map collectCondBranchHints) ⟨fun _ => none, fun _ _ => 0⟩ countdownSem "f"
      (fun _ => 0) 2 n)) = [("f", 0, true), ("f", 0, false)] := by decide

end CfvHints

end Oat
