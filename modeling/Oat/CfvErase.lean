import Oat.CfvCond

/-!
# Executions without the hint calls

A hint call changes neither the values of its frame nor the memory, so
that an execution of a module with hint calls is, apart from the steps
that make them, one of the module without them. Erasure drops the hint
calls from the code and from what each frame has executed and has still
to execute.

The instructions keep their meaning when the hints before them are gone:
`Module.unhinted` leads from the place of an instruction to its place in
the erased code. A suspended frame is always at its call or at its
invoke, never at a hint, which is what `Steady` carries.
-/

namespace Oat

namespace CfvHints

/-! ## Erasure -/

def Inst.isHint : Inst → Bool
  | .collectCondBranchHints _ => true
  | .collectIBranchHints _ _ _ => true
  | .collectICallHints _ _ _ => true
  | _ => false

def dropHints (is : List Inst) : List Inst := is.filter fun i => !i.isHint

theorem dropHints_cons_hint {i : Inst} (h : i.isHint = true) (is : List Inst) :
    dropHints (i :: is) = dropHints is := by
  simp [dropHints, h]

theorem dropHints_cons {i : Inst} (h : i.isHint = false) (is : List Inst) :
    dropHints (i :: is) = i :: dropHints is := by
  simp [dropHints, h]

theorem dropHints_append (is js : List Inst) :
    dropHints (is ++ js) = dropHints is ++ dropHints js :=
  List.filter_append ..

def Block.erase (b : Block) : Block := { b with insts := dropHints b.insts }

def Function.erase (f : Function) : Function := { f with blocks := f.blocks.map Block.erase }

def Module.erase (m : Module) : Module := m.map Function.erase

def Frame.erase (fr : Frame) : Frame :=
  { fr with pos := { fr.pos with past := dropHints fr.pos.past, todo := dropHints fr.pos.todo } }

/-- The place of an instruction in the erased code. -/
def Module.unhinted (m : Module) (s : Site) : Site :=
  { s with index := ((Module.block? m s.fn s.block).map fun b =>
      (dropHints (b.insts.take s.index)).length).getD 0 }

section Sem

variable {M : Type}

def State.erase (s : State M) : State M := ⟨s.stack.map Frame.erase, s.mem⟩

/-- What `sem` has at the place an instruction is led to. -/
def Sem.along (sem : Sem M) (place : Site → Site) : Sem M where
  other s := sem.other (place s)
  phis := sem.phis
  params s := sem.params (place s)
  foreign s := sem.foreign (place s)
  returned s := sem.returned (place s)
  raised s := sem.raised (place s)
  landed s := sem.landed (place s)
  handler s := sem.handler (place s)

end Sem

theorem block?_erase (m : Module) (fn : String) (b : Nat) :
    Module.block? (Module.erase m) fn b = (Module.block? m fn b).map Block.erase := by
  unfold Module.block? Module.erase
  rw [List.find?_map]
  show ((m.find? fun f => f.name = fn).map Function.erase).bind _ = _
  cases m.find? fun f => f.name = fn with
  | none => rfl
  | some f => simp [Function.erase]

theorem enter_erase (m : Module) (env : Env) (fn : String) (b : Nat) (stack : Config) :
    enter (Module.erase m) env fn b (stack.map Frame.erase)
      = (enter m env fn b stack).map Frame.erase := by
  unfold enter
  rw [block?_erase]
  cases Module.block? m fn b with
  | none => rfl
  | some block => rfl

theorem bodyOf_erase (m : Module) (img : Image) (env : Env) (callee : Callee) :
    bodyOf (Module.erase m) img env callee = bodyOf m img env callee := by
  unfold bodyOf
  congr 1
  funext g
  rw [block?_erase, Option.isSome_map]

theorem site_unhinted {m : Module} {fr : Frame} (hp : Placed m fr.pos) :
    Module.unhinted m fr.site = fr.erase.site := by
  have hblock : Module.block? m fr.site.fn fr.site.block = some fr.pos.code := hp
  have hpast : (dropHints (fr.pos.code.insts.take fr.site.index)).length
      = (dropHints fr.pos.past).length := by
    have htake : fr.pos.code.insts.take fr.site.index = fr.pos.past.reverse :=
      List.take_left' (by simp [Frame.site])
    rw [htake, dropHints, List.filter_reverse, List.length_reverse, dropHints]
  unfold Module.unhinted
  rw [hblock, Option.map_some, Option.getD_some, hpast]
  rfl

/-! ## Where a frame stands -/

/-- The frame is not at a hint. -/
def Settled (fr : Frame) : Prop := ∀ i ∈ fr.pos.todo.head?, i.isHint = false

structure Standing (m : Module) (fr : Frame) : Prop where
  placed : Placed m fr.pos
  settled : Settled fr

/-- Only the frame that is running may be at a hint. -/
def Steady (m : Module) : Config → Prop
  | [] => True
  | fr :: stack => Placed m fr.pos ∧ ∀ fr' ∈ stack, Standing m fr'

/-- The instruction executed last is no hint. -/
def Fresh (stack : Config) : Prop :=
  ∀ fr ∈ stack.head?, ∀ i ∈ fr.pos.past.head?, i.isHint = false

theorem settled_nil {fr : Frame} (h : fr.pos.todo = []) : Settled fr := by
  intro i hi
  rw [h] at hi
  cases hi

theorem settled_cons {fr : Frame} {i : Inst} {rest : List Inst} (h : fr.pos.todo = i :: rest)
    (hi : i.isHint = false) : Settled fr := by
  intro j hj
  rw [h] at hj
  obtain rfl : i = j := Option.some.inj hj
  exact hi

theorem Settled.erase_cons {fr : Frame} (hs : Settled fr) {i : Inst} {rest : List Inst}
    (h : fr.pos.todo = i :: rest) : fr.erase.pos.todo = i :: dropHints rest := by
  show dropHints fr.pos.todo = _
  rw [h]
  exact dropHints_cons (hs i (by rw [h]; rfl)) rest

theorem erase_nil {fr : Frame} (h : fr.pos.todo = []) : fr.erase.pos.todo = [] := by
  show dropHints fr.pos.todo = _
  rw [h]
  rfl

section Steps

variable {M : Type} {m : Module} {img : Image} {sem : Sem M}

/-! ## Steps keep the frames in place -/

theorem enter_steady (env : Env) (fn : String) (b : Nat) {stack : Config}
    (h : ∀ fr ∈ stack, Standing m fr) : Steady m (enter m env fn b stack) := by
  unfold enter
  split
  · rename_i hblock
    exact ⟨hblock, h⟩
  · trivial

theorem enter_fresh (env : Env) (fn : String) (b : Nat) (stack : Config) :
    Fresh (enter m env fn b stack) := by
  unfold enter
  split
  · rintro fr hfr i hi
    obtain rfl := Option.some.inj hfr
    cases hi
  · intro fr hfr
    cases hfr

theorem advance_steady {fr : Frame} {stack : Config} {i : Inst} {rest : List Inst}
    (h : Steady m (fr :: stack)) (htodo : fr.pos.todo = i :: rest) (env : Env) :
    Steady m (⟨fr.pos.advance i rest, env⟩ :: stack) :=
  ⟨placed_advance h.1 htodo, h.2⟩

theorem advance_fresh (fr : Frame) (stack : Config) {i : Inst} (hi : i.isHint = false)
    (rest : List Inst) (env : Env) : Fresh (⟨fr.pos.advance i rest, env⟩ :: stack) := by
  intro fr' hfr j hj
  obtain rfl := Option.some.inj hfr
  obtain rfl : i = j := Option.some.inj hj
  exact hi

/-- Both at once, as the steps are proved to keep them. -/
def SteadyFresh (m : Module) (stack : Config) : Prop := Steady m stack ∧ Fresh stack

theorem stop_steadyFresh (mem : M) : SteadyFresh m (stop mem).stack := by
  refine ⟨trivial, ?_⟩
  intro fr hfr
  cases hfr

theorem goTo_steadyFresh (fr : Frame) (b : Nat) (env : Env) (mem : M) {stack : Config}
    (h : ∀ fr ∈ stack, Standing m fr) :
    SteadyFresh m (goTo m sem fr b env mem stack).stack :=
  ⟨enter_steady _ _ _ h, enter_fresh _ _ _ _⟩

theorem resume_steadyFresh (env : Env) (mem : M) {fr : Frame} {stack : Config}
    (h : Steady m (fr :: stack)) :
    SteadyFresh m (resume m sem env mem fr stack).stack := by
  unfold resume
  split
  · exact ⟨advance_steady h ‹_› env, advance_fresh fr stack rfl _ env⟩
  · exact goTo_steadyFresh _ _ _ _ h.2
  · exact stop_steadyFresh mem

theorem unwind_steadyFresh (mem : M) {stack : Config} (h : ∀ fr ∈ stack, Standing m fr) :
    SteadyFresh m (unwind m sem mem stack).stack := by
  induction stack with
  | nil => exact stop_steadyFresh mem
  | cons fr stack ih =>
      have htail : ∀ fr ∈ stack, Standing m fr := fun fr hfr => h fr (List.mem_cons_of_mem _ hfr)
      unfold unwind
      split
      · exact goTo_steadyFresh _ _ _ _ htail
      · exact ih htail

theorem unwindTarget_steadyFresh (fr : Frame) {stack : Config} (mem : M) (target : Option Nat)
    (h : ∀ fr ∈ stack, Standing m fr) :
    SteadyFresh m (unwindTarget m sem fr stack mem target).stack := by
  cases target with
  | some b => exact goTo_steadyFresh _ _ _ _ h
  | none => exact unwind_steadyFresh mem h

theorem standing_cons {fr : Frame} {stack : Config} (hs : Settled fr)
    (h : Steady m (fr :: stack)) : ∀ fr' ∈ fr :: stack, Standing m fr' := by
  intro fr' hfr'
  rcases List.mem_cons.mp hfr' with rfl | hfr'
  · exact ⟨h.1, hs⟩
  · exact h.2 fr' hfr'

theorem callFrom_steadyFresh (callee : Callee) {fr : Frame} {stack : Config} (mem : M)
    (hs : Settled fr) (h : Steady m (fr :: stack)) :
    SteadyFresh m (callFrom m img sem callee fr stack mem).stack := by
  have hall := standing_cons hs h
  unfold callFrom
  split
  · exact ⟨enter_steady _ _ _ hall, enter_fresh _ _ _ _⟩
  · split
    · exact resume_steadyFresh _ _ h
    · exact unwind_steadyFresh _ hall
    · exact stop_steadyFresh _

theorem execTerm_steadyFresh {fr : Frame} {stack : Config} (mem : M) (htodo : fr.pos.todo = [])
    (h : Steady m (fr :: stack)) : SteadyFresh m (execTerm m img sem fr stack mem).stack := by
  unfold execTerm
  split
  · split
    · exact stop_steadyFresh mem
    · rename_i caller stack
      have hcaller := h.2 caller (List.mem_cons_self ..)
      exact resume_steadyFresh _ _ ⟨hcaller.placed, fun fr hfr => h.2 fr (List.mem_cons_of_mem _ hfr)⟩
  · exact goTo_steadyFresh _ _ _ _ h.2
  · exact goTo_steadyFresh _ _ _ _ h.2
  · exact goTo_steadyFresh _ _ _ _ h.2
  · split
    · exact goTo_steadyFresh _ _ _ _ h.2
    · exact stop_steadyFresh mem
  · exact callFrom_steadyFresh _ mem (settled_nil htodo) h
  · exact unwind_steadyFresh _ h.2
  · exact stop_steadyFresh mem
  · exact unwindTarget_steadyFresh fr mem _ h.2
  · exact goTo_steadyFresh _ _ _ _ h.2
  · split
    · exact goTo_steadyFresh _ _ _ _ h.2
    · exact unwindTarget_steadyFresh fr mem _ h.2

/-- The next step is a hint call. -/
def AtHint (s : State M) : Prop :=
  ∃ fr stack i rest, s.stack = fr :: stack ∧ fr.pos.todo = i :: rest ∧ i.isHint = true

/-- A step that is no hint call leaves the frames steady, and the one
that runs behind no hint. -/
theorem exec_steadyFresh {s : State M} (hs : ¬ AtHint s) (h : Steady m s.stack) :
    SteadyFresh m (exec m img sem s).stack := by
  obtain ⟨stack, mem⟩ := s
  cases stack with
  | nil => exact stop_steadyFresh mem
  | cons fr stack =>
      unfold exec
      dsimp only
      split
      · exact execTerm_steadyFresh mem ‹_› h
      · exact callFrom_steadyFresh _ mem (settled_cons ‹_› rfl) h
      · exact ⟨advance_steady h ‹_› _, advance_fresh fr stack rfl _ _⟩
      · rename_i i rest hcall hother htodo
        refine absurd ⟨fr, stack, i, rest, rfl, htodo, ?_⟩ hs
        cases i with
        | call callee => exact absurd rfl (hcall callee)
        | other opcode => exact absurd rfl (hother opcode)
        | _ => rfl

/-! ## Steps of the erased code -/

theorem goTo_erase (place : Site → Site) (fr : Frame) (b : Nat) (env : Env) (mem : M)
    (stack : Config) :
    goTo (Module.erase m) sem fr.erase b env mem (stack.map Frame.erase)
      = (goTo m (sem.along place) fr b env mem stack).erase :=
  congrArg (State.mk · mem) (enter_erase m _ fr.pos.fn b stack)

theorem resume_erase (place : Site → Site) (env : Env) (mem : M) {fr : Frame} (hs : Settled fr)
    (stack : Config) :
    resume (Module.erase m) sem env mem fr.erase (stack.map Frame.erase)
      = (resume m (sem.along place) env mem fr stack).erase := by
  rcases htodo : fr.pos.todo with _ | ⟨i, rest⟩
  · have herase := erase_nil htodo
    unfold resume
    rw [htodo, herase]
    cases hterm : fr.pos.term with
    | invoke callee normal target =>
        have hterm' : fr.erase.pos.term = .invoke callee normal target := hterm
        rw [hterm']
        exact goTo_erase place fr normal env mem stack
    | _ =>
        have hterm' : fr.erase.pos.term = fr.pos.term := rfl
        rw [hterm', hterm]
        rfl
  · have herase := hs.erase_cons htodo
    have hi := hs i (by rw [htodo]; rfl)
    unfold resume
    rw [htodo, herase]
    cases i with
    | call callee =>
        have hadvance : ∀ p : Position,
            (⟨p.advance (.call callee) rest, env⟩ : Frame).erase
              = ⟨(⟨p, env⟩ : Frame).erase.pos.advance (.call callee) (dropHints rest), env⟩ := by
          intro p
          simp only [Frame.erase, Position.advance, dropHints_cons (i := .call callee) rfl]
        show _ = State.mk ((⟨fr.pos.advance (.call callee) rest, env⟩ :: stack).map Frame.erase) mem
        rw [List.map_cons, hadvance]
        rfl
    | _ => rfl

theorem unwind_erase (mem : M) {stack : Config} (h : ∀ fr ∈ stack, Standing m fr) :
    unwind (Module.erase m) sem mem (stack.map Frame.erase)
      = (unwind m (sem.along (Module.unhinted m)) mem stack).erase := by
  induction stack with
  | nil => rfl
  | cons fr stack ih =>
      have hfr := h fr (List.mem_cons_self ..)
      have hrest := ih fun fr hfr => h fr (List.mem_cons_of_mem _ hfr)
      rw [List.map_cons]
      rcases htodo : fr.pos.todo with _ | ⟨i, rest⟩
      · have herase := erase_nil htodo
        have hterm : fr.erase.pos.term = fr.pos.term := rfl
        unfold unwind
        rw [htodo, herase, hterm]
        cases fr.pos.term with
        | invoke callee normal target =>
            dsimp only [Sem.along]
            rw [site_unhinted hfr.placed]
            exact goTo_erase _ fr target _ _ stack
        | _ => exact hrest
      · have herase := hfr.settled.erase_cons htodo
        unfold unwind
        rw [htodo, herase]
        exact hrest

theorem unwindTarget_erase (fr : Frame) {stack : Config} (mem : M) (target : Option Nat)
    (h : ∀ fr ∈ stack, Standing m fr) :
    unwindTarget (Module.erase m) sem fr.erase (stack.map Frame.erase) mem target
      = (unwindTarget m (sem.along (Module.unhinted m)) fr stack mem target).erase := by
  cases target with
  | some b => exact goTo_erase _ fr b _ mem stack
  | none => exact unwind_erase mem h

theorem callFrom_erase (callee : Callee) {fr : Frame} {stack : Config} (mem : M)
    (h : ∀ fr' ∈ fr :: stack, Standing m fr') :
    callFrom (Module.erase m) img sem callee fr.erase (stack.map Frame.erase) mem
      = (callFrom m img (sem.along (Module.unhinted m)) callee fr stack mem).erase := by
  have hfr := h fr (List.mem_cons_self ..)
  have henv : fr.erase.env = fr.env := rfl
  unfold callFrom
  rw [bodyOf_erase, henv]
  dsimp only [Sem.along]
  rw [site_unhinted hfr.placed]
  cases bodyOf m img fr.env callee with
  | some g => exact congrArg (State.mk · _) (enter_erase m _ g 0 (fr :: stack))
  | none =>
      dsimp only
      rcases sem.foreign fr.erase.site callee fr.env mem with ⟨outcome, env, mem⟩
      cases outcome with
      | returns => exact resume_erase _ env mem hfr.settled stack
      | unwinds => exact unwind_erase mem h
      | stays => rfl

theorem execTerm_erase {fr : Frame} {stack : Config} (mem : M)
    (h : ∀ fr' ∈ fr :: stack, Standing m fr') :
    execTerm (Module.erase m) img sem fr.erase (stack.map Frame.erase) mem
      = (execTerm m img (sem.along (Module.unhinted m)) fr stack mem).erase := by
  have hfr := h fr (List.mem_cons_self ..)
  have htail : ∀ fr' ∈ stack, Standing m fr' := fun fr' hfr' => h fr' (List.mem_cons_of_mem _ hfr')
  have hterm : fr.erase.pos.term = fr.pos.term := rfl
  have henv : fr.erase.env = fr.env := rfl
  have hfn : fr.erase.pos.fn = fr.pos.fn := rfl
  unfold execTerm
  rw [hterm, henv, hfn]
  cases fr.pos.term with
  | ret =>
      cases stack with
      | nil => rfl
      | cons caller stack =>
          have hcaller := htail caller (List.mem_cons_self ..)
          rw [List.map_cons]
          dsimp only [Sem.along]
          rw [site_unhinted hcaller.placed]
          exact resume_erase _ _ _ hcaller.settled stack
  | br dest => exact goTo_erase _ fr dest _ mem stack
  | condBr c t f => exact goTo_erase _ fr _ _ mem stack
  | switch c default cases => exact goTo_erase _ fr _ _ mem stack
  | indirectBr a dests =>
      dsimp only
      cases img.indirectDest? fr.pos.fn (fr.env.ptrtoint a) dests with
      | some b => exact goTo_erase _ fr b _ mem stack
      | none => rfl
  | invoke callee normal target => exact callFrom_erase callee mem h
  | resume =>
      dsimp only [Sem.along]
      rw [site_unhinted hfr.placed]
      exact unwind_erase _ htail
  | unreachable => rfl
  | cleanupRet target => exact unwindTarget_erase fr mem target htail
  | catchRet dest => exact goTo_erase _ fr dest _ mem stack
  | catchSwitch handlers target =>
      dsimp only [Sem.along]
      rw [site_unhinted hfr.placed]
      cases handlers[sem.handler fr.erase.site fr.env mem]? with
      | some b => exact goTo_erase _ fr b _ mem stack
      | none => exact unwindTarget_erase fr mem target htail

/-- A step that is no hint call is a step of the erased code. -/
theorem exec_erase {s : State M} (hs : ¬ AtHint s) (h : Steady m s.stack) :
    exec (Module.erase m) img sem s.erase
      = (exec m img (sem.along (Module.unhinted m)) s).erase := by
  obtain ⟨stack, mem⟩ := s
  cases stack with
  | nil => rfl
  | cons fr stack =>
      rcases htodo : fr.pos.todo with _ | ⟨i, rest⟩
      · have herase := erase_nil htodo
        unfold exec State.erase
        rw [List.map_cons]
        dsimp only
        rw [htodo, herase]
        exact execTerm_erase mem (standing_cons (settled_nil htodo) h)
      · have hi : i.isHint = false := by
          rw [Bool.eq_false_iff]
          exact fun hi => hs ⟨fr, stack, i, rest, rfl, htodo, hi⟩
        have herase := (settled_cons htodo hi).erase_cons htodo
        unfold exec State.erase
        rw [List.map_cons]
        dsimp only
        rw [htodo, herase]
        cases i with
        | call callee => exact callFrom_erase callee mem (standing_cons (settled_cons htodo hi) h)
        | other opcode =>
            dsimp only [Sem.along]
            rw [site_unhinted h.1, List.map_cons]
            simp only [Frame.erase, Position.advance, dropHints_cons (i := .other opcode) rfl]
        | _ => cases hi

/-- A hint call is a step of which the erased code knows nothing. -/
theorem exec_hint {fr : Frame} {stack : Config} {i : Inst} {rest : List Inst} (mem : M)
    (htodo : fr.pos.todo = i :: rest) (hi : i.isHint = true) :
    exec m img sem ⟨fr :: stack, mem⟩
      = ⟨⟨fr.pos.advance i rest, fr.env⟩ :: stack, mem⟩ := by
  unfold exec
  dsimp only
  rw [htodo]
  cases i with
  | call callee => cases hi
  | other opcode => cases hi
  | _ => rfl

theorem erase_advance {fr : Frame} {i : Inst} {rest : List Inst}
    (htodo : fr.pos.todo = i :: rest) (hi : i.isHint = true) :
    (⟨fr.pos.advance i rest, fr.env⟩ : Frame).erase = fr.erase := by
  simp only [Frame.erase, Position.advance, htodo, dropHints_cons_hint hi]

end Steps

end CfvHints

end Oat
