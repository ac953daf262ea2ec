import Oat.Lockstep

/-!
# The hint passes: `CollectIBranchHints`, `CollectICallHints`, `CollectCondBranchHints`

LLVM functions with the control flow of LLVM 4.0 and nothing else: an
SSA value is a number, and an instruction that is neither a call nor one
of the hint calls is `other`. The three passes are loaded into `opt` in
the order of `hintPasses`.

`hints_determine_path` speaks of runs. The values a run computes are not
modelled: each visit of a basic block carries the values its uses see,
chosen freely, so that the runs here include every run of the program.
A hint call is the instruction right before the branch or the call it is
about, so what the invariant has to carry is only that the instruction
executed last put out the same in both runs (`Primed`).
-/

namespace Oat

namespace CfvHints

/-! ## Functions -/

abbrev Value := Nat

/-- The callee operand: a function, another constant (a cast or an alias,
here the function it stands for), inline assembly, or a value. -/
inductive Callee where
  | function (name : String)
  | constant (name : String)
  | asm
  | value (v : Value)
deriving Repr, DecidableEq

/-- The two address hints stand for the `ptrtoint` and the call after it. -/
inductive Inst where
  | call (callee : Callee)
  | collectCondBranchHints (cond : Value)
  | collectIBranchHints (fid count : Nat) (target : Value)
  | collectICallHints (fid count : Nat) (target : Value)
  | other (opcode : Nat)
deriving Repr, DecidableEq

/-- Blocks are named by their place in the function. -/
inductive Terminator where
  | ret
  | br (dest : Nat)
  | condBr (cond : Value) (ifTrue ifFalse : Nat)
  | switch (cond : Value) (default : Nat) (cases : List (Nat × Nat))
  | indirectBr (address : Value) (dests : List Nat)
  | invoke (callee : Callee) (normal unwind : Nat)
  | resume
  | unreachable
  | cleanupRet (unwind : Option Nat)
  | catchRet (dest : Nat)
  | catchSwitch (handlers : List Nat) (unwind : Option Nat)
deriving Repr, DecidableEq

structure Block where
  insts : List Inst
  term : Terminator
deriving Repr, DecidableEq

/-- A declaration has no blocks. -/
structure Function where
  name : String
  optimizeNone : Bool
  blocks : List Block
deriving Repr, DecidableEq

abbrev Module := List Function

/-! ## The passes -/

/-- `fMap` and `FID`, the static members of a pass. -/
structure FunctionMap where
  fMap : List (String × Nat)
  fid : Nat
deriving Repr, DecidableEq

def FunctionMap.empty : FunctionMap := ⟨[], 0⟩

/-- The function id of a visit: a name already in the map gets the next
number, and `operator[]` puts in a new one with 0. -/
def FunctionMap.visit (m : FunctionMap) (name : String) : Nat × FunctionMap :=
  if (m.fMap.lookup name).isSome then (m.fid + 1, ⟨(name, m.fid + 1) :: m.fMap, m.fid + 1⟩)
  else (0, ⟨(name, 0) :: m.fMap, m.fid⟩)

/-- The loop over the functions, which carries the static members along. -/
def runOnFunctions (run : FunctionMap → Function → Function × FunctionMap) :
    FunctionMap → Module → Module
  | _, [] => []
  | m, f :: fs => (run m f).1 :: runOnFunctions run (run m f).2 fs

/-- `IRBuilder` at the terminator. -/
def Block.insertBeforeTerm (b : Block) (i : Inst) : Block := { b with insts := b.insts ++ [i] }

def instrumentIBranches (fid : Nat) : Nat → List Block → List Block
  | _, [] => []
  | count, b :: bs =>
      match b.term with
      | .indirectBr address _ =>
          b.insertBeforeTerm (.collectIBranchHints fid count address)
            :: instrumentIBranches fid (count + 1) bs
      | _ => b :: instrumentIBranches fid count bs

/-- `CollectIBranchHints::runOnFunction`; the pass manager keeps
declarations away from it. -/
def collectIBranchHints (m : FunctionMap) (f : Function) : Function × FunctionMap :=
  if f.blocks.isEmpty then (f, m)
  else ({ f with blocks := instrumentIBranches (m.visit f.name).1 0 f.blocks }, (m.visit f.name).2)

def instrumentICalls (fid : Nat) : Nat → List Inst → List Inst × Nat
  | count, [] => ([], count)
  | count, i :: is =>
      match i with
      | .call (.value v) =>
          let rest := instrumentICalls fid (count + 1) is
          (.collectICallHints fid count v :: i :: rest.1, rest.2)
      | _ =>
          let rest := instrumentICalls fid count is
          (i :: rest.1, rest.2)

/-- An invoke of inline assembly is left out: the cast built for it would
not pass the verifier. -/
def instrumentInvoke (fid count : Nat) (b : Block) : Block × Nat :=
  match b.term with
  | .invoke (.value v) _ _ => (b.insertBeforeTerm (.collectICallHints fid count v), count + 1)
  | _ => (b, count)

/-- The call sites of `findIndirectCallSites`, block by block. -/
def processBlocks (fid : Nat) : Nat → List Block → List Block
  | _, [] => []
  | count, b :: bs =>
      let calls := instrumentICalls fid count b.insts
      let invoke := instrumentInvoke fid calls.2 { b with insts := calls.1 }
      invoke.1 :: processBlocks fid invoke.2 bs

/-- `CollectICallHints::runOnModule` for one function. -/
def collectICallHints (m : FunctionMap) (f : Function) : Function × FunctionMap :=
  if f.blocks.isEmpty then (f, m)
  else if f.optimizeNone then (f, m)
  else ({ f with blocks := processBlocks (m.visit f.name).1 0 f.blocks }, (m.visit f.name).2)

def instrumentCondBranch (b : Block) : Block :=
  match b.term with
  | .condBr cond _ _ => b.insertBeforeTerm (.collectCondBranchHints cond)
  | _ => b

/-- `CollectCondBranchHints::runOnFunction`, built with `INSTRUMENT_ALL`.
Nothing is ever put into the `fMap` of this pass, and no id is used. -/
def collectCondBranchHints (f : Function) : Function :=
  { f with blocks := f.blocks.map instrumentCondBranch }

def hintPasses (m : Module) : Module :=
  (runOnFunctions collectICallHints FunctionMap.empty
    (runOnFunctions collectIBranchHints FunctionMap.empty m)).map collectCondBranchHints

/-! ## Runs -/

inductive Hint where
  | cond (taken : Bool)
  | ibranch (fid count : Nat) (target : BitVec 64)
  | icall (fid count : Nat) (target : BitVec 64)
deriving Repr, DecidableEq

abbrev Env := Value → Nat

/-- `ptrtoint` to `i64`. -/
def Env.ptrtoint (env : Env) (v : Value) : BitVec 64 := BitVec.ofNat 64 (env v)

def Env.taken (env : Env) (v : Value) : Bool := env v != 0

/-- What an instruction tells the attestation engine. -/
def Inst.hints (env : Env) : Inst → List Hint
  | .collectCondBranchHints c => [.cond (env.taken c)]
  | .collectIBranchHints fid count v => [.ibranch fid count (env.ptrtoint v)]
  | .collectICallHints fid count v => [.icall fid count (env.ptrtoint v)]
  | _ => []

/-- Where the program is loaded. -/
structure Image where
  functionAt : BitVec 64 → Option String
  blockAt : String → Nat → BitVec 64

/-- How a call of a function without a body ends. `stays` is for `exit`
and endless loops. -/
inductive Outcome where
  | returns
  | unwinds
  | stays
deriving Repr, DecidableEq

/-- What a step takes from outside: the values a visit that it begins
will see, the end of a call it makes, the handler a personality function
picks. -/
structure Data where
  env : Env
  outcome : Outcome
  handler : Nat

structure Position where
  fn : String
  block : Nat
  past : List Inst   -- executed in this visit, last first
  todo : List Inst
  term : Terminator
deriving Repr, DecidableEq

structure Frame where
  pos : Position
  env : Env

/-- The innermost frame is first. The run is over when no frame is left. -/
abbrev Config := List Frame

def Module.block? (m : Module) (fn : String) (b : Nat) : Option Block :=
  (m.find? fun f => f.name = fn).bind fun f => f.blocks[b]?

def enter (m : Module) (env : Env) (fn : String) (b : Nat) (stack : Config) : Config :=
  match Module.block? m fn b with
  | some block => ⟨⟨fn, b, [], block.insts, block.term⟩, env⟩ :: stack
  | none => []

def Position.advance (p : Position) (i : Inst) (rest : List Inst) : Position :=
  { p with past := i :: p.past, todo := rest }

/-- A callee returns: the caller is past the call. -/
def returnTo (m : Module) (env : Env) : Config → Config
  | [] => []
  | fr :: stack =>
      match fr.pos.todo, fr.pos.term with
      | .call callee :: rest, _ => { fr with pos := fr.pos.advance (.call callee) rest } :: stack
      | [], .invoke _ normal _ => enter m env fr.pos.fn normal stack
      | _, _ => []

/-- An exception leaves a callee: only an invoke stops it. -/
def unwindTo (m : Module) (env : Env) : Config → Config
  | [] => []
  | fr :: stack =>
      match fr.pos.todo, fr.pos.term with
      | [], .invoke _ _ unwind => enter m env fr.pos.fn unwind stack
      | _, _ => unwindTo m env stack

def resolve (img : Image) (env : Env) : Callee → Option String
  | .function name => some name
  | .constant name => some name
  | .asm => none
  | .value v => img.functionAt (env.ptrtoint v)

/-- The body a call runs, if it runs one of the module. -/
def bodyOf (m : Module) (img : Image) (env : Env) (callee : Callee) : Option String :=
  (resolve img env callee).filter fun g => (Module.block? m g 0).isSome

def foreignCall (m : Module) (d : Data) (stack : Config) : Config :=
  match d.outcome with
  | .returns => returnTo m d.env stack
  | .unwinds => unwindTo m d.env stack
  | .stays => []

def transfer (m : Module) (img : Image) (d : Data) (callee : Callee) (fr : Frame)
    (stack : Config) : Config :=
  match bodyOf m img fr.env callee with
  | some g => enter m d.env g 0 (fr :: stack)
  | none => foreignCall m d (fr :: stack)

def switchDest (env : Env) (cond : Value) (default : Nat) (cases : List (Nat × Nat)) : Nat :=
  (cases.lookup (env cond)).getD default

def Image.indirectDest? (img : Image) (fn : String) (addr : BitVec 64) (dests : List Nat) :
    Option Nat :=
  dests.find? fun d => img.blockAt fn d = addr

def unwindFrom (m : Module) (env : Env) (fn : String) (stack : Config) : Option Nat → Config
  | some b => enter m env fn b stack
  | none => unwindTo m env stack

def terminate (m : Module) (img : Image) (d : Data) (fr : Frame) (stack : Config) : Config :=
  let go (b : Nat) := enter m d.env fr.pos.fn b stack
  match fr.pos.term with
  | .ret => returnTo m d.env stack
  | .br dest => go dest
  | .condBr c t f => go (if fr.env.taken c then t else f)
  | .switch c default cases => go (switchDest fr.env c default cases)
  | .indirectBr a dests =>
      match img.indirectDest? fr.pos.fn (fr.env.ptrtoint a) dests with
      | some b => go b
      | none => []
  | .invoke callee _ _ => transfer m img d callee fr stack
  | .resume => unwindTo m d.env stack
  | .unreachable => []
  | .cleanupRet unwind => unwindFrom m d.env fr.pos.fn stack unwind
  | .catchRet dest => go dest
  | .catchSwitch handlers unwind =>
      match handlers[d.handler]? with
      | some b => go b
      | none => unwindFrom m d.env fr.pos.fn stack unwind

def step (m : Module) (img : Image) (d : Data) : Config → Config
  | [] => []
  | fr :: stack =>
      match fr.pos.todo with
      | [] => terminate m img d fr stack
      | .call callee :: _ => transfer m img d callee fr stack
      | i :: rest => { fr with pos := fr.pos.advance i rest } :: stack

/-- The run of `fn` from its entry block, given what comes from outside. -/
def run (m : Module) (img : Image) (fn : String) (data : Nat → Data) : Nat → Config
  | 0 => enter m (data 0).env fn 0 []
  | n + 1 => step m img (data (n + 1)) (run m img fn data n)

/-- The hint call a configuration is about to make. -/
def emitted : Config → List Hint
  | [] => []
  | fr :: _ => (fr.pos.todo.head?.map (Inst.hints fr.env)).getD []

/-- The basic block a configuration is at the start of. -/
def visited : Config → List (String × Nat)
  | [] => []
  | fr :: _ => if fr.pos.past = [] then [(fr.pos.fn, fr.pos.block)] else []

def hintsOf (m : Module) (img : Image) (fn : String) (data : Nat → Data) (n : Nat) : List Hint :=
  emitted (run m img fn data n)

def blocksOf (m : Module) (img : Image) (fn : String) (data : Nat → Data) (n : Nat) :
    List (String × Nat) :=
  visited (run m img fn data n)

/-! ## What the passes leave in a block -/

/-- `last` is the instruction before the one in question. -/
def CallHinted (last : Option Inst) : Inst → Prop
  | .call (.value v) => ∃ fid count, last = some (.collectICallHints fid count v)
  | _ => True

def CallsHinted : Option Inst → List Inst → Prop
  | _, [] => True
  | last, i :: rest => CallHinted last i ∧ CallsHinted (some i) rest

structure ICallHinted (b : Block) : Prop where
  calls : CallsHinted none b.insts
  invoke : ∀ v normal unwind, b.term = .invoke (.value v) normal unwind →
    ∃ fid count, b.insts.getLast? = some (.collectICallHints fid count v)

def IBranchHinted (b : Block) : Prop :=
  ∀ a dests, b.term = .indirectBr a dests →
    ∃ fid count, b.insts.getLast? = some (.collectIBranchHints fid count a)

def CondHinted (b : Block) : Prop :=
  ∀ c t f, b.term = .condBr c t f → b.insts.getLast? = some (.collectCondBranchHints c)

theorem CallsHinted.split {last : Option Inst} {xs ys : List Inst} {i : Inst}
    (h : CallsHinted last (xs ++ i :: ys)) : CallHinted (xs.getLast?.or last) i := by
  induction xs generalizing last with
  | nil => exact h.1
  | cons x xs ih =>
      have h' := ih h.2
      rcases hx : xs.getLast? with _ | y
      · rw [hx] at h'
        simpa [List.getLast?_cons, hx] using h'
      · rw [hx] at h'
        simpa [List.getLast?_cons, hx] using h'

theorem CallsHinted.concat {last : Option Inst} {xs : List Inst} {i : Inst}
    (h : CallsHinted last xs) (hi : ∀ l, CallHinted l i) : CallsHinted last (xs ++ [i]) := by
  induction xs generalizing last with
  | nil => exact ⟨hi last, trivial⟩
  | cons x xs ih => exact ⟨h.1, ih h.2⟩

theorem instrumentICalls_hinted (fid : Nat) (is : List Inst) (count : Nat) (last : Option Inst) :
    CallsHinted last (instrumentICalls fid count is).1 := by
  induction is generalizing count last with
  | nil => exact trivial
  | cons i is ih =>
      unfold instrumentICalls
      split
      · exact ⟨trivial, ⟨fid, count, rfl⟩, ih _ _⟩
      · rename_i hne
        refine ⟨?_, ih _ _⟩
        unfold CallHinted
        split
        · exact absurd rfl (hne _)
        · trivial

theorem instrumentICalls_getLast? (fid : Nat) (is : List Inst) (count : Nat) :
    (instrumentICalls fid count is).1.getLast? = is.getLast? := by
  induction is generalizing count with
  | nil => rfl
  | cons i is ih =>
      unfold instrumentICalls
      split <;> simp [List.getLast?_cons, ih]

theorem instrumentIBranches_hinted (fid : Nat) (bs : List Block) (count : Nat) :
    ∀ b ∈ instrumentIBranches fid count bs, IBranchHinted b := by
  induction bs generalizing count with
  | nil => intro b hb; cases hb
  | cons b₀ bs ih =>
      intro b hb
      unfold instrumentIBranches at hb
      split at hb
      · rcases List.mem_cons.mp hb with rfl | hb
        · intro a dests ht
          rename_i hterm
          obtain ⟨rfl, -⟩ := Terminator.indirectBr.inj (hterm.symm.trans ht)
          exact ⟨fid, count, List.getLast?_concat⟩
        · exact ih _ b hb
      · rcases List.mem_cons.mp hb with rfl | hb
        · intro a dests ht
          rename_i hne
          exact absurd ht (hne a dests)
        · exact ih _ b hb

theorem instrumentInvoke_hinted {fid count : Nat} {b : Block} (hcalls : CallsHinted none b.insts)
    (hb : IBranchHinted b) :
    ICallHinted (instrumentInvoke fid count b).1 ∧
      IBranchHinted (instrumentInvoke fid count b).1 := by
  unfold instrumentInvoke
  split
  · rename_i v normal unwind hterm
    refine ⟨⟨hcalls.concat fun _ => trivial, fun v' n u ht => ?_⟩, fun a dests ht => ?_⟩
    · obtain ⟨hv, -, -⟩ := Terminator.invoke.inj (hterm.symm.trans ht)
      obtain rfl := Callee.value.inj hv
      exact ⟨fid, count, List.getLast?_concat⟩
    · cases hterm.symm.trans ht
  · rename_i hne
    exact ⟨⟨hcalls, fun v n u ht => absurd ht (hne v n u)⟩, hb⟩

theorem processBlocks_hinted (fid : Nat) (bs : List Block) (count : Nat)
    (hbs : ∀ b ∈ bs, IBranchHinted b) :
    ∀ b ∈ processBlocks fid count bs, ICallHinted b ∧ IBranchHinted b := by
  induction bs generalizing count with
  | nil => intro b hb; cases hb
  | cons b₀ bs ih =>
      intro b hb
      rcases List.mem_cons.mp hb with rfl | hb
      · apply instrumentInvoke_hinted (instrumentICalls_hinted fid _ _ _)
        intro a dests ht
        obtain ⟨fid', count', h⟩ := hbs b₀ (List.mem_cons_self ..) a dests ht
        exact ⟨fid', count', (instrumentICalls_getLast? ..).trans h⟩
      · exact ih _ (fun b h => hbs b (List.mem_cons_of_mem _ h)) b hb

/-- What the invariant of a run asks of the blocks it runs. -/
structure Hinted (icalls : Bool) (b : Block) : Prop where
  ibranch : IBranchHinted b
  icall : icalls = true → ICallHinted b
  cond : CondHinted b

theorem instrumentCondBranch_hinted {icalls : Bool} {b : Block} (hi : IBranchHinted b)
    (hc : icalls = true → ICallHinted b) : Hinted icalls (instrumentCondBranch b) := by
  unfold instrumentCondBranch
  split
  · rename_i cond ifTrue ifFalse hterm
    refine ⟨fun a dests ht => ?_, fun h => ⟨(hc h).calls.concat fun _ => trivial, ?_⟩, ?_⟩
    · cases hterm.symm.trans ht
    · intro v n u ht
      cases hterm.symm.trans ht
    · intro c t f ht
      obtain ⟨rfl, -, -⟩ := Terminator.condBr.inj (hterm.symm.trans ht)
      exact List.getLast?_concat
  · rename_i hne
    exact ⟨hi, hc, fun c t f ht => absurd ht (hne c t f)⟩

theorem mem_runOnFunctions {run : FunctionMap → Function → Function × FunctionMap} {fs : Module}
    {m : FunctionMap} {f' : Function} (h : f' ∈ runOnFunctions run m fs) :
    ∃ m', ∃ f ∈ fs, f' = (run m' f).1 := by
  induction fs generalizing m with
  | nil => cases h
  | cons f fs ih =>
      rcases List.mem_cons.mp h with rfl | h
      · exact ⟨m, f, List.mem_cons_self .., rfl⟩
      · obtain ⟨m', f, hf, h⟩ := ih h
        exact ⟨m', f, List.mem_cons_of_mem _ hf, h⟩

theorem collectIBranchHints_hinted (m : FunctionMap) (f : Function) :
    ∀ b ∈ (collectIBranchHints m f).1.blocks, IBranchHinted b := by
  unfold collectIBranchHints
  split
  · rename_i hempty
    intro b hb
    rw [List.isEmpty_iff.mp hempty] at hb
    cases hb
  · exact instrumentIBranches_hinted _ _ _

theorem collectICallHints_hinted (m : FunctionMap) {f : Function}
    (hf : ∀ b ∈ f.blocks, IBranchHinted b) :
    ∀ b ∈ (collectICallHints m f).1.blocks, IBranchHinted b ∧
      ((collectICallHints m f).1.optimizeNone = false → ICallHinted b) := by
  unfold collectICallHints
  split
  · rename_i hempty
    intro b hb
    rw [List.isEmpty_iff.mp hempty] at hb
    cases hb
  · split
    · rename_i hnone
      exact fun b hb => ⟨hf b hb, fun h => Bool.noConfusion (hnone.symm.trans h)⟩
    · intro b hb
      have h := processBlocks_hinted _ _ _ hf b hb
      exact ⟨h.2, fun _ => h.1⟩

theorem hintPasses_hinted {m : Module} {f : Function} (hf : f ∈ hintPasses m) :
    ∀ b ∈ f.blocks, Hinted (!f.optimizeNone) b := by
  obtain ⟨f₂, hf₂, rfl⟩ := List.mem_map.mp hf
  obtain ⟨m₂, f₁, hf₁, rfl⟩ := mem_runOnFunctions hf₂
  obtain ⟨m₁, f₀, -, rfl⟩ := mem_runOnFunctions hf₁
  intro b hb
  obtain ⟨b₂, hb₂, rfl⟩ := List.mem_map.mp hb
  have h := collectICallHints_hinted m₂ (collectIBranchHints_hinted m₁ f₀) b₂ hb₂
  exact instrumentCondBranch_hinted h.1 fun hnone => h.2 ((Bool.not_eq_true' _).mp hnone)

/-- Whether the indirect calls of a function are instrumented. -/
def Module.hintsICalls (m : Module) (fn : String) : Bool :=
  (m.find? fun f => f.name = fn).any fun f => !f.optimizeNone

theorem hintPasses_block?_hinted {m : Module} {fn : String} {b : Nat} {block : Block}
    (h : Module.block? (hintPasses m) fn b = some block) :
    Hinted (Module.hintsICalls (hintPasses m) fn) block := by
  obtain ⟨f, hf, hb⟩ := Option.bind_eq_some_iff.mp h
  have hh := hintPasses_hinted (List.mem_of_find?_eq_some hf) block (List.mem_of_getElem? hb)
  simpa [Module.hintsICalls, hf] using hh

/-! ## Frames stay in the code -/

def Position.code (p : Position) : Block := ⟨p.past.reverse ++ p.todo, p.term⟩

def Placed (m : Module) (p : Position) : Prop := Module.block? m p.fn p.block = some p.code

def InCode (m : Module) (c : Config) : Prop := ∀ fr ∈ c, Placed m fr.pos

variable {m : Module} {img : Image}

theorem placed_advance {p : Position} {i : Inst} {rest : List Inst} (hp : Placed m p)
    (h : p.todo = i :: rest) : Placed m (p.advance i rest) := by
  have hcode : (p.advance i rest).code = p.code := by
    simp [Position.code, Position.advance, h]
  exact hp.trans (congrArg some hcode.symm)

theorem InCode.tail {fr : Frame} {stack : Config} (h : InCode m (fr :: stack)) : InCode m stack :=
  fun x hx => h x (List.mem_cons_of_mem _ hx)

theorem InCode.head {fr : Frame} {stack : Config} (h : InCode m (fr :: stack)) :
    Placed m fr.pos :=
  h fr (List.mem_cons_self ..)

theorem InCode.cons {fr : Frame} {stack : Config} (hfr : Placed m fr.pos) (h : InCode m stack) :
    InCode m (fr :: stack) := by
  intro x hx
  rcases List.mem_cons.mp hx with rfl | hx
  · exact hfr
  · exact h x hx

theorem inCode_nil : InCode m [] := fun _ h => nomatch h

theorem enter_inCode (env : Env) (fn : String) (b : Nat) {stack : Config} (h : InCode m stack) :
    InCode m (enter m env fn b stack) := by
  unfold enter
  split
  · rename_i hb
    exact h.cons hb
  · exact inCode_nil

theorem returnTo_inCode (env : Env) {c : Config} (h : InCode m c) :
    InCode m (returnTo m env c) := by
  cases c with
  | nil => exact inCode_nil
  | cons fr stack =>
      simp only [returnTo]
      split
      · rename_i htodo
        exact h.tail.cons (placed_advance h.head htodo)
      · exact enter_inCode _ _ _ h.tail
      · exact inCode_nil

theorem unwindTo_inCode (env : Env) {c : Config} (h : InCode m c) :
    InCode m (unwindTo m env c) := by
  induction c with
  | nil => exact inCode_nil
  | cons fr stack ih =>
      unfold unwindTo
      split
      · exact enter_inCode _ _ _ h.tail
      · exact ih h.tail

theorem transfer_inCode (d : Data) (callee : Callee) {fr : Frame} {stack : Config}
    (h : InCode m (fr :: stack)) : InCode m (transfer m img d callee fr stack) := by
  unfold transfer foreignCall
  split
  · exact enter_inCode _ _ _ h
  · split
    · exact returnTo_inCode _ h
    · exact unwindTo_inCode _ h
    · exact inCode_nil

theorem unwindFrom_inCode (env : Env) (fn : String) {stack : Config} (h : InCode m stack)
    (way : Option Nat) : InCode m (unwindFrom m env fn stack way) := by
  cases way with
  | none => exact unwindTo_inCode _ h
  | some b => exact enter_inCode _ _ _ h

theorem terminate_inCode (d : Data) {fr : Frame} {stack : Config} (h : InCode m (fr :: stack)) :
    InCode m (terminate m img d fr stack) := by
  unfold terminate
  cases fr.pos.term with
  | ret => exact returnTo_inCode _ h.tail
  | br dest => exact enter_inCode _ _ _ h.tail
  | condBr c t f => exact enter_inCode _ _ _ h.tail
  | switch c default cases => exact enter_inCode _ _ _ h.tail
  | indirectBr a dests =>
      dsimp only
      split
      · exact enter_inCode _ _ _ h.tail
      · exact inCode_nil
  | invoke callee normal unwind => exact transfer_inCode d callee h
  | resume => exact unwindTo_inCode _ h.tail
  | unreachable => exact inCode_nil
  | cleanupRet unwind => exact unwindFrom_inCode _ _ h.tail _
  | catchRet dest => exact enter_inCode _ _ _ h.tail
  | catchSwitch handlers unwind =>
      dsimp only
      split
      · exact enter_inCode _ _ _ h.tail
      · exact unwindFrom_inCode _ _ h.tail _

theorem step_inCode (d : Data) {c : Config} (h : InCode m c) : InCode m (step m img d c) := by
  cases c with
  | nil => exact inCode_nil
  | cons fr stack =>
      simp only [step]
      split
      · exact terminate_inCode d h
      · exact transfer_inCode d _ h
      · rename_i htodo
        exact h.tail.cons (placed_advance h.head htodo)

theorem run_inCode (fn : String) (data : Nat → Data) (n : Nat) : InCode m (run m img fn data n) := by
  induction n with
  | zero => exact enter_inCode _ _ _ inCode_nil
  | succ n ih => exact step_inCode _ ih

/-! ## Two runs -/

/-- The places a terminator may go on at by a choice that no hint tells;
`none` is the caller. -/
def Terminator.ways : Terminator → List (Option Nat)
  | .switch _ default cases => some default :: cases.map fun c => some c.2
  | .catchSwitch handlers unwind => handlers.map some ++ [unwind]
  | _ => []

def Terminator.oneWay (t : Terminator) : Bool := t.ways.all fun a => t.ways.all fun b => a = b

/-- A call into the module is told by its hint, or is direct; any other
call comes back. -/
def callCovered (m : Module) (img : Image) (d : Data) (fr : Frame) (callee : Callee) : Bool :=
  (match callee with
    | .value _ => Module.hintsICalls m fr.pos.fn
    | _ => true) &&
  ((bodyOf m img fr.env callee).isSome || d.outcome = .returns)

def covered (m : Module) (img : Image) (d : Data) : Config → Bool
  | [] => true
  | fr :: _ =>
      match fr.pos.todo with
      | .call callee :: _ => callCovered m img d fr callee
      | _ :: _ => true
      | [] =>
          match fr.pos.term with
          | .invoke callee _ _ => callCovered m img d fr callee
          | t => t.oneWay

def RunCovered (m : Module) (img : Image) (fn : String) (data : Nat → Data) : Prop :=
  ∀ n, covered m img (data (n + 1)) (run m img fn data n) = true

def places (c : Config) : List Position := c.map Frame.pos

/-- The hint call a configuration has just made. -/
def lastHints : Config → List Hint
  | [] => []
  | fr :: _ => (fr.pos.past.head?.map (Inst.hints fr.env)).getD []

/-- The relation between the two runs. -/
structure Related (c₁ c₂ : Config) : Prop where
  places : places c₁ = places c₂
  primed : lastHints c₁ = lastHints c₂

theorem Related.nil : Related [] [] := ⟨rfl, rfl⟩

theorem Related.cases {c₁ c₂ : Config} (h : Related c₁ c₂) :
    c₁ = [] ∧ c₂ = [] ∨ ∃ pos env₁ env₂ s₁ s₂, c₁ = ⟨pos, env₁⟩ :: s₁ ∧ c₂ = ⟨pos, env₂⟩ :: s₂ ∧
      CfvHints.places s₁ = CfvHints.places s₂ ∧
      (pos.past.head?.map (Inst.hints env₁)).getD [] =
        (pos.past.head?.map (Inst.hints env₂)).getD [] := by
  rcases c₁ with _ | ⟨⟨pos₁, env₁⟩, s₁⟩ <;> rcases c₂ with _ | ⟨⟨pos₂, env₂⟩, s₂⟩
  · exact .inl ⟨rfl, rfl⟩
  · exact absurd h.places (by simp [CfvHints.places])
  · exact absurd h.places (by simp [CfvHints.places])
  · obtain ⟨hpos, hs⟩ := List.cons.inj h.places
    obtain rfl : pos₁ = pos₂ := hpos
    exact .inr ⟨pos₁, env₁, env₂, s₁, s₂, rfl, rfl, hs, h.primed⟩

/-- The kinds of hint call put out equally many hints whatever the values are. -/
theorem Inst.hints_length (env₁ env₂ : Env) (i : Inst) :
    (i.hints env₁).length = (i.hints env₂).length := by
  cases i <;> rfl

theorem Related.emitted_length {c₁ c₂ : Config} (h : Related c₁ c₂) :
    (emitted c₁).length = (emitted c₂).length := by
  obtain ⟨rfl, rfl⟩ | ⟨pos, env₁, env₂, s₁, s₂, rfl, rfl, -, -⟩ := h.cases
  · rfl
  · rcases htodo : pos.todo with _ | ⟨i, rest⟩
    · simp [emitted, htodo]
    · simpa [emitted, htodo] using Inst.hints_length env₁ env₂ i

theorem Related.visited_eq {c₁ c₂ : Config} (h : Related c₁ c₂) : visited c₁ = visited c₂ := by
  obtain ⟨rfl, rfl⟩ | ⟨pos, env₁, env₂, s₁, s₂, rfl, rfl, -, -⟩ := h.cases
  · rfl
  · rfl

theorem places_cons_cases {fr : Frame} {s₁ c₂ : Config} (h : places (fr :: s₁) = places c₂) :
    ∃ env₂ s₂, c₂ = ⟨fr.pos, env₂⟩ :: s₂ ∧ places s₁ = places s₂ := by
  rcases c₂ with _ | ⟨⟨pos₂, env₂⟩, s₂⟩
  · exact absurd h (by simp [places])
  · obtain ⟨hpos, hs⟩ := List.cons.inj h
    obtain rfl : fr.pos = pos₂ := hpos
    exact ⟨env₂, s₂, rfl, hs⟩

theorem enter_related (env₁ env₂ : Env) (fn : String) (b : Nat) {s₁ s₂ : Config}
    (hs : places s₁ = places s₂) : Related (enter m env₁ fn b s₁) (enter m env₂ fn b s₂) := by
  unfold enter
  split
  · exact ⟨congrArg (List.cons _) hs, rfl⟩
  · exact .nil

theorem returnTo_related (env₁ env₂ : Env) {c₁ c₂ : Config} (h : places c₁ = places c₂) :
    Related (returnTo m env₁ c₁) (returnTo m env₂ c₂) := by
  rcases c₁ with _ | ⟨⟨pos, e₁⟩, s₁⟩
  · rw [List.map_eq_nil_iff.mp h.symm]
    exact .nil
  · obtain ⟨e₂, s₂, rfl, hs⟩ := places_cons_cases h
    simp only [returnTo]
    split
    · exact ⟨congrArg (List.cons _) hs, rfl⟩
    · exact enter_related _ _ _ _ hs
    · exact .nil

theorem unwindTo_related (env₁ env₂ : Env) {c₁ c₂ : Config} (h : places c₁ = places c₂) :
    Related (unwindTo m env₁ c₁) (unwindTo m env₂ c₂) := by
  induction c₁ generalizing c₂ with
  | nil =>
      rw [List.map_eq_nil_iff.mp h.symm]
      exact .nil
  | cons fr s₁ ih =>
      obtain ⟨e₂, s₂, rfl, hs⟩ := places_cons_cases h
      simp only [unwindTo]
      split
      · exact enter_related _ _ _ _ hs
      · exact ih hs

theorem unwindFrom_related (env₁ env₂ : Env) (fn : String) {s₁ s₂ : Config}
    (hs : places s₁ = places s₂) (way : Option Nat) :
    Related (unwindFrom m env₁ fn s₁ way) (unwindFrom m env₂ fn s₂ way) := by
  cases way with
  | none => exact unwindTo_related _ _ hs
  | some b => exact enter_related _ _ _ _ hs

/-- What a hint has told is the same in both runs. -/
theorem ptrtoint_eq_of_icall {env₁ env₂ : Env} {last : Option Inst} {v : Value}
    (hl : (last.map (Inst.hints env₁)).getD [] = (last.map (Inst.hints env₂)).getD [])
    (h : ∃ fid count, last = some (.collectICallHints fid count v)) :
    env₁.ptrtoint v = env₂.ptrtoint v := by
  obtain ⟨fid, count, rfl⟩ := h
  exact (Hint.icall.inj (List.cons.inj hl).1).2.2

theorem ptrtoint_eq_of_ibranch {env₁ env₂ : Env} {last : Option Inst} {v : Value}
    (hl : (last.map (Inst.hints env₁)).getD [] = (last.map (Inst.hints env₂)).getD [])
    (h : ∃ fid count, last = some (.collectIBranchHints fid count v)) :
    env₁.ptrtoint v = env₂.ptrtoint v := by
  obtain ⟨fid, count, rfl⟩ := h
  exact (Hint.ibranch.inj (List.cons.inj hl).1).2.2

theorem taken_eq_of_cond {env₁ env₂ : Env} {last : Option Inst} {v : Value}
    (hl : (last.map (Inst.hints env₁)).getD [] = (last.map (Inst.hints env₂)).getD [])
    (h : last = some (.collectCondBranchHints v)) : env₁.taken v = env₂.taken v := by
  subst h
  exact Hint.cond.inj (List.cons.inj hl).1

theorem transfer_related {d₁ d₂ : Data} {callee : Callee} {pos : Position} {env₁ env₂ : Env}
    {s₁ s₂ : Config} (hs : places s₁ = places s₂)
    (hl : (pos.past.head?.map (Inst.hints env₁)).getD [] =
      (pos.past.head?.map (Inst.hints env₂)).getD [])
    (hhint : ∀ v, callee = .value v → Module.hintsICalls m pos.fn = true →
      ∃ fid count, pos.past.head? = some (.collectICallHints fid count v))
    (h₁ : callCovered m img d₁ ⟨pos, env₁⟩ callee = true)
    (h₂ : callCovered m img d₂ ⟨pos, env₂⟩ callee = true) :
    Related (transfer m img d₁ callee ⟨pos, env₁⟩ s₁)
      (transfer m img d₂ callee ⟨pos, env₂⟩ s₂) := by
  have hbody : bodyOf m img env₁ callee = bodyOf m img env₂ callee := by
    cases callee with
    | value v =>
        have hicalls := (Bool.and_eq_true_iff.mp h₁).1
        have hv := ptrtoint_eq_of_icall hl (hhint v rfl hicalls)
        simp only [bodyOf, resolve, hv]
    | _ => rfl
  have hplaces : places (⟨pos, env₁⟩ :: s₁) = places (⟨pos, env₂⟩ :: s₂) :=
    congrArg (List.cons _) hs
  have ho₁ := (Bool.and_eq_true_iff.mp h₁).2
  have ho₂ := (Bool.and_eq_true_iff.mp h₂).2
  unfold transfer
  rw [← hbody]
  cases hg : bodyOf m img env₁ callee with
  | some g => exact enter_related _ _ _ _ hplaces
  | none =>
      have hret₁ : d₁.outcome = .returns := by simpa [hg] using ho₁
      have hret₂ : d₂.outcome = .returns := by simpa [← hbody, hg] using ho₂
      simp only [foreignCall, hret₁, hret₂]
      exact returnTo_related _ _ hplaces

theorem oneWay_eq {t : Terminator} (h : t.oneWay = true) {a b : Option Nat} (ha : a ∈ t.ways)
    (hb : b ∈ t.ways) : a = b := by
  have := List.all_eq_true.mp (List.all_eq_true.mp h a ha) b hb
  exact of_decide_eq_true this

theorem switchDest_mem_ways (env : Env) (c : Value) (default : Nat) (cases : List (Nat × Nat)) :
    some (switchDest env c default cases) ∈ (Terminator.switch c default cases).ways := by
  unfold switchDest
  rcases hl : cases.lookup (env c) with _ | b
  · exact List.mem_cons_self ..
  · apply List.mem_cons_of_mem
    obtain ⟨l₁, l₂, rfl, -⟩ := List.lookup_eq_some_iff.mp hl
    simp

variable (m img) in
/-- A catchswitch goes on at one of its ways. -/
theorem catchSwitch_way (d : Data) (fr : Frame) (stack : Config) {handlers : List Nat}
    {unwind : Option Nat} (h : fr.pos.term = .catchSwitch handlers unwind) :
    ∃ way ∈ (Terminator.catchSwitch handlers unwind).ways,
      terminate m img d fr stack = unwindFrom m d.env fr.pos.fn stack way := by
  unfold terminate
  rw [h]
  dsimp only
  cases hh : handlers[d.handler]? with
  | none => exact ⟨unwind, List.mem_append_right _ (List.mem_singleton.mpr rfl), rfl⟩
  | some b =>
      exact ⟨some b, List.mem_append_left _ (List.mem_map_of_mem (List.mem_of_getElem? hh)), rfl⟩

section Hinted

variable (hm : ∀ fn b block, Module.block? m fn b = some block →
  Hinted (Module.hintsICalls m fn) block)

include hm

theorem hinted_at_end {pos : Position} (hp : Placed m pos) (htodo : pos.todo = []) :
    Hinted (Module.hintsICalls m pos.fn) pos.code ∧ pos.code.term = pos.term ∧
      pos.code.insts.getLast? = pos.past.head? := by
  refine ⟨hm _ _ _ hp, rfl, ?_⟩
  simp [Position.code, htodo]

theorem call_hinted {pos : Position} {v : Value} {rest : List Inst} (hp : Placed m pos)
    (htodo : pos.todo = .call (.value v) :: rest) (hicalls : Module.hintsICalls m pos.fn = true) :
    ∃ fid count, pos.past.head? = some (.collectICallHints fid count v) := by
  have hcode : pos.code.insts = pos.past.reverse ++ .call (.value v) :: rest := by
    simp [Position.code, htodo]
  have hcalls := ((hm _ _ _ hp).icall hicalls).calls
  rw [hcode] at hcalls
  simpa [CallHinted] using hcalls.split

theorem terminate_related {d₁ d₂ : Data} {pos : Position} {env₁ env₂ : Env} {s₁ s₂ : Config}
    (hp : Placed m pos) (htodo : pos.todo = []) (hs : places s₁ = places s₂)
    (hl : (pos.past.head?.map (Inst.hints env₁)).getD [] =
      (pos.past.head?.map (Inst.hints env₂)).getD [])
    (h₁ : covered m img d₁ (⟨pos, env₁⟩ :: s₁) = true)
    (h₂ : covered m img d₂ (⟨pos, env₂⟩ :: s₂) = true) :
    Related (terminate m img d₁ ⟨pos, env₁⟩ s₁) (terminate m img d₂ ⟨pos, env₂⟩ s₂) := by
  obtain ⟨hb, hbterm, hlast⟩ := hinted_at_end hm hp htodo
  simp only [covered, htodo] at h₁ h₂
  cases hterm : pos.term with
  | ret =>
      simp only [terminate, hterm]
      exact returnTo_related _ _ hs
  | br dest =>
      simp only [terminate, hterm]
      exact enter_related _ _ _ _ hs
  | condBr c t f =>
      have hc := hb.cond c t f (hbterm.trans hterm)
      have htaken := taken_eq_of_cond hl (hlast.symm.trans hc)
      simp only [terminate, hterm, htaken]
      exact enter_related _ _ _ _ hs
  | switch c default cases =>
      -- every value leads to the same block
      rw [hterm] at h₁
      have hdest := oneWay_eq h₁ (switchDest_mem_ways env₁ c default cases)
        (switchDest_mem_ways env₂ c default cases)
      simp only [terminate, hterm, Option.some.inj hdest]
      exact enter_related _ _ _ _ hs
  | indirectBr a dests =>
      obtain ⟨fid, count, ha⟩ := hb.ibranch a dests (hbterm.trans hterm)
      have haddr := ptrtoint_eq_of_ibranch hl ⟨fid, count, hlast.symm.trans ha⟩
      simp only [terminate, hterm, haddr]
      split
      · exact enter_related _ _ _ _ hs
      · exact .nil
  | invoke callee normal unwind =>
      rw [hterm] at h₁ h₂
      simp only [terminate, hterm]
      refine transfer_related hs hl (fun v hv hicalls => ?_) h₁ h₂
      subst hv
      obtain ⟨fid, count, hcall⟩ := (hb.icall hicalls).invoke v normal unwind (hbterm.trans hterm)
      exact ⟨fid, count, hlast.symm.trans hcall⟩
  | resume =>
      simp only [terminate, hterm]
      exact unwindTo_related _ _ hs
  | unreachable =>
      simp only [terminate, hterm]
      exact .nil
  | cleanupRet unwind =>
      simp only [terminate, hterm]
      exact unwindFrom_related _ _ _ hs unwind
  | catchRet dest =>
      simp only [terminate, hterm]
      exact enter_related _ _ _ _ hs
  | catchSwitch handlers unwind =>
      rw [hterm] at h₁
      obtain ⟨w₁, hw₁, heq₁⟩ := catchSwitch_way m img d₁ ⟨pos, env₁⟩ s₁ hterm
      obtain ⟨w₂, hw₂, heq₂⟩ := catchSwitch_way m img d₂ ⟨pos, env₂⟩ s₂ hterm
      rw [heq₁, heq₂, oneWay_eq h₁ hw₁ hw₂]
      exact unwindFrom_related _ _ _ hs w₂

theorem step_related {d₁ d₂ : Data} {c₁ c₂ : Config} (hcode : InCode m c₁) (h : Related c₁ c₂)
    (hsame : emitted c₁ = emitted c₂) (h₁ : covered m img d₁ c₁ = true)
    (h₂ : covered m img d₂ c₂ = true) : Related (step m img d₁ c₁) (step m img d₂ c₂) := by
  obtain ⟨rfl, rfl⟩ | ⟨pos, env₁, env₂, s₁, s₂, rfl, rfl, hs, hl⟩ := h.cases
  · exact .nil
  have hp : Placed m pos := hcode.head
  simp only [step]
  split
  · rename_i htodo
    exact terminate_related hm hp htodo hs hl h₁ h₂
  · rename_i callee rest htodo
    simp only [covered, htodo] at h₁ h₂
    refine transfer_related hs hl (fun v hv hicalls => ?_) h₁ h₂
    subst hv
    exact call_hinted hm hp htodo hicalls
  · rename_i i rest hne htodo
    -- what this instruction puts out is what the next step may rely on
    have hi : i.hints env₁ = i.hints env₂ := by
      simpa [emitted, htodo] using hsame
    exact ⟨congrArg (List.cons _) hs, hi⟩

end Hinted

/-- Two runs that emit the same hints visit the same basic blocks, as
long as they meet no switch (or catchswitch) with two ways out, make no
indirect call in a function `CollectICallHints` skips, and foreign code
comes back to its caller. -/
theorem hints_determine_path (m : Module) (img : Image) (fn : String) (e₁ e₂ : Nat → Data)
    (h₁ : RunCovered (hintPasses m) img fn e₁) (h₂ : RunCovered (hintPasses m) img fn e₂)
    (hsame : SameSequence (hintsOf (hintPasses m) img fn e₁) (hintsOf (hintPasses m) img fn e₂)) :
    SameSequence (blocksOf (hintPasses m) img fn e₁) (blocksOf (hintPasses m) img fn e₂) := by
  have hm : ∀ fn b block, Module.block? (hintPasses m) fn b = some block →
      Hinted (Module.hintsICalls (hintPasses m) fn) block :=
    fun _ _ _ h => hintPasses_block?_hinted h
  have h0 : Related (run (hintPasses m) img fn e₁ 0) (run (hintPasses m) img fn e₂ 0) :=
    enter_related _ _ _ _ rfl
  have hrel : ∀ n, Related (run (hintPasses m) img fn e₁ n) (run (hintPasses m) img fn e₂ n) := by
    refine lockstep h0 (fun _ _ h => h.emitted_length) (fun n h he => ?_) hsame
    exact step_related hm (run_inCode fn e₁ n) h he (h₁ n) (h₂ n)
  exact SameSequence.of_eq fun n => (hrel n).visited_eq

theorem run_over {fn : String} {data : Nat → Data} {N : Nat} (h : run m img fn data N = [])
    {n : Nat} (hn : N ≤ n) : run m img fn data n = [] := by
  induction hn with
  | refl => exact h
  | step _ ih => rw [run, ih]; rfl

theorem runCovered_of_over {fn : String} {data : Nat → Data} {N : Nat}
    (h : run m img fn data N = [])
    (hc : ∀ n < N, covered m img (data (n + 1)) (run m img fn data n) = true) :
    RunCovered m img fn data := by
  intro n
  rcases Nat.lt_or_ge n N with hn | hn
  · exact hc n hn
  · rw [run_over h hn]
    rfl

theorem sameHints_of_over {fn : String} {e₁ e₂ : Nat → Data} {N : Nat}
    (h₁ : run m img fn e₁ N = []) (h₂ : run m img fn e₂ N = [])
    (hs : ∀ n < N, hintsOf m img fn e₁ n = hintsOf m img fn e₂ n) :
    SameSequence (hintsOf m img fn e₁) (hintsOf m img fn e₂) := by
  apply SameSequence.of_eq
  intro n
  rcases Nat.lt_or_ge n N with hn | hn
  · exact hs n hn
  · rw [hintsOf, hintsOf, run_over h₁ hn, run_over h₂ hn]

/-- A handler called through a pointer, and a branch on value 0. -/
def dispatch : Module :=
  [⟨"dispatch", false, [⟨[.call (.value 3)], .condBr 0 1 2⟩, ⟨[], .ret⟩, ⟨[], .ret⟩]⟩,
   ⟨"handler", false, [⟨[.other 0], .ret⟩]⟩]

def dispatchImage : Image where
  functionAt a := if a = 64 then some "handler" else none
  blockAt _ b := BitVec.ofNat 64 b

def dispatchData (other : Nat) (_ : Nat) : Data where
  env v := if v = 0 then 1 else if v = 3 then 64 else other
  outcome := .returns
  handler := 0

theorem hints_determine_path_dispatch :
    blocksOf (hintPasses dispatch) dispatchImage "dispatch" (dispatchData 0) 2 = [("handler", 0)] ∧
    SameSequence (blocksOf (hintPasses dispatch) dispatchImage "dispatch" (dispatchData 0))
      (blocksOf (hintPasses dispatch) dispatchImage "dispatch" (dispatchData 7)) := by
  have hstop : ∀ k, run (hintPasses dispatch) dispatchImage "dispatch" (dispatchData k) 8 = [] :=
    fun _ => rfl
  refine ⟨rfl, hints_determine_path dispatch dispatchImage "dispatch" (dispatchData 0)
    (dispatchData 7) (runCovered_of_over (hstop 0) ?_) (runCovered_of_over (hstop 7) ?_)
    (sameHints_of_over (hstop 0) (hstop 7) ?_)⟩ <;> decide

/-- The two arms of a switch run under the same hints: none. -/
def twoArms : Module :=
  [⟨"twoArms", false, [⟨[], .switch 0 1 [(5, 2)]⟩, ⟨[], .ret⟩, ⟨[], .ret⟩]⟩]

def twoArmsData (arg : Nat) (_ : Nat) : Data where
  env _ := arg
  outcome := .returns
  handler := 0

theorem switch_unhinted :
    ¬ ∀ (m : Module) (img : Image) (fn : String) (e₁ e₂ : Nat → Data),
      SameSequence (hintsOf (hintPasses m) img fn e₁) (hintsOf (hintPasses m) img fn e₂) →
        SameSequence (blocksOf (hintPasses m) img fn e₁) (blocksOf (hintPasses m) img fn e₂) := by
  intro h
  have hstop4 : run (hintPasses twoArms) dispatchImage "twoArms" (twoArmsData 4) 3 = [] := rfl
  have hstop5 : run (hintPasses twoArms) dispatchImage "twoArms" (twoArmsData 5) 3 = [] := rfl
  have hsame := h twoArms dispatchImage "twoArms" (twoArmsData 4) (twoArmsData 5)
    (sameHints_of_over hstop4 hstop5 (by decide))
  obtain ⟨n, hn⟩ := hsame.1 3
  have hsilent : ∀ n, 3 ≤ n →
      blocksOf (hintPasses twoArms) dispatchImage "twoArms" (twoArmsData 5) n = [] := by
    intro n hn
    rw [blocksOf, run_over hstop5 hn]
    rfl
  have hpre := hn.trans (outUpTo_silent hsilent n)
  revert hpre
  decide

end CfvHints

end Oat
