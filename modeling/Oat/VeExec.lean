import Oat.VeRun

/-!
# Executions of an attested program

An execution is a list of executed instructions, each with the address
that is executed next; `Executes` says that it is a path through the
text, and `Window` that it leads from a call of `cfv_init` to the next
call of `cfv_quote`. A RET goes wherever the link register says, so any
address may follow it; a BL below the text is a call into a library,
which returns to the next instruction, and so are the calls of
`cfv_init`.

`Executed.lines` is what the outfile should say of an instruction.
`Progress` is what the replay has to carry along the path: the return
addresses of the calls, the flags, and the trace. In its terms,
`Decided` is that `hookit` decides a conditional branch the way it went,
and `Followed` is what else it takes for `hookit` to stay on the path.
-/

namespace Oat

namespace Ve

open A64

/-! ## The path -/

structure Executed where
  pc : Int
  insn : Insn
  taken : Bool
  next : Int
deriving Repr, DecidableEq

/-- Addresses of instructions of the text. -/
def Opts.InText (opts : Opts) (a : Int) : Prop :=
  opts.textStart ≤ a ∧ a < opts.textEnd ∧ (a - opts.textStart) % 4 = 0

instance (opts : Opts) (a : Int) : Decidable (opts.InText a) := inferInstanceAs (Decidable (_ ∧ _))

/-- The BL leads into the text, and not to `cfv_init`. -/
def callsText (opts : Opts) (a : Int) (imm26 : BitVec 26) : Bool :=
  target a imm26 ≠ opts.cfvInit ∧ opts.textStart ≤ target a imm26

/-- Where an instruction leads. `taken` is read for the conditional
branches only. -/
def Executed.flows (opts : Opts) (e : Executed) : Bool :=
  match e.insn with
  | .other _ => e.next = e.pc + 4
  | .cset _ _ _ => e.next = e.pc + 4
  | .b imm26 => e.next = target e.pc imm26
  | .bl imm26 => e.next = if callsText opts e.pc imm26 then target e.pc imm26 else e.pc + 4
  | .ret _ => true
  | .br _ => false
  | .blr _ => false
  | .bCond _ imm19 => e.next = if e.taken then target e.pc imm19 else e.pc + 4
  | .cbz _ imm19 _ => e.next = if e.taken then target e.pc imm19 else e.pc + 4
  | .cbnz _ imm19 _ => e.next = if e.taken then target e.pc imm19 else e.pc + 4
  | .tbz _ imm14 _ => e.next = if e.taken then target e.pc imm14 else e.pc + 4
  | .tbnz _ imm14 _ => e.next = if e.taken then target e.pc imm14 else e.pc + 4

/-- A path from `a` to `q` that does not call `cfv_quote`. -/
def Executes (opts : Opts) (fetch : Int → Option Insn) : Int → List Executed → Int → Prop
  | a, [], q => a = q
  | a, e :: es, q => e.pc = a ∧ opts.InText a ∧ fetch a = some e.insn
      ∧ e.insn.calls a opts.cfvQuote = false ∧ e.flows opts = true
      ∧ Executes opts fetch e.next es q

instance (opts : Opts) (fetch : Int → Option Insn) : ∀ (a : Int) (es : List Executed) (q : Int),
    Decidable (Executes opts fetch a es q)
  | a, [], q => inferInstanceAs (Decidable (a = q))
  | _, e :: es, q =>
      have := instDecidableExecutes opts fetch e.next es q
      inferInstanceAs (Decidable (_ ∧ _))

def callsAt (fetch : Int → Option Insn) (a t : Int) : Bool :=
  (fetch a).any fun insn => insn.calls a t

/-- `hookit` comes across a BL to `t` at `a`. -/
def seesCall (opts : Opts) (fetch : Int → Option Insn) (a t : Int) : Bool :=
  a ∉ opts.omitAddresses ∧ callsAt fetch a t = true

/-- An execution from the `bl cfv_init` at `a` to the `bl cfv_quote` at
`q`. -/
structure Window (opts : Opts) (fetch : Int → Option Insn) (a : Int) (es : List Executed)
    (q : Int) : Prop where
  inText : opts.InText a ∧ opts.InText q
  init : callsAt fetch a opts.cfvInit = true
  path : Executes opts fetch (a + 4) es q
  quote : callsAt fetch q opts.cfvQuote = true

/-- The control transfer of an instruction, as a line of the outfile. A
call of `cfv_init` has its line as well. -/
def Executed.lines (opts : Opts) (e : Executed) : List Line :=
  match e.insn with
  | .other _ => []
  | .cset _ _ _ => []
  | .br _ => []
  | .blr _ => []
  | .b _ => [.b e.pc (some e.next)]
  | .bl imm26 =>
      if target e.pc imm26 = opts.cfvInit then [.start]
      else if callsText opts e.pc imm26 then [.bl e.pc e.next]
      else [.blSkip e.pc]
  | .ret _ => [.ret e.pc e.next]
  | insn => [condLine e.pc (if e.taken then some e.next else none) insn]

/-! ## Along the path -/

/-- The returns that are pending (the last call first), the flags, and
the trace. -/
structure Progress where
  pending : List Int
  flags : Flags
  trace : ExecutionTrace
deriving Repr, DecidableEq

def ExecutionTrace.advance (t : ExecutionTrace) : ExecutionTrace :=
  match t.nextBranch with
  | .ok (_, t') => t'
  | .error _ => t

def Progress.after (opts : Opts) (p : Progress) (e : Executed) : Progress where
  pending :=
    match e.insn with
    | .bl imm26 => if callsText opts e.pc imm26 then (e.pc + 4) :: p.pending else p.pending
    | .ret _ => p.pending.tail
    | _ => p.pending
  flags := p.flags.after e.insn
  trace := if e.insn.isCondBranch then p.trace.advance else p.trace

/-- A conditional branch is decided the way it went. -/
def Decided (p : Progress) (e : Executed) : Prop :=
  e.insn.isCondBranch = true →
    (p.trace.nextBranch.map fun r => takes e.insn p.flags r.1) = .ok e.taken

instance (p : Progress) (e : Executed) : Decidable (Decided p e) :=
  inferInstanceAs (Decidable (_ → _))

/-- The target as `hookit` sees it is where the instruction leads. -/
def seesTarget (opts : Opts) (p : Progress) (e : Executed) : Bool :=
  match e.insn with
  | .bl imm26 =>
      if callsText opts e.pc imm26 then blTarget e.pc imm26 = target e.pc imm26
      else target e.pc imm26 = opts.cfvInit ∨ blCalls opts e.pc imm26 = false
  | .ret _ => p.pending.head? = some e.next
  | .tbz bit _ _ => e.taken = true → (bit.val : Int) = e.next
  | .tbnz bit _ _ => e.taken = true → (bit.val : Int) = e.next
  | _ => true

/-- What it takes to follow an instruction: it does not lead to itself,
and its target is seen. -/
structure Followed (opts : Opts) (p : Progress) (e : Executed) : Prop where
  moves : e.next ≠ e.pc
  sees : seesTarget opts p e = true

instance (opts : Opts) (p : Progress) (e : Executed) : Decidable (Followed opts p e) :=
  decidable_of_iff (e.next ≠ e.pc ∧ seesTarget opts p e = true)
    ⟨fun h => ⟨h.1, h.2⟩, fun h => ⟨h.moves, h.sees⟩⟩

/-- `C` holds of each instruction, at the progress made before it. -/
def Along (opts : Opts) (C : Progress → Executed → Prop) : Progress → List Executed → Prop
  | _, [] => True
  | p, e :: es => C p e ∧ Along opts C (p.after opts e) es

instance (opts : Opts) (C : Progress → Executed → Prop) [∀ p e, Decidable (C p e)] :
    ∀ (p : Progress) (es : List Executed), Decidable (Along opts C p es)
  | _, [] => isTrue trivial
  | p, e :: es =>
      have := instDecidableAlong opts C (p.after opts e) es
      inferInstanceAs (Decidable (_ ∧ _))

/-! ## When the replay follows -/

/-- The replay starts where the execution does: nothing that is executed
is omitted, the search for `bl cfv_init` finds the one at `a` first, and
it does not come across `bl cfv_quote`. -/
structure Found (opts : Opts) (fetch : Int → Option Insn) (a : Int) (es : List Executed)
    (q : Int) : Prop where
  shown : ∀ pc ∈ a :: q :: es.map (·.pc), pc ∉ opts.omitAddresses
  before : ∀ a', opts.InText a' → a' < a →
    seesCall opts fetch a' opts.cfvInit = false ∧ seesCall opts fetch a' opts.cfvQuote = false

/-- It stays on the path, and no `bl cfv_init` lies between the
`bl cfv_quote` and the end of the text, or just past it. -/
structure FollowsPath (opts : Opts) (fetch : Int → Option Insn) (trace : ExecutionTrace)
    (es : List Executed) (q : Int) : Prop where
  path : Along opts (Followed opts) ⟨[], Flags.init, trace⟩ es
  later : ∀ a', q < a' → a' < opts.textEnd + 4 → (a' - opts.textStart) % 4 = 0 →
    seesCall opts fetch a' opts.cfvInit = false

end Ve

end Oat
