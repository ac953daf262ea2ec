import Oat.VeTargets

/-!
# `hookit`: the replay loop of the verify engine

The function that replays a binary along a trace, as a machine. Its
local variables are `Replay`; the body of the `for` loop is `forBody`,
with `dispatch` for the branch on the instruction id and one definition
per handler. `step` is one turn of either loop: the `while` loop restarts
the disassembler at `current_address`, the `for` loop takes the next
instruction from it, and a loop that ends goes through `afterFor`.

Capstone is an `Image`: what the disassembler yields at each address of
the file, if anything. `CsInsn` is what the engine reads of an
instruction. Console output is left out; the outfile is `ofd`, a list of
lines with their text in `Line.text`. Strings keep Python's substring
tests (`pyIn`).
-/

namespace Oat

namespace Ve

/-! ## Disassembled instructions -/

inductive InsnId where
  | bl | cset | b | br | blr | ret | tbz | tbnz | cbnz | cbz
  | other
deriving Repr, DecidableEq

/-- An instruction as Capstone reports it; `operands` are the `imm`
members. -/
structure CsInsn where
  id : InsnId
  address : Int
  mnemonic : String
  opStr : String
  operands : List Int
  bytes : List UInt8
deriving Repr, DecidableEq

/-- `i.operands[k].imm`. -/
def CsInsn.imm (i : CsInsn) (k : Nat) : Except PyError Int :=
  match i.operands[k]? with
  | none => .error .indexError
  | some v => .ok v

/-- The mapped file: its size, and what `md.disasm` yields at an address,
instruction after instruction, until it yields nothing. -/
structure Image where
  size : Int
  insnAt : Int → Option CsInsn
  address_eq : ∀ a i, insnAt a = some i → i.address = a

/-- The options `main` hands over. -/
structure Opts where
  loadAddress : Int
  textStart : Int
  textEnd : Int
  cfvInit : Int
  cfvQuote : Int
  omitAddresses : List Int
deriving Repr, DecidableEq

def isInfix (sub : List Char) : List Char → Bool
  | [] => sub.isEmpty
  | c :: cs => sub.isPrefixOf (c :: cs) || isInfix sub cs

/-- `sub in s`. -/
def pyIn (sub s : String) : Bool := isInfix sub.toList s.toList

/-! ## The outfile -/

/-- The lines `hookit` writes. A conditional or direct branch has a
target when it is taken. -/
inductive Line where
  | start
  | bl (a t : Int)
  | blSkip (a : Int)
  | b (a : Int) (t : Option Int)
  | br (a : Int)
  | blr (a : Int)
  | ret (a t : Int)
  | tbz (a : Int) (t : Option Int)
  | tbnz (a : Int) (t : Option Int)
  | cbnz (a : Int) (t : Option Int)
  | cbz (a : Int) (t : Option Int)
deriving Repr, DecidableEq

/-- `0x%x`. -/
def hex (n : Int) : String :=
  "0x" ++ (if n < 0 then "-" else "") ++ String.ofList (Nat.toDigits 16 n.natAbs)

def Line.text : Line → String
  | .start => "start\n"
  | .bl a t => "[bl]" ++ hex a ++ " --> " ++ hex t ++ "\n"
  | .blSkip a => "[bl][skip]" ++ hex a ++ "\n"
  | .b a (some t) => "[b][y]" ++ hex a ++ " --> " ++ hex t ++ "\n"
  | .b a none => "[b][n]" ++ hex a ++ "\n"
  | .br a => "error[br]" ++ hex a ++ "\n"
  | .blr a => "error[blr]" ++ hex a ++ "\n"
  | .ret a t => "[ret]" ++ hex a ++ " --> " ++ hex t ++ "\n"
  | .tbz a (some t) => "[tbz][y]" ++ hex a ++ " --> " ++ hex t ++ "\n"
  | .tbz a none => "[tbz][n]" ++ hex a ++ "\n"
  | .tbnz a (some t) => "[tnbz][y]" ++ hex a ++ " --> " ++ hex t ++ "\n"
  | .tbnz a none => "[tbnz][n]" ++ hex a ++ "\n"
  | .cbnz a (some t) => "[cbnz][y]" ++ hex a ++ " --> " ++ hex t ++ "\n"
  | .cbnz a none => "[cbnz][n]" ++ hex a ++ "\n"
  | .cbz a (some t) => "[cbz][y]" ++ hex a ++ " --> " ++ hex t ++ "\n"
  | .cbz a none => "[cbz][n]" ++ hex a ++ "\n"

/-! ## Flags -/

/-- `last_flag`: `'eq'` (initially), `'e'` or `'lg'`. -/
inductive LastFlag where
  | eq
  | e
  | lg
deriving Repr, DecidableEq

structure Flags where
  lastFlag : LastFlag
  lastNeFlag : Bool
  lastLtFlag : Bool
deriving Repr, DecidableEq

def Flags.init : Flags := ⟨.eq, false, false⟩

/-- The CSET case of the loop, on the operand string. -/
def Flags.cset (f : Flags) (opStr : String) : Flags :=
  if pyIn "ne" opStr then { f with lastNeFlag := true, lastFlag := .e }
  else if pyIn "eq" opStr then { f with lastNeFlag := false }
  else if pyIn "gt" opStr then { f with lastLtFlag := false, lastFlag := .lg }
  else if pyIn "lt" opStr then { f with lastLtFlag := true, lastFlag := .lg }
  else f

/-- The flag passed to `handle_branch`. -/
def Flags.forBranch (f : Flags) : Bool :=
  if f.lastFlag = .e then f.lastNeFlag else f.lastLtFlag

/-! ## Handlers -/

/-- `res`: whether the branch is taken, and where to. -/
structure BranchRes where
  taken : Bool
  target : Int
deriving Repr, DecidableEq

def NextBranch.flip : NextBranch → NextBranch
  | .y => .n
  | .n => .y
  | .e => .e

/-- The `flip_cond` chain of `handle_branch`. -/
def flipCond (mnemonic : String) (lastNeFlag : Bool) : Bool :=
  if pyIn "eq" mnemonic ∧ lastNeFlag then true
  else if pyIn "eq" mnemonic ∧ lastNeFlag = false then false
  else if pyIn "ne" mnemonic ∧ lastNeFlag then false
  else if pyIn "ne" mnemonic ∧ lastNeFlag = false then true
  else if pyIn "lt" mnemonic ∧ lastNeFlag then false
  else if pyIn "lt" mnemonic ∧ lastNeFlag = false then true
  else if pyIn "gt" mnemonic ∧ lastNeFlag then true
  else if pyIn "gt" mnemonic ∧ lastNeFlag = false then false
  else true -- can't decide!

/-- Ask the trace, flip the answer if told to, and take the branch to
operand `k` if it is `'y'`. The answer `'e'` takes it nowhere. -/
def followTrace (i : CsInsn) (k : Nat) (trace : ExecutionTrace) (flipIt : Bool) :
    Except PyError (BranchRes × ExecutionTrace) := do
  let (nextBranch, trace) ← trace.nextBranch
  match if flipIt then nextBranch.flip else nextBranch with
  | .y =>
      let t ← i.imm k
      pure (⟨true, t⟩, trace)
  | .n => pure (⟨false, 0⟩, trace)
  | .e => pure (⟨false, 0⟩, trace)

def handleBranch (i : CsInsn) (opts : Opts) (trace : ExecutionTrace) (lastNeFlag : Bool) :
    Except PyError (BranchRes × ExecutionTrace) := do
  let targetAddress ← i.imm 0
  if pyIn "b." i.mnemonic then followTrace i 0 trace (flipCond i.mnemonic lastNeFlag)
  else if targetAddress < opts.textEnd then pure (⟨true, targetAddress⟩, trace)
  else pure (⟨false, 0⟩, trace)

/-- `handle_cond_branch` takes its target from operand 1 whatever the
instruction. -/
def handleCondBranch (i : CsInsn) (trace : ExecutionTrace) (flipIt : Bool) :
    Except PyError (BranchRes × ExecutionTrace) := do
  let _ ← i.imm 0
  followTrace i 1 trace flipIt

def handleCbz (i : CsInsn) (trace : ExecutionTrace) (lastNeFlag : Bool) :
    Except PyError (BranchRes × ExecutionTrace) :=
  if lastNeFlag then handleCondBranch i trace true else handleCondBranch i trace false

def handleCbnz (i : CsInsn) (trace : ExecutionTrace) (lastNeFlag : Bool) :
    Except PyError (BranchRes × ExecutionTrace) :=
  if lastNeFlag then handleCondBranch i trace false else handleCondBranch i trace true

def handleTbz (i : CsInsn) (trace : ExecutionTrace) (lastNeFlag : Bool) :
    Except PyError (BranchRes × ExecutionTrace) :=
  if lastNeFlag then handleCondBranch i trace true else handleCondBranch i trace false

def handleTbnz (i : CsInsn) (trace : ExecutionTrace) (lastNeFlag : Bool) :
    Except PyError (BranchRes × ExecutionTrace) :=
  if lastNeFlag then handleCondBranch i trace false else handleCondBranch i trace true

def isAttestationStart (i : CsInsn) (opts : Opts) : Except PyError Bool := do
  let t ← i.imm 0
  pure (decide (t = opts.cfvInit))

def isAttestationEnd (i : CsInsn) (opts : Opts) : Except PyError Bool := do
  let t ← i.imm 0
  pure (decide (t = opts.cfvQuote))

def handleBranchWithLink (i : CsInsn) (opts : Opts) : Except PyError BranchRes := do
  let targetAddr ← getBranchTarget i.address i.bytes
  if targetAddr = opts.cfvInit then pure ⟨false, 0⟩
  else if targetAddr = opts.cfvQuote then pure ⟨false, 0⟩
  else if targetAddr < opts.textStart then pure ⟨false, 0⟩
  else pure ⟨true, targetAddr⟩

/-! ## The body of the `for` loop -/

/-- The local variables of `hookit`. `i` is the address of the loop
variable once it is bound; the top of `stack` is its head. -/
structure Replay where
  replayStart : Bool
  replayStop : Bool
  taken : Bool
  targetAddress : Int
  trace : ExecutionTrace
  stack : List Int
  ofd : List Line
  flags : Flags
  currentAddress : Int
  prevAddress : Int
  i : Option Int
deriving Repr, DecidableEq

namespace Replay

def write (s : Replay) (line : Line) : Replay := { s with ofd := s.ofd ++ [line] }

def take (s : Replay) (t : Int) : Replay := { s with taken := true, targetAddress := t }

end Replay

/-- How a case of the dispatch ends: `continue`, `break`, or falling
through to the checks below it. -/
inductive Flow where
  | cont
  | brk
  | pass
deriving Repr, DecidableEq

/-- What the direct and conditional branches do with the result of their
handler. -/
def branchOn (s : Replay) (res : BranchRes) (trace : ExecutionTrace)
    (line : Option Int → Line) : Flow × Replay :=
  let s := { s with trace := trace }
  if res.taken then (.brk, (s.take res.target).write (line (some res.target)))
  else (.pass, s.write (line none))

/-- The chain of cases on `i.id`. -/
def dispatch (opts : Opts) (i : CsInsn) (s : Replay) : Except PyError (Flow × Replay) :=
  match i.id with
  | .bl => do
      if ← isAttestationStart i opts then
        pure (.cont, { s with replayStart := true }.write .start)
      else
        let stop ← isAttestationEnd i opts
        let s := if stop then { s with replayStop := true, replayStart := false } else s
        if s.replayStart then
          let res ← handleBranchWithLink i opts
          if res.taken then
            pure (.brk, { s.take res.target with stack := (i.address + 4) :: s.stack }.write
              (.bl i.address res.target))
          else pure (.pass, s.write (.blSkip i.address))
        else pure (.pass, s)
  | .cset =>
      if s.replayStart then pure (.pass, { s with flags := s.flags.cset i.opStr })
      else pure (.pass, s)
  | .b =>
      if s.replayStart then do
        let (res, trace) ← handleBranch i opts s.trace s.flags.forBranch
        pure (branchOn s res trace (.b i.address))
      else pure (.pass, s)
  | .br => pure (.pass, if s.replayStart then s.write (.br i.address) else s)
  | .blr => pure (.pass, if s.replayStart then s.write (.blr i.address) else s)
  | .ret =>
      if s.replayStart then
        match s.stack with
        | [] => .error .indexError -- `stack.pop()`
        | t :: stack => pure (.brk, { s.take t with stack := stack }.write (.ret i.address t))
      else pure (.pass, s)
  | .tbz =>
      if s.replayStart then do
        let (res, trace) ← handleTbz i s.trace s.flags.lastNeFlag
        pure (branchOn s res trace (.tbz i.address))
      else pure (.pass, s)
  | .tbnz =>
      if s.replayStart then do
        let (res, trace) ← handleTbnz i s.trace s.flags.lastNeFlag
        pure (branchOn s res trace (.tbnz i.address))
      else pure (.pass, s)
  | .cbnz =>
      if s.replayStart then do
        let (res, trace) ← handleCbnz i s.trace s.flags.lastNeFlag
        pure (branchOn s res trace (.cbnz i.address))
      else pure (.pass, s)
  | .cbz =>
      if s.replayStart then do
        let (res, trace) ← handleCbz i s.trace s.flags.lastNeFlag
        pure (branchOn s res trace (.cbz i.address))
      else pure (.pass, s)
  | .other => pure (.pass, s)

def pastEnd (opts : Opts) (i : CsInsn) : Bool := decide (opts.textEnd ≤ i.address)

/-- The body of the loop: whether it breaks, and the variables after. -/
def forBody (opts : Opts) (i : CsInsn) (s : Replay) : Except PyError (Bool × Replay) :=
  let s := { s with i := some i.address }
  -- Workaround for md.disasm returning dublicate instructions
  if i.address = s.prevAddress then pure (false, s)
  else
    let s := { s with prevAddress := i.address }
    if i.address ∈ opts.omitAddresses then pure (pastEnd opts i, s)
    else do
      let (flow, s) ← dispatch opts i s
      match flow with
      | .cont => pure (false, s)
      | .brk => pure (true, s)
      | .pass => pure (pastEnd opts i || s.taken, s)

/-! ## The machine -/

/-- Where `hookit` is: at the head of the `while` loop, in the `for` loop
with the disassembler at an address, returned, or left by an
exception. -/
inductive Mode where
  | outer
  | scan (g : Int)
  | finished
  | raised (err : PyError)
deriving Repr, DecidableEq

structure Conf where
  vars : Replay
  mode : Mode
deriving Repr, DecidableEq

/-- Where the `while` loop goes on: at the target of a taken branch, at
the last instruction, or one word on. -/
def nextAddress (s : Replay) : Int :=
  if s.taken then s.targetAddress
  else if s.currentAddress < s.i.getD 0 then s.i.getD 0
  else s.currentAddress + 4

/-- The end of a turn of the `while` loop. Seeking to a negative offset
raises, and is caught. -/
def afterFor (opts : Opts) (img : Image) (s : Replay) : Conf :=
  if s.taken = false ∧ s.i = none then ⟨s, .raised .nameError⟩
  else
    let s := { s with currentAddress := nextAddress s }
    ⟨s,
      if opts.textEnd ≤ s.currentAddress ∨ opts.loadAddress + img.size ≤ s.currentAddress then
        .finished
      else if s.currentAddress < opts.loadAddress then .finished
      else if s.replayStop then .finished
      else .outer⟩

/-- One turn of a loop. -/
def step (opts : Opts) (img : Image) (c : Conf) : Conf :=
  match c.mode with
  | .outer =>
      let s := { c.vars with taken := false }
      if s.replayStop then ⟨s, .finished⟩ else ⟨s, .scan s.currentAddress⟩
  | .scan g =>
      match img.insnAt g with
      | none => afterFor opts img c.vars
      | some i =>
          match forBody opts i c.vars with
          | .error err => ⟨c.vars, .raised err⟩
          | .ok (true, s) => afterFor opts img s
          | .ok (false, s) => ⟨s, .scan (g + 4)⟩
  | .finished => c
  | .raised _ => c

def Replay.init (trace : ExecutionTrace) (current : Int) : Replay where
  replayStart := false
  replayStop := false
  taken := false
  targetAddress := 0
  trace := trace
  stack := []
  ofd := []
  flags := Flags.init
  currentAddress := current
  prevAddress := -0x0001
  i := none

/-- `hookit` up to its `while` loop. -/
def hookitStart (opts : Opts) (img : Image) (tracefile : List UInt8) : Except PyError Conf := do
  let trace ← ExecutionTrace.init tracefile
  let offset := opts.textStart - opts.loadAddress
  if offset < 0 ∨ img.size < offset then .error .valueError
  else .ok ⟨Replay.init trace (opts.loadAddress + offset), .outer⟩

end Ve

end Oat
