import Oat.FoldRun

/-!
# The trampoline library: `cfv_bellman.c` and `nova.c`

The code linked into the attested program: `cfv_init` and `cfv_quote`
around a session with the TA, and the hooks the instrumentation calls in
between. A hook sends an event and, for the conditional and indirect
ones, writes a hint to the hints file.

The TEE client API is a parameter (`Teec`): any client library with any
TA behind it. `sent` is a history variable, the commands a client has
sent with their results. A failed check ends the process with `exit (1)`.
Standard output, timing and the performance counters are left out.
-/

namespace Oat

namespace Tl

/-! ## The TEE client API -/

abbrev TEECResult := UInt32

def teecSuccess : TEECResult := 0x00000000

def teecNone : UInt32 := 0x00000000
def teecValueInout : UInt32 := 0x00000003

def teecParamTypes (p0 p1 p2 p3 : UInt32) : UInt32 :=
  p0 ||| (p1 <<< 4) ||| (p2 <<< 8) ||| (p3 <<< 12)

structure TEECValue where
  a : UInt32
  b : UInt32
deriving Repr, DecidableEq

/-- `TEEC_Operation`, its parameters through their `value` member. -/
structure TEECOperation where
  paramTypes : UInt32
  params0 : TEECValue
  params1 : TEECValue
  params2 : TEECValue
  params3 : TEECValue
deriving Repr, DecidableEq

def TEECOperation.zero : TEECOperation := ⟨0, ⟨0, 0⟩, ⟨0, 0⟩, ⟨0, 0⟩, ⟨0, 0⟩⟩

/-- The calls into the client library, on a state `τ` of everything
behind it. -/
structure Teec (τ : Type) where
  initializeContext : τ → TEECResult × τ
  openSession : τ → TEECResult × τ
  invokeCommand : τ → UInt32 → TEECOperation → TEECResult × τ
  close : τ → τ

/-! ## The library's state -/

inductive ClientFail where
  | exit1
  | nullPointer
deriving Repr, DecidableEq

structure Sent where
  cmdId : UInt32
  op : TEECOperation
  res : TEECResult
deriving Repr, DecidableEq

/-- The globals, the hints file, and the TEE; `hfp` says whether the file
pointer is not NULL. -/
structure Client (τ : Type) where
  cfvStart : Bool
  hfp : Bool
  hintsFile : List UInt8
  tee : τ
  sent : List Sent

variable {τ : Type} (T : Teec τ)

def checkRes (res : TEECResult) (c : Client τ) : Except ClientFail (Client τ) :=
  if res ≠ teecSuccess then .error .exit1 else .ok c

def openTa (c : Client τ) : Except ClientFail (Client τ) := do
  let (res, tee) := T.initializeContext c.tee
  let c ← checkRes res { c with tee := tee }
  let (res, tee) := T.openSession c.tee
  checkRes res { c with tee := tee }

def closeTa (c : Client τ) : Client τ := { c with tee := T.close c.tee }

/-- `TEEC_InvokeCommand` with the check of its result. -/
def invokeCommand (c : Client τ) (cmdId : UInt32) (op : TEECOperation) :
    Except ClientFail (Client τ) :=
  let (res, tee) := T.invokeCommand c.tee cmdId op
  checkRes res { c with tee := tee, sent := c.sent ++ [⟨cmdId, op, res⟩] }

/-- `fopen (hints_file, "w+")`, which creates or empties the file. -/
def fopenHints (fopenOk : Bool) (c : Client τ) : Client τ :=
  if fopenOk then { c with hfp := true, hintsFile := [] } else { c with hfp := false }

/-! ## `cfv_bellman.c` -/

def taCmdCfaVerifyEvents : UInt32 := 1
def taCmdCfaInit : UInt32 := 2
def taCmdCfaQuote : UInt32 := 3

def cfvEventCtrl : UInt64 := 0x00000010
def cfvEventDataDef : UInt64 := 0x00000020
def cfvEventDataUse : UInt64 := 0x00000040
def cfvEventHintCondbr : UInt64 := 0x00000080
def cfvEventHintIcall : UInt64 := 0x00000100
def cfvEventHintIbr : UInt64 := 0x00000200

def initOp : TEECOperation :=
  { TEECOperation.zero with paramTypes := teecParamTypes teecNone teecNone teecNone teecNone }

def cfvInit (fopenOk : Bool) (c : Client τ) : Except ClientFail (Client τ) := do
  let c ← openTa T c
  let c := fopenHints fopenOk c
  let c := { c with cfvStart := true }
  invokeCommand T c taCmdCfaInit initOp

def quoteOp : TEECOperation :=
  { TEECOperation.zero with
    paramTypes := teecParamTypes teecValueInout teecValueInout teecNone teecNone }

/-- `cfv_quote`, which ends with `fclose(hfp)`. -/
def cfvQuote (c : Client τ) : Except ClientFail (Client τ) := do
  let c ← invokeCommand T c taCmdCfaQuote quoteOp
  let c := closeTa T { c with cfvStart := false }
  if c.hfp then pure c else .error .nullPointer

/-- The operation `handle_event` assembles: each 64-bit argument in two
halves. -/
def eventOp (etype a b : UInt64) : TEECOperation :=
  { TEECOperation.zero with
    paramTypes := teecParamTypes teecValueInout teecValueInout teecValueInout teecNone
    params0 := ⟨etype.toUInt32, 0⟩
    params1 := ⟨(a &&& 0xffffffff).toUInt32, ((a >>> 32) &&& 0xffffffff).toUInt32⟩
    params2 := ⟨(b &&& 0xffffffff).toUInt32, ((b >>> 32) &&& 0xffffffff).toUInt32⟩ }

def handleEvent (etype a b : UInt64) (c : Client τ) : Except ClientFail (Client τ) :=
  -- ta is opened by cfv_init, before that we skip events
  if c.cfvStart = false then .ok c
  else invokeCommand T c taCmdCfaVerifyEvents (eventOp etype a b)

/-! ## `nova.c` -/

def ascii (s : String) : List UInt8 := s.toList.map Char.toUInt8

/-- `%lx`. -/
def hexLower (x : UInt64) : List UInt8 := (Nat.toDigits 16 x.toNat).map Char.toUInt8

/-- Write to the hints file, if it is open and attestation is on. -/
def fprintfHints (text : List UInt8) (c : Client τ) : Client τ :=
  if c.hfp = false ∨ c.cfvStart = false then c
  else { c with hintsFile := c.hintsFile ++ text }

/-- `"%s dest: %lx src: %lx\n"`. -/
def hintRecord (func : String) (target pc : UInt64) : List UInt8 :=
  ascii func ++ ascii " dest: " ++ hexLower target ++ ascii " src: " ++ hexLower pc ++ ascii "\n"

def recordDefevt (addr val : UInt64) (c : Client τ) : Except ClientFail (Client τ) :=
  handleEvent T cfvEventDataDef addr val c

def checkUseevt (addr val : UInt64) (c : Client τ) : Except ClientFail (Client τ) :=
  handleEvent T cfvEventDataUse addr val c

def collectCondBranchHints (cond : Bool) (c : Client τ) : Except ClientFail (Client τ) := do
  let c ← handleEvent T cfvEventHintCondbr (if cond then 1 else 0) 0 c
  pure (fprintfHints (if cond then ascii "y" else ascii "n") c)

def cfvIcall (target pc : UInt64) (c : Client τ) : Except ClientFail (Client τ) := do
  let c ← handleEvent T cfvEventHintIcall pc target c
  pure (fprintfHints (hintRecord "cfv_icall" target pc) c)

def cfvRet (target pc : UInt64) (c : Client τ) : Except ClientFail (Client τ) :=
  handleEvent T cfvEventCtrl pc target c

def cfvIjmp (target pc : UInt64) (c : Client τ) : Except ClientFail (Client τ) := do
  let c ← handleEvent T cfvEventHintIbr pc target c
  pure (fprintfHints (hintRecord "cfv_ijmp" target pc) c)

/-! ## Sessions -/

/-- A call of one of the runtime hooks. -/
inductive Hook where
  | recordDefevt (addr val : UInt64)
  | checkUseevt (addr val : UInt64)
  | collectCondBranchHints (cond : Bool)
  | cfvIcall (target pc : UInt64)
  | cfvRet (target pc : UInt64)
  | cfvIjmp (target pc : UInt64)
deriving Repr, DecidableEq

def runHook (c : Client τ) : Hook → Except ClientFail (Client τ)
  | .recordDefevt addr val => recordDefevt T addr val c
  | .checkUseevt addr val => checkUseevt T addr val c
  | .collectCondBranchHints cond => collectCondBranchHints T cond c
  | .cfvIcall target pc => cfvIcall T target pc c
  | .cfvRet target pc => cfvRet T target pc c
  | .cfvIjmp target pc => cfvIjmp T target pc c

/-- `cfv_init`, the hooks, `cfv_quote`. -/
def session (fopenOk : Bool) (c : Client τ) (hooks : List Hook) :
    Except ClientFail (Client τ) := do
  let c ← cfvInit T fopenOk c
  let c ← foldRun (runHook T) c hooks
  cfvQuote T c

/-! ## What a hook does -/

namespace Hook

/-- The event type and arguments a hook sends. -/
def event : Hook → UInt64 × UInt64 × UInt64
  | .recordDefevt addr val => (cfvEventDataDef, addr, val)
  | .checkUseevt addr val => (cfvEventDataUse, addr, val)
  | .collectCondBranchHints cond => (cfvEventHintCondbr, if cond then 1 else 0, 0)
  | .cfvIcall target pc => (cfvEventHintIcall, pc, target)
  | .cfvRet target pc => (cfvEventCtrl, pc, target)
  | .cfvIjmp target pc => (cfvEventHintIbr, pc, target)

/-- The text a hook writes to the hints file. -/
def hint : Hook → List UInt8
  | .collectCondBranchHints cond => if cond then ascii "y" else ascii "n"
  | .cfvIcall target pc => hintRecord "cfv_icall" target pc
  | .cfvIjmp target pc => hintRecord "cfv_ijmp" target pc
  | _ => []

end Hook

/-- Every hook sends its event, then writes its hint. -/
theorem runHook_eq (c : Client τ) (h : Hook) :
    runHook T c h = handleEvent T h.event.1 h.event.2.1 h.event.2.2 c >>= fun c =>
      .ok (fprintfHints h.hint c) := by
  have hnone : (fun c : Client τ => (.ok (fprintfHints [] c) : Except ClientFail (Client τ)))
      = fun c => .ok c := by
    funext c
    simp [fprintfHints]
  cases h with
  | recordDefevt addr val => simp only [Hook.hint, hnone]; exact (bind_pure _).symm
  | checkUseevt addr val => simp only [Hook.hint, hnone]; exact (bind_pure _).symm
  | collectCondBranchHints cond => rfl
  | cfvIcall target pc => rfl
  | cfvRet target pc => simp only [Hook.hint, hnone]; exact (bind_pure _).symm
  | cfvIjmp target pc => rfl

end Tl

end Oat
