import Oat.Bytes
import Oat.TaCfa

/-!
# Event handlers and commands: `hello_world_ta.c`

The four event handlers with their dispatcher `handle_event`, and the
commands the normal world can invoke. The file as it stands does not
compile; the text is read as follows: an `else (c)` head is
`else if (c)`, `evt-etype` is `evt->etype`, `CFV_EVENT_CONDBR` is
`CFV_EVENT_HINT_CONDBR`, and `params[i].a`, `params[i].b` are the fields
of `params[i].value`.
-/

namespace Oat

namespace Ta

def blobCondFname : String := "blob.cond.teedata.date"
def blobIaddrFname : String := "blob.iaddr.teedata.date"
def blobRethashFname : String := "blob.rethash.teedata.date"

/-! ## Event handlers -/

/-- `data_event`. The mismatch message reads `ptr->value` after
`hashmap_update` has run. -/
def dataEvent (s : TaState) (evt : CfaEvent) : Except Trap TaState :=
  if evt.etype = cfvEventDataDef then hashmapUpdate s evt.a evt.b
  else if evt.etype = cfvEventDataUse then do
    let ptr ← hashmapLookup s.nodes s.ctx.secDataHashmap evt.a
    match ptr with
    | none =>
        let s ← hashmapUpdate s evt.a evt.b
        pure { s with dmsg := s.dmsg ++ [.noDefineRecord evt.a evt.b] }
    | some node =>
        match s.nodes[node]? with
        | none => .error .outOfBounds
        | some n =>
            if n.value ≠ evt.b then do
              let s ← hashmapUpdate s evt.a evt.b
              match s.nodes[node]? with
              | none => .error .outOfBounds
              | some n => pure { s with dmsg := s.dmsg ++ [.valueNotMatch evt.a evt.b n.value] }
            else pure s
  else pure s

/-- The 16 bytes of an event after `etype`, on a little-endian target. -/
def CfaEvent.abBytes (evt : CfaEvent) : List UInt8 := le64 evt.a ++ le64 evt.b

def controlEvent (s : TaState) (evt : CfaEvent) : TaState :=
  { s with ctx := { s.ctx with S := blake2sUpdate s.ctx.S evt.abBytes } }

/-! The two trace handlers are one procedure over their own buffer, file
name, capacity, and in-memory encoding of an entry. -/

namespace TraceBuf

variable {α : Type} (fname : String) (cap : Nat) (enc : α → List UInt8)

/-- `save_data` on the first `n` entries. Every caller drops its result. -/
def save (t : TraceBuf α) (n : Nat) (st : Store) : Except Trap Store := do
  let entries ← t.read n
  pure (saveData fname (entries.flatMap enc) st).2

def flush (t : TraceBuf α) (st : Store) : Except Trap (TraceBuf α × Store) :=
  if t.idx = cap then do
    let st ← t.save fname enc cap st
    pure ({ t with idx := 0 }, st)
  else pure (t, st)

def record (t : TraceBuf α) (x : α) (st : Store) : Except Trap (TraceBuf α × Store) := do
  let (t, st) ← t.flush fname cap enc st
  let t ← t.write x
  pure (t, st)

end TraceBuf

def charBytes (c : UInt8) : List UInt8 := [c]

def traceAddrEvent (s : TaState) (evt : CfaEvent) : Except Trap TaState := do
  let (t, st) ← s.ctx.iaddrBuf.record blobIaddrFname maxIbranchEvents le64 evt.b s.store
  pure { s with ctx := { s.ctx with iaddrBuf := t }, store := st }

/-- The recorded character `'y' ? evt->a == 1 : 'n'`. The condition of
the conditional expression is the constant `'y'`, which is not zero, so
its value is the comparison. -/
def condChar (evt : CfaEvent) : UInt8 :=
  if 'y'.toNat ≠ 0 then (if evt.a = 1 then 1 else 0) else 'n'.toNat.toUInt8

def traceCondEvent (s : TaState) (evt : CfaEvent) : Except Trap TaState := do
  let (t, st) ← s.ctx.condBuf.record blobCondFname maxCondEvents charBytes (condChar evt) s.store
  pure { s with ctx := { s.ctx with condBuf := t }, store := st }

def handleEvent (s : TaState) (evt : CfaEvent) : Except Trap TaState :=
  if evt.etype = cfvEventCtrl then pure (controlEvent s evt)
  else if evt.etype = cfvEventHintIcall ∨ evt.etype = cfvEventHintIbr then traceAddrEvent s evt
  else if evt.etype = cfvEventHintCondbr then traceCondEvent s evt
  else dataEvent s evt

/-! ## Parameters -/

structure TEEParam where
  a : UInt32
  b : UInt32
deriving Repr, DecidableEq

structure TEEParams where
  p0 : TEEParam
  p1 : TEEParam
  p2 : TEEParam
  p3 : TEEParam
deriving Repr, DecidableEq

def teeParamTypeNone : UInt32 := 0
def teeParamTypeValueInout : UInt32 := 3
def teeParamTypeMemrefInout : UInt32 := 7

def teeParamTypes (t0 t1 t2 t3 : UInt32) : UInt32 :=
  t0 ||| (t1 <<< 4) ||| (t2 <<< 8) ||| (t3 <<< 12)

/-! ## Commands -/

def taHelloWorldCmdIncValue : UInt32 := 0
def taCmdCfaVerifyEvents : UInt32 := 1
def taCmdCfaInit : UInt32 := 2
def taCmdCfaQuote : UInt32 := 3

/-- What `TA_OpenSessionEntryPoint` returns. -/
def taOpenSessionEntryPoint (paramTypes : UInt32) : TEEResult :=
  if paramTypes ≠ teeParamTypes teeParamTypeNone teeParamTypeNone teeParamTypeNone
      teeParamTypeNone then teeErrorBadParameters
  else teeSuccess

def cfaInitParamTypes : UInt32 :=
  teeParamTypes teeParamTypeValueInout teeParamTypeNone teeParamTypeNone teeParamTypeNone

def cfaInitWrapper (s : TaState) (paramTypes : UInt32) : TEEResult × TaState :=
  if paramTypes ≠ cfaInitParamTypes then (teeErrorBadParameters, s)
  else (teeSuccess, cfaInit s)

def verifyParamTypes : UInt32 :=
  teeParamTypes teeParamTypeMemrefInout teeParamTypeValueInout teeParamTypeValueInout
    teeParamTypeValueInout

/-- The event `verify` assembles from its parameters. -/
def verifyEvent (params : TEEParams) : CfaEvent where
  etype := params.p0.a.toUInt64
  a := (params.p1.b.toUInt64 <<< 32) ||| params.p1.a.toUInt64
  b := (params.p2.b.toUInt64 <<< 32) ||| params.p2.a.toUInt64

def verify (s : TaState) (paramTypes : UInt32) (params : TEEParams) :
    Except Trap (TEEResult × TaState) :=
  if paramTypes ≠ verifyParamTypes then pure (teeErrorBadParameters, s)
  else do
    let s ← handleEvent s (verifyEvent params)
    pure (teeSuccess, s)

def cfaQuoteParamTypes : UInt32 :=
  teeParamTypes teeParamTypeNone teeParamTypeNone teeParamTypeNone teeParamTypeNone

/-- The body of `cfa_quote_wrapper`: finish the hash and save the two
trace buffers and the digest. -/
def cfaQuoteSave (s : TaState) : Except Trap TaState := do
  let s := cfaQuote s
  let st ← s.ctx.iaddrBuf.save blobIaddrFname le64 s.ctx.iaddrBuf.idx s.store
  let st ← s.ctx.condBuf.save blobCondFname charBytes s.ctx.condBuf.idx st
  let digest := s.ctx.digest.take blake2sOutbytes
  pure { s with store := (saveData blobRethashFname digest st).2 }

def cfaQuoteWrapper (s : TaState) (paramTypes : UInt32) : Except Trap (TEEResult × TaState) :=
  if paramTypes ≠ cfaQuoteParamTypes then pure (teeErrorBadParameters, s)
  else do
    let s ← cfaQuoteSave s
    pure (teeSuccess, s)

def incValueParamTypes : UInt32 :=
  teeParamTypes teeParamTypeValueInout teeParamTypeNone teeParamTypeNone teeParamTypeNone

/-- `inc_value`: the result and the parameters handed back. -/
def incValue (paramTypes : UInt32) (params : TEEParams) : TEEResult × TEEParams :=
  if paramTypes ≠ incValueParamTypes then (teeErrorBadParameters, params)
  else (teeSuccess, { params with p0 := { params.p0 with a := params.p0.a + 1 } })

structure Command where
  cmdId : UInt32
  paramTypes : UInt32
  params : TEEParams
deriving Repr, DecidableEq

structure Reply where
  res : TEEResult
  params : TEEParams
  state : TaState

def taInvokeCommandEntryPoint (s : TaState) (cmd : Command) : Except Trap Reply :=
  if cmd.cmdId = taHelloWorldCmdIncValue then
    let (res, params) := incValue cmd.paramTypes cmd.params
    pure ⟨res, params, s⟩
  else if cmd.cmdId = taCmdCfaVerifyEvents then do
    let (res, s) ← verify s cmd.paramTypes cmd.params
    pure ⟨res, cmd.params, s⟩
  else if cmd.cmdId = taCmdCfaInit then
    let (res, s) := cfaInitWrapper s cmd.paramTypes
    pure ⟨res, cmd.params, s⟩
  else if cmd.cmdId = taCmdCfaQuote then do
    let (res, s) ← cfaQuoteWrapper s cmd.paramTypes
    pure ⟨res, cmd.params, s⟩
  else pure ⟨teeErrorBadParameters, cmd.params, s⟩

end Ta

end Oat
