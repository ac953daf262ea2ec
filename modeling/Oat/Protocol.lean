import Oat.TaAttest
import Oat.HintsFile

/-!
# The trampoline library against the TA

The two ends of the command protocol, composed: `taTeec` puts the TA
behind the client API. OP-TEE delivers command id, parameter types and
values unchanged; a TA that panics answers `TEEC_ERROR_TARGET_DEAD`.

The packing of 64-bit arguments agrees (`event_intact`). The parameter
types do not, for any of the three commands (`init_refused`,
`event_refused`, `quote_refused`): each side declares types of its own.
So a session ends at its first command (`session_exits`).
-/

namespace Oat

open Ta Tl

/-! ## Delivery -/

def deliverValue (v : TEECValue) : TEEParam := ⟨v.a, v.b⟩

/-- What the TA is invoked with. -/
def deliver (cmdId : UInt32) (op : TEECOperation) : Command where
  cmdId := cmdId
  paramTypes := op.paramTypes
  params := ⟨deliverValue op.params0, deliverValue op.params1, deliverValue op.params2,
    deliverValue op.params3⟩

def teecErrorTargetDead : TEECResult := 0xFFFF3024

/-- The client API with this TA behind it. -/
def taTeec : Teec TaState where
  initializeContext s := (teecSuccess, s)
  openSession s := (taOpenSessionEntryPoint (teecParamTypes teecNone teecNone teecNone teecNone), s)
  invokeCommand s cmdId op :=
    match taInvokeCommandEntryPoint s (deliver cmdId op) with
    | .error _ => (teecErrorTargetDead, s)
    | .ok reply => (reply.res, reply.state)
  close s := s

/-! ## What agreement is -/

/-- The event a hook stands for. -/
def Tl.Hook.cfaEvent (hook : Hook) : CfaEvent :=
  ⟨hook.event.1, hook.event.2.1, hook.event.2.2⟩

/-- The event the TA handles for a command that was sent, if its
parameter types pass. -/
def Tl.Sent.handled (cmd : Sent) : Option CfaEvent :=
  if cmd.cmdId = Ta.taCmdCfaVerifyEvents ∧ cmd.op.paramTypes = verifyParamTypes then
    some (verifyEvent (deliver cmd.cmdId cmd.op).params)
  else none

/-- The session reaches its end; it has sent an INIT, one event per hook
and a QUOTE, all with success; and the TA has handled the events of the
hooks. -/
def Agrees (fopenOk : Bool) (c : Client TaState) (hooks : List Hook) : Prop :=
  ∃ c' sent, session taTeec fopenOk c hooks = .ok c' ∧ c'.sent = c.sent ++ sent
    ∧ sent.map (·.cmdId)
      = Tl.taCmdCfaInit :: hooks.map (fun _ => Tl.taCmdCfaVerifyEvents) ++ [Tl.taCmdCfaQuote]
    ∧ (∀ cmd ∈ sent, cmd.res = teecSuccess)
    ∧ sent.filterMap (·.handled) = hooks.map (·.cfaEvent)

/-! ## The arguments of an event -/

theorem or_halves {l : Nat} (hl : l < 2 ^ 32) (h : Nat) : h * 2 ^ 32 ||| l = h * 2 ^ 32 + l := by
  rw [← Nat.shiftLeft_eq, Nat.shiftLeft_add_eq_or_of_lt hl]

/-- The two halves of a 64-bit argument, put together again. -/
theorem halves (x : UInt64) :
    ((((x >>> 32) &&& 0xffffffff).toUInt32.toUInt64 <<< 32)
      ||| (x &&& 0xffffffff).toUInt32.toUInt64) = x := by
  have hx := x.toNat_lt
  have hmask : ∀ n, n &&& 4294967295 = n % 4294967296 :=
    fun n => Nat.and_two_pow_sub_one_eq_mod n 32
  have hnat : ((((x >>> 32) &&& 0xffffffff).toUInt32.toUInt64 <<< 32)
      ||| (x &&& 0xffffffff).toUInt32.toUInt64).toNat
      = x.toNat / 4294967296 % 4294967296 * 4294967296 % 18446744073709551616
        ||| x.toNat % 4294967296 := by
    simp [hmask, Nat.shiftRight_eq_div_pow, Nat.shiftLeft_eq]
  have hhigh : x.toNat / 4294967296 % 4294967296 * 4294967296 % 18446744073709551616
      = x.toNat / 4294967296 * 2 ^ 32 := by omega
  have hor := or_halves (l := x.toNat % 4294967296) (Nat.mod_lt _ (by decide))
    (x.toNat / 4294967296)
  apply UInt64.toNat_inj.mp
  rw [hnat, hhigh, hor]
  omega

/-- All 64 bits of both arguments arrive. -/
theorem event_intact {etype : UInt64} (h : etype.toUInt32.toUInt64 = etype) (a b : UInt64) :
    verifyEvent (deliver Tl.taCmdCfaVerifyEvents (eventOp etype a b)).params = ⟨etype, a, b⟩ := by
  simp only [verifyEvent, deliver, deliverValue, eventOp, TEECOperation.zero, halves, h]

/-! ## The parameter types -/

theorem init_refused (s : TaState) :
    taInvokeCommandEntryPoint s (deliver Tl.taCmdCfaInit initOp)
      = .ok ⟨teeErrorBadParameters, (deliver Tl.taCmdCfaInit initOp).params, s⟩ := rfl

theorem event_refused (s : TaState) (etype a b : UInt64) :
    taInvokeCommandEntryPoint s (deliver Tl.taCmdCfaVerifyEvents (eventOp etype a b))
      = .ok ⟨teeErrorBadParameters,
          (deliver Tl.taCmdCfaVerifyEvents (eventOp etype a b)).params, s⟩ := rfl

theorem quote_refused (s : TaState) :
    taInvokeCommandEntryPoint s (deliver Tl.taCmdCfaQuote quoteOp)
      = .ok ⟨teeErrorBadParameters, (deliver Tl.taCmdCfaQuote quoteOp).params, s⟩ := rfl

theorem session_exits (fopenOk : Bool) (c : Client TaState) (hooks : List Hook) :
    session taTeec fopenOk c hooks = .error .exit1 := rfl

/-- No session does what the two sides are there to do together, whatever
the hooks and whatever the state of the TA. None of the three commands
of the client passes the TA's check, while the packing of every event
is right. -/
theorem protocol_disagrees (fopenOk : Bool) (c : Client TaState) (hooks : List Hook) :
    ¬ Agrees fopenOk c hooks
      ∧ (∀ s, ∃ params, taInvokeCommandEntryPoint s (deliver Tl.taCmdCfaInit initOp)
        = .ok ⟨teeErrorBadParameters, params, s⟩)
      ∧ (∀ s, ∀ hook : Hook, ∃ params, taInvokeCommandEntryPoint s
          (deliver Tl.taCmdCfaVerifyEvents
            (eventOp hook.event.1 hook.event.2.1 hook.event.2.2))
        = .ok ⟨teeErrorBadParameters, params, s⟩)
      ∧ (∀ s, ∃ params, taInvokeCommandEntryPoint s (deliver Tl.taCmdCfaQuote quoteOp)
        = .ok ⟨teeErrorBadParameters, params, s⟩)
      ∧ (∀ hook : Hook, verifyEvent (deliver Tl.taCmdCfaVerifyEvents
          (eventOp hook.event.1 hook.event.2.1 hook.event.2.2)).params = hook.cfaEvent) := by
  refine ⟨?_, fun s => ⟨_, init_refused s⟩, fun s hook => ⟨_, event_refused s _ _ _⟩,
    fun s => ⟨_, quote_refused s⟩, fun hook => event_intact ?_ _ _⟩
  · rintro ⟨c', sent, h, -⟩
    rw [session_exits] at h
    cases h
  · cases hook <;> rfl

/-- Not even a session without hooks. -/
theorem empty_session_disagrees :
    ¬ Agrees true (Client.start (TaState.fresh Store.empty fun _ => true)) [] := by
  rintro ⟨c', sent, h, -⟩
  rw [session_exits] at h
  cases h

end Oat
