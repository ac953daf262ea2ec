import Oat.Protocol
import Oat.TaLifecycle

/-!
# A session with the parameter types of the TA

As the two sides stand, a session ends at its first command
(`session_exits`). `typedTeec` delivers each command with the parameter
types that the TA's own test asks for and changes nothing else. Then the
rest of the two sides fits: `session_typed_iff` says that a session goes
through exactly if the hints file opens and the TA gets through INIT, the
events of the hooks and QUOTE, which is the state it leaves.
-/

namespace Oat

open Ta Tl

/-- What the TA tests the parameter types of a command against. -/
def commandParamTypes (cmdId : UInt32) : UInt32 :=
  if cmdId = Tl.taCmdCfaInit then cfaInitParamTypes
  else if cmdId = Tl.taCmdCfaVerifyEvents then verifyParamTypes
  else cfaQuoteParamTypes

/-- The client API with this TA behind it, the types put right. -/
def typedTeec : Teec TaState :=
  { taTeec with
    invokeCommand s cmdId op :=
      taTeec.invokeCommand s cmdId { op with paramTypes := commandParamTypes cmdId } }

/-! ## The three commands -/

theorem typed_init (s : TaState) (op : TEECOperation) :
    typedTeec.invokeCommand s Tl.taCmdCfaInit op = (teecSuccess, cfaInit s) := rfl

theorem typed_quote (s : TaState) (op : TEECOperation) :
    typedTeec.invokeCommand s Tl.taCmdCfaQuote op =
      match cfaQuoteSave s with
      | .ok s' => (teecSuccess, s')
      | .error _ => (teecErrorTargetDead, s) := by
  have hquote : (deliver Tl.taCmdCfaQuote
      { op with paramTypes := commandParamTypes Tl.taCmdCfaQuote }).AcceptedQuote := ⟨rfl, rfl⟩
  simp only [typedTeec, taTeec]
  rw [invoke_quote hquote]
  cases cfaQuoteSave s <;> rfl

theorem typed_event (s : TaState) (hook : Hook) :
    typedTeec.invokeCommand s Tl.taCmdCfaVerifyEvents
        (eventOp hook.event.1 hook.event.2.1 hook.event.2.2) =
      match Ta.handleEvent s hook.cfaEvent with
      | .ok s' => (teecSuccess, s')
      | .error _ => (teecErrorTargetDead, s) := by
  have hevent : (deliver Tl.taCmdCfaVerifyEvents
      { eventOp hook.event.1 hook.event.2.1 hook.event.2.2 with
        paramTypes := commandParamTypes Tl.taCmdCfaVerifyEvents }).AcceptedEvent := ⟨rfl, rfl⟩
  have hintact : verifyEvent (deliver Tl.taCmdCfaVerifyEvents
      { eventOp hook.event.1 hook.event.2.1 hook.event.2.2 with
        paramTypes := commandParamTypes Tl.taCmdCfaVerifyEvents }).params = hook.cfaEvent :=
    event_intact (by cases hook <;> rfl) _ _
  simp only [typedTeec, taTeec]
  rw [invoke_event hevent, hintact]
  cases Ta.handleEvent s hook.cfaEvent <;> rfl

/-! ## The client -/

/-- The client behind a hook whose event the TA has taken. -/
def Tl.Client.told (c : Client TaState) (hook : Hook) (s : TaState) : Client TaState :=
  fprintfHints hook.hint
    { c with
      tee := s
      sent := c.sent ++ [⟨Tl.taCmdCfaVerifyEvents,
        eventOp hook.event.1 hook.event.2.1 hook.event.2.2, teecSuccess⟩] }

section Client

variable {c c' : Client TaState} {s' : TaState} {hook : Hook}

@[simp] theorem told_tee (s : TaState) : (c.told hook s).tee = s := by
  unfold Client.told fprintfHints
  split <;> rfl

@[simp] theorem told_cfvStart (s : TaState) : (c.told hook s).cfvStart = c.cfvStart := by
  unfold Client.told fprintfHints
  split <;> rfl

@[simp] theorem told_hfp (s : TaState) : (c.told hook s).hfp = c.hfp := by
  unfold Client.told fprintfHints
  split <;> rfl

theorem runHook_typed (hstart : c.cfvStart = true) (hook : Hook) :
    runHook typedTeec c hook =
      match Ta.handleEvent c.tee hook.cfaEvent with
      | .ok s => .ok (c.told hook s)
      | .error _ => .error .exit1 := by
  have hopen : ¬ c.cfvStart = false := by simp [hstart]
  rw [runHook_eq, Tl.handleEvent, if_neg hopen, invokeCommand, typed_event]
  cases Ta.handleEvent c.tee hook.cfaEvent <;> rfl

/-- **Run**: the hooks that have run are events that the TA has taken. -/
theorem handleEvents_of_runHooks (hstart : c.cfvStart = true) {hooks : List Hook}
    (h : foldRun (runHook typedTeec) c hooks = .ok c') :
    handleEvents c.tee (hooks.map (·.cfaEvent)) = .ok c'.tee ∧ c'.cfvStart = true ∧
      c'.hfp = c.hfp := by
  induction hooks generalizing c with
  | nil =>
      obtain rfl := Except.ok.inj h
      exact ⟨rfl, hstart, rfl⟩
  | cons hook hooks ih =>
      obtain ⟨c₁, h₁, hrest⟩ := foldRun_cons_ok.mp h
      rw [runHook_typed hstart] at h₁
      rw [List.map_cons, handleEvents, foldRun_cons]
      cases hevent : Ta.handleEvent c.tee hook.cfaEvent with
      | error e =>
          rw [hevent] at h₁
          cases h₁
      | ok s =>
          rw [hevent] at h₁
          obtain rfl := Except.ok.inj h₁
          have hnext := ih ((told_cfvStart s).trans hstart) hrest
          rwa [told_tee, told_hfp] at hnext

theorem runHooks_of_handleEvents (hstart : c.cfvStart = true) {hooks : List Hook}
    (h : handleEvents c.tee (hooks.map (·.cfaEvent)) = .ok s') :
    ∃ c', foldRun (runHook typedTeec) c hooks = .ok c' ∧ c'.tee = s' := by
  induction hooks generalizing c with
  | nil => exact ⟨c, rfl, Except.ok.inj h⟩
  | cons hook hooks ih =>
      obtain ⟨s, hevent, hrest⟩ := foldRun_cons_ok.mp h
      have htee : (c.told hook s).tee = s := told_tee s
      rw [← htee] at hrest
      obtain ⟨c', hrun, htee'⟩ := ih ((told_cfvStart s).trans hstart) hrest
      refine ⟨c', foldRun_cons_ok.mpr ⟨_, ?_, hrun⟩, htee'⟩
      rw [runHook_typed hstart, hevent]

theorem cfvInit_typed (fopenOk : Bool) (c : Client TaState) :
    ∃ c', cfvInit typedTeec fopenOk c = .ok c' ∧ c'.tee = cfaInit c.tee ∧ c'.cfvStart = true ∧
      c'.hfp = fopenOk := by
  unfold cfvInit invokeCommand
  simp only [typed_init]
  cases fopenOk <;> exact ⟨_, rfl, rfl, rfl, rfl⟩

theorem cfvQuote_typed (c : Client TaState) :
    cfvQuote typedTeec c =
      match cfaQuoteSave c.tee with
      | .error _ => .error .exit1
      | .ok s =>
          if c.hfp then
            .ok { c with
              cfvStart := false
              tee := s
              sent := c.sent ++ [⟨Tl.taCmdCfaQuote, quoteOp, teecSuccess⟩] }
          else .error .nullPointer := by
  unfold cfvQuote invokeCommand
  rw [typed_quote]
  cases cfaQuoteSave c.tee <;> rfl

end Client

/-- A session is an attestation of the events of its hooks. -/
theorem session_typed_iff (fopenOk : Bool) (c : Client TaState) (hooks : List Hook)
    (s' : TaState) :
    (∃ c', session typedTeec fopenOk c hooks = .ok c' ∧ c'.tee = s') ↔
      fopenOk = true ∧ attest c.tee (hooks.map (·.cfaEvent)) = .ok s' := by
  obtain ⟨c₁, hinit, htee, hstart, hhfp⟩ := cfvInit_typed fopenOk c
  constructor
  · rintro ⟨c', h, rfl⟩
    obtain ⟨c₁', hinit', hrest⟩ := bind_eq_ok.mp h
    obtain rfl := Except.ok.inj (hinit.symm.trans hinit')
    obtain ⟨c₂, hhooks, hquote⟩ := bind_eq_ok.mp hrest
    obtain ⟨hevents, -, hhfp₂⟩ := handleEvents_of_runHooks hstart hhooks
    rw [htee] at hevents
    rw [cfvQuote_typed, hhfp₂, hhfp] at hquote
    cases hsave : cfaQuoteSave c₂.tee with
    | error e =>
        rw [hsave] at hquote
        cases hquote
    | ok s =>
        rw [hsave] at hquote
        cases fopenOk with
        | false => cases hquote
        | true =>
            obtain rfl := Except.ok.inj hquote
            exact ⟨rfl, bind_eq_ok.mpr ⟨_, hevents, hsave⟩⟩
  · rintro ⟨rfl, h⟩
    obtain ⟨s, hevents, hsave⟩ := bind_eq_ok.mp h
    rw [← htee] at hevents
    obtain ⟨c₂, hhooks, rfl⟩ := runHooks_of_handleEvents hstart hevents
    obtain ⟨-, -, hhfp₂⟩ := handleEvents_of_runHooks hstart hhooks
    have hquote := cfvQuote_typed c₂
    rw [hsave, hhfp₂, hhfp] at hquote
    exact ⟨_, bind_eq_ok.mpr ⟨c₁, hinit, bind_eq_ok.mpr ⟨c₂, hhooks, hquote⟩⟩, rfl⟩

/-- As long as the TA gets memory, a session goes through. -/
theorem session_total_typed {c : Client TaState} (hm : c.tee.MallocsSucceed)
    (hooks : List Hook) :
    ∃ c', session typedTeec true c hooks = .ok c' ∧
      attest c.tee (hooks.map (·.cfaEvent)) = .ok c'.tee := by
  obtain ⟨s', hattest, -⟩ := attest_total hm (hooks.map (·.cfaEvent))
  obtain ⟨c', hsession, rfl⟩ := (session_typed_iff true c hooks s').mpr ⟨rfl, hattest⟩
  exact ⟨c', hsession, hattest⟩

/-- A client of a device that has stored nothing yet. -/
def freshClient : Client TaState := .start (.fresh .empty fun _ => true)

end Oat
