import Oat.TaDefUse

/-!
# Commands in any order

The normal world sends commands in any order. The TA keeps
`cfa_ctx.initialized`, but no handler reads it: an event or a quote that
comes outside an INIT..QUOTE window is carried out like any other, on
whatever the context holds (`early_unsafe`), and the first such event
can divide by zero.

What does hold is `lifecycle_safe`: on a run on which accepted events
and quotes come inside a window only, and the allocations of each INIT
succeed, every step is safe. The invariant is that the state is `Ready`
while `initialized` is set.
-/

namespace Oat

namespace Ta

/-! ## Accepted commands -/

namespace Command

variable (cmd : Command)

/-- An INIT whose parameter types pass. -/
def AcceptedInit : Prop := cmd.cmdId = taCmdCfaInit ∧ cmd.paramTypes = cfaInitParamTypes

def AcceptedEvent : Prop := cmd.cmdId = taCmdCfaVerifyEvents ∧ cmd.paramTypes = verifyParamTypes

def AcceptedQuote : Prop := cmd.cmdId = taCmdCfaQuote ∧ cmd.paramTypes = cfaQuoteParamTypes

instance : Decidable cmd.AcceptedInit := inferInstanceAs (Decidable (_ ∧ _))
instance : Decidable cmd.AcceptedEvent := inferInstanceAs (Decidable (_ ∧ _))
instance : Decidable cmd.AcceptedQuote := inferInstanceAs (Decidable (_ ∧ _))

end Command

variable {s : TaState} {cmd : Command}

theorem invoke_init (h : cmd.AcceptedInit) :
    taInvokeCommandEntryPoint s cmd = .ok ⟨teeSuccess, cmd.params, cfaInit s⟩ := by
  obtain ⟨hid, htypes⟩ := h
  simp [taInvokeCommandEntryPoint, cfaInitWrapper, hid, htypes, taHelloWorldCmdIncValue,
    taCmdCfaVerifyEvents, taCmdCfaInit, pure, Except.pure]

theorem invoke_event (h : cmd.AcceptedEvent) :
    taInvokeCommandEntryPoint s cmd = handleEvent s (verifyEvent cmd.params) >>= fun s =>
      .ok ⟨teeSuccess, cmd.params, s⟩ := by
  obtain ⟨hid, htypes⟩ := h
  simp only [taInvokeCommandEntryPoint, verify, hid, htypes, taHelloWorldCmdIncValue,
    taCmdCfaVerifyEvents]
  cases handleEvent s (verifyEvent cmd.params) <;> rfl

theorem invoke_quote (h : cmd.AcceptedQuote) :
    taInvokeCommandEntryPoint s cmd = cfaQuoteSave s >>= fun s =>
      .ok ⟨teeSuccess, cmd.params, s⟩ := by
  obtain ⟨hid, htypes⟩ := h
  simp only [taInvokeCommandEntryPoint, cfaQuoteWrapper, hid, htypes, taHelloWorldCmdIncValue,
    taCmdCfaVerifyEvents, taCmdCfaInit, taCmdCfaQuote]
  cases cfaQuoteSave s <;> rfl

/-- Any other command leaves the TA alone; an event or a quote among
them is refused. -/
theorem invoke_other (hi : ¬ cmd.AcceptedInit) (he : ¬ cmd.AcceptedEvent)
    (hq : ¬ cmd.AcceptedQuote) :
    ∃ res params, taInvokeCommandEntryPoint s cmd = .ok ⟨res, params, s⟩
      ∧ (cmd.cmdId = taCmdCfaVerifyEvents ∨ cmd.cmdId = taCmdCfaQuote →
          res = teeErrorBadParameters) := by
  unfold taInvokeCommandEntryPoint
  split
  · rename_i hid
    exact ⟨(incValue cmd.paramTypes cmd.params).1, (incValue cmd.paramTypes cmd.params).2, rfl,
      fun h => absurd h (by rw [hid]; decide)⟩
  · split
    · rename_i hid
      have htypes : cmd.paramTypes ≠ verifyParamTypes := fun h => he ⟨hid, h⟩
      refine ⟨teeErrorBadParameters, cmd.params, ?_, fun _ => rfl⟩
      rw [verify, if_pos htypes]
      rfl
    · split
      · rename_i hid
        have htypes : cmd.paramTypes ≠ cfaInitParamTypes := fun h => hi ⟨hid, h⟩
        refine ⟨teeErrorBadParameters, cmd.params, ?_, fun _ => rfl⟩
        rw [cfaInitWrapper, if_pos htypes]
        rfl
      · split
        · rename_i hid
          have htypes : cmd.paramTypes ≠ cfaQuoteParamTypes := fun h => hq ⟨hid, h⟩
          refine ⟨teeErrorBadParameters, cmd.params, ?_, fun _ => rfl⟩
          rw [cfaQuoteWrapper, if_pos htypes]
          rfl
        · exact ⟨teeErrorBadParameters, cmd.params, rfl, fun _ => rfl⟩

/-! ## What a step must do, and when it does -/

def taStep (s : TaState) (cmd : Command) : Except Trap TaState := do
  let reply ← taInvokeCommandEntryPoint s cmd
  pure reply.state

/-- The hash state, the def-use map with its nodes, and the two trace
buffers are the same. -/
def SameMeasurement (s s' : TaState) : Prop :=
  s'.ctx.S = s.ctx.S ∧ s'.ctx.secDataHashmap = s.ctx.secDataHashmap ∧ s'.nodes = s.nodes
    ∧ s'.ctx.condBuf = s.ctx.condBuf ∧ s'.ctx.iaddrBuf = s.ctx.iaddrBuf

/-- A command is safe in a state: it does not crash on what is not set
up, it measures nothing while the context is not initialized (INIT, which
initializes it, aside), and an event or a quote outside a window is
refused without effect. -/
structure StepSafe (s : TaState) (cmd : Command) : Prop where
  divides : taInvokeCommandEntryPoint s cmd ≠ .error .divByZero
  allocated : taInvokeCommandEntryPoint s cmd ≠ .error .unallocatedBuffer
  inBounds : taInvokeCommandEntryPoint s cmd ≠ .error .outOfBounds
  frozen : s.ctx.initialized = false → ¬ cmd.AcceptedInit →
    ∀ s', taStep s cmd = .ok s' → SameMeasurement s s'
  refused : s.ctx.initialized = false →
    cmd.cmdId = taCmdCfaVerifyEvents ∨ cmd.cmdId = taCmdCfaQuote →
    ∃ reply, taInvokeCommandEntryPoint s cmd = .ok reply ∧ reply.res ≠ teeSuccess
      ∧ reply.state.ctx = s.ctx ∧ reply.state.store = s.store

/-- Accepted events and quotes come while the context is initialized,
and the allocations of an accepted INIT succeed. -/
structure InOrder (s : TaState) (cmd : Command) : Prop where
  window : cmd.AcceptedEvent ∨ cmd.AcceptedQuote → s.ctx.initialized = true
  memory : cmd.AcceptedInit → s.mallocs 0 = true ∧ s.mallocs 1 = true

/-- While the context is initialized, the state is one that events and
quotes work on. -/
def LifecycleInv (s : TaState) : Prop := s.ctx.initialized = true → Ready s

theorem Command.AcceptedInit.not_event (h : cmd.AcceptedInit) :
    ¬ (cmd.cmdId = taCmdCfaVerifyEvents ∨ cmd.cmdId = taCmdCfaQuote) := by
  rw [h.1]
  decide

theorem taStep_ok {s' : TaState} {r : Except Trap TaState} {f : TaState → Reply}
    (hinv : taInvokeCommandEntryPoint s cmd = r >>= fun s => .ok (f s))
    (hf : ∀ s, (f s).state = s) : taStep s cmd = .ok s' ↔ r = .ok s' := by
  rw [taStep, hinv]
  cases r with
  | error e => simp [bind, Except.bind]
  | ok s₁ => simp [bind, Except.bind, pure, Except.pure, hf]

/-- Inside a window the only way to be unsafe is to crash. -/
theorem StepSafe.of_window (hwin : s.ctx.initialized = true)
    (h : (∃ reply, taInvokeCommandEntryPoint s cmd = .ok reply)
      ∨ taInvokeCommandEntryPoint s cmd = .error .nullPointer) : StepSafe s cmd := by
  have hout : ¬ s.ctx.initialized = false := by simp [hwin]
  rcases h with ⟨reply, h⟩ | h
  · exact ⟨by simp [h], by simp [h], by simp [h], fun h => absurd h hout,
      fun h => absurd h hout⟩
  · exact ⟨by simp [h], by simp [h], by simp [h], fun h => absurd h hout,
      fun h => absurd h hout⟩

theorem init_safe (hi : cmd.AcceptedInit) : StepSafe s cmd := by
  have hinv := invoke_init (s := s) hi
  exact ⟨by simp [hinv], by simp [hinv], by simp [hinv], fun _ h => absurd hi h,
    fun _ h => absurd h hi.not_event⟩

theorem event_safe (he : cmd.AcceptedEvent) (hwin : s.ctx.initialized = true)
    (hr : Ready s) : StepSafe s cmd := by
  refine StepSafe.of_window hwin ?_
  rw [invoke_event he]
  rcases handleEvent_ready_cases hr (verifyEvent cmd.params) with ⟨s', h, -⟩ | ⟨-, h⟩
  · exact Or.inl ⟨⟨teeSuccess, cmd.params, s'⟩, by rw [h]; rfl⟩
  · exact Or.inr (by rw [h]; rfl)

theorem quote_safe (hq : cmd.AcceptedQuote) (hwin : s.ctx.initialized = true)
    (hr : Ready s) : StepSafe s cmd := by
  obtain ⟨s', h, -⟩ := cfaQuoteSave_ready hr
  refine StepSafe.of_window hwin (Or.inl ⟨⟨teeSuccess, cmd.params, s'⟩, ?_⟩)
  rw [invoke_quote hq, h]
  rfl

theorem other_safe (hi : ¬ cmd.AcceptedInit) (he : ¬ cmd.AcceptedEvent)
    (hq : ¬ cmd.AcceptedQuote) :
    StepSafe s cmd ∧ ∀ s', taStep s cmd = .ok s' → s' = s := by
  obtain ⟨res, params, hinv, hres⟩ := invoke_other (s := s) hi he hq
  have hstep : ∀ s', taStep s cmd = .ok s' → s' = s := by
    intro s' hs'
    rw [taStep, hinv] at hs'
    exact (Except.ok.inj hs').symm
  refine ⟨⟨by simp [hinv], by simp [hinv], by simp [hinv], ?_, ?_⟩, hstep⟩
  · intro _ _ s' hs'
    obtain rfl := hstep s' hs'
    exact ⟨rfl, rfl, rfl, rfl, rfl⟩
  · intro _ h
    refine ⟨_, hinv, ?_, rfl, rfl⟩
    simp only [hres h]
    decide

/-- **Step**, safety: a command in order is safe. -/
theorem inOrder_safe (hJ : LifecycleInv s) (hC : InOrder s cmd) : StepSafe s cmd := by
  by_cases hi : cmd.AcceptedInit
  · exact init_safe hi
  · by_cases he : cmd.AcceptedEvent
    · have hwin := hC.window (Or.inl he)
      exact event_safe he hwin (hJ hwin)
    · by_cases hq : cmd.AcceptedQuote
      · have hwin := hC.window (Or.inr hq)
        exact quote_safe hq hwin (hJ hwin)
      · exact (other_safe hi he hq).1

/-- **Step**, invariant: a command in order leaves a window that is
ready, or none. -/
theorem inOrder_inv {s' : TaState} (hJ : LifecycleInv s) (hC : InOrder s cmd)
    (h : taStep s cmd = .ok s') : LifecycleInv s' := by
  by_cases hi : cmd.AcceptedInit
  · obtain ⟨h₀, h₁⟩ := hC.memory hi
    rw [taStep, invoke_init hi] at h
    obtain rfl := Except.ok.inj h
    exact fun _ => cfaInit_ready h₀ h₁
  · by_cases he : cmd.AcceptedEvent
    · have hevt := (taStep_ok (invoke_event he) fun _ => rfl).mp h
      rcases handleEvent_ready_cases (hJ (hC.window (Or.inl he))) (verifyEvent cmd.params) with
        ⟨s₁, h₁, hr, -⟩ | ⟨-, hfail⟩
      · obtain rfl := Except.ok.inj (h₁.symm.trans hevt)
        exact fun _ => hr
      · exact absurd (hfail.symm.trans hevt) (by simp)
    · by_cases hq : cmd.AcceptedQuote
      · have hquote := (taStep_ok (invoke_quote hq) fun _ => rfl).mp h
        exact fun hwin => absurd hwin (by simp [cfaQuoteSave_closes hquote])
      · obtain rfl := (other_safe hi he hq).2 s' h
        exact hJ

/-- **Run**: from the zero-initialised globals, if every command comes
in order then every command is safe. -/
theorem lifecycle_safe {store : Store} {mallocs : Nat → Bool} {cmds : List Command}
    (h : EachStep taStep InOrder (TaState.fresh store mallocs) cmds) :
    EachStep taStep StepSafe (TaState.fresh store mallocs) cmds :=
  EachStep.imp (J := LifecycleInv) (fun _ _ _ hJ hC hs => inOrder_inv hJ hC hs)
    (fun _ _ hJ hC => inOrder_safe hJ hC) cmds (fun hwin => by cases hwin) h

/-- An accepted event or quote outside a window is never refused. -/
theorem early_unsafe (hwin : s.ctx.initialized = false)
    (h : cmd.AcceptedEvent ∨ cmd.AcceptedQuote) : ¬ StepSafe s cmd := by
  intro hsafe
  rcases h with he | hq
  · obtain ⟨reply, hreply, hres, -⟩ := hsafe.refused hwin (Or.inl he.1)
    rw [invoke_event he] at hreply
    obtain ⟨s', -, hret⟩ := bind_eq_ok.mp hreply
    obtain rfl := Except.ok.inj hret
    exact hres rfl
  · obtain ⟨reply, hreply, hres, -⟩ := hsafe.refused hwin (Or.inr hq.1)
    rw [invoke_quote hq] at hreply
    obtain ⟨s', -, hret⟩ := bind_eq_ok.mp hreply
    obtain rfl := Except.ok.inj hret
    exact hres rfl

/-! ## Samples -/

def sampleParams (etype a b : UInt32) : TEEParams := ⟨⟨etype, 0⟩, ⟨a, 0⟩, ⟨b, 0⟩, ⟨0, 0⟩⟩

def sampleInit : Command := ⟨taCmdCfaInit, cfaInitParamTypes, sampleParams 0 0 0⟩

def sampleEvent (etype a b : UInt32) : Command :=
  ⟨taCmdCfaVerifyEvents, verifyParamTypes, sampleParams etype a b⟩

theorem lifecycle_safe_sample :
    EachStep taStep StepSafe (TaState.fresh Store.empty fun _ => true)
      [sampleInit, sampleEvent 0x10 0x400110 0x400100] := by
  refine lifecycle_safe (eachStep_cons.mpr ⟨⟨by decide, fun _ => ⟨rfl, rfl⟩⟩, ?_⟩)
  intro s₁ h₁
  rw [taStep, invoke_init ⟨rfl, rfl⟩] at h₁
  obtain rfl := Except.ok.inj h₁
  exact eachStep_cons.mpr ⟨⟨fun _ => rfl, fun hi => absurd hi.1 (by decide)⟩,
    fun s₂ _ => eachStep_nil s₂⟩

/-- The first command is a definition event: `key % 0`. -/
theorem event_before_init_divides :
    ¬ EachStep taStep StepSafe (TaState.fresh Store.empty fun _ => true)
      [sampleEvent 0x20 0x400100 3] := by
  intro h
  have hdiv : taInvokeCommandEntryPoint (TaState.fresh Store.empty fun _ => true)
      (sampleEvent 0x20 0x400100 3) = .error .divByZero := by
    rw [invoke_event ⟨rfl, rfl⟩]
    rfl
  exact (eachStep_cons.mp h).1.divides hdiv

end Ta

end Oat
