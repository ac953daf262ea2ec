import Oat.TaDefUse
import Oat.TaLifecycle

/-!
# When `TEE_Malloc` fails

The TA allocates at three places and checks none of them: the two trace
buffers in `cfa_init`, a node in `hashmap_update`. An INIT without
memory still answers success, the next recorded event then writes
through NULL, and so does a data event that gets no node
(`allocSafe_iff`). Events that come before any INIT find the buffers of
a zeroed context, which are NULL too.
-/

namespace Oat

namespace Ta

variable {s : TaState} {cmd : Command}

/-! ## What a command must do, and when it does -/

def CfaEvent.IsData (evt : CfaEvent) : Prop :=
  evt.etype = cfvEventDataDef ∨ evt.etype = cfvEventDataUse

/-- The event finds no node for its address, and no memory for one. -/
structure NodeFails (s : TaState) (evt : CfaEvent) : Prop where
  data : evt.IsData
  absent : hashmapLookup s.nodes s.ctx.secDataHashmap evt.a = .ok none
  memory : s.mallocs 0 = false

/-- A command copes with a failing allocation: nothing is written
through NULL, an INIT without its buffers answers an error and leaves the
context uninitialized, a data event without its node answers an error and
leaves the def-use map alone. -/
structure AllocSafe (s : TaState) (cmd : Command) : Prop where
  node : taInvokeCommandEntryPoint s cmd ≠ .error .nullPointer
  buffer : taInvokeCommandEntryPoint s cmd ≠ .error .unallocatedBuffer
  init : cmd.AcceptedInit → s.mallocs 0 = false ∨ s.mallocs 1 = false →
    ∃ reply, taInvokeCommandEntryPoint s cmd = .ok reply ∧ reply.res ≠ teeSuccess
      ∧ reply.state.ctx.initialized = false
  event : cmd.AcceptedEvent → NodeFails s (verifyEvent cmd.params) →
    ∃ reply, taInvokeCommandEntryPoint s cmd = .ok reply ∧ reply.res ≠ teeSuccess
      ∧ reply.state.nodes = s.nodes ∧ reply.state.ctx.secDataHashmap = s.ctx.secDataHashmap

/-- An accepted INIT gets its two buffers, an accepted address or
condition event comes while the context is initialized, and an accepted
data event gets a node if it does. -/
structure AllocOk (s : TaState) (cmd : Command) : Prop where
  init : cmd.AcceptedInit → s.mallocs 0 = true ∧ s.mallocs 1 = true
  trace : cmd.AcceptedEvent →
    (verifyEvent cmd.params).kind = .addr ∨ (verifyEvent cmd.params).kind = .cond →
    s.ctx.initialized = true
  data : cmd.AcceptedEvent → (verifyEvent cmd.params).IsData → s.ctx.initialized = true →
    s.mallocs 0 = true

/-! ## Before the first INIT -/

/-- The context as the loader zeroed it, as far as memory goes. -/
structure Untouched (s : TaState) : Prop where
  iaddr : s.ctx.iaddrBuf = ⟨none, 0⟩
  cond : s.ctx.condBuf = ⟨none, 0⟩
  hashmap : s.ctx.secDataHashmap.p = 0

def AllocInv (s : TaState) : Prop :=
  if s.ctx.initialized then Ready s else Untouched s

theorem fresh_allocInv (store : Store) (mallocs : Nat → Bool) :
    AllocInv (TaState.fresh store mallocs) := ⟨rfl, rfl, rfl⟩

theorem record_null {α : Type} (fname : String) {cap : Nat} (hcap : 0 < cap)
    (enc : α → List UInt8) (x : α) (st : Store) :
    TraceBuf.record fname cap enc ⟨none, 0⟩ x st = .error .unallocatedBuffer := by
  have hne : ¬ 0 = cap := Nat.ne_of_lt hcap
  simp only [TraceBuf.record, TraceBuf.flush, if_neg hne]
  rfl

theorem kind_data_of_isData {evt : CfaEvent} (h : evt.IsData) : evt.kind = .data := by
  rcases h with h | h <;> simp only [CfaEvent.kind, h] <;> decide

theorem dataEvent_of_not_isData {evt : CfaEvent} (h : ¬ evt.IsData) : dataEvent s evt = .ok s := by
  rw [dataEvent, if_neg fun hd => h (.inl hd), if_neg fun hu => h (.inr hu)]
  rfl

theorem hashmapLookup_untouched (h : Untouched s) (key : UInt64) :
    hashmapLookup s.nodes s.ctx.secDataHashmap key = .error .divByZero := by
  rw [hashmapLookup, hashmapBucket, if_pos h.hashmap]
  rfl

theorem dataEvent_untouched (h : Untouched s) {evt : CfaEvent} (hd : evt.IsData) :
    dataEvent s evt = .error .divByZero := by
  have hlookup := hashmapLookup_untouched h evt.a
  rcases hd with hdef | huse
  · rw [dataEvent_def hdef, hashmapUpdate, hlookup]
    rfl
  · rw [dataEvent, if_neg (by rw [huse]; exact cfvEventDataUse_ne_def), if_pos huse, hlookup]
    rfl

/-- The four kinds of events before an INIT: nothing is recorded. -/
theorem handleEvent_untouched (h : Untouched s) (evt : CfaEvent) :
    match evt.kind with
    | .ctrl => ∃ s', handleEvent s evt = .ok s' ∧ Untouched s' ∧ s'.ctx.initialized = s.ctx.initialized
    | .addr => handleEvent s evt = .error .unallocatedBuffer
    | .cond => handleEvent s evt = .error .unallocatedBuffer
    | .data => handleEvent s evt = .error .divByZero ∨ handleEvent s evt = .ok s := by
  rw [handleEvent_eq]
  cases evt.kind with
  | ctrl => exact ⟨controlEvent s evt, rfl, ⟨h.iaddr, h.cond, h.hashmap⟩, rfl⟩
  | addr =>
      simp only [traceAddrEvent, h.iaddr]
      rw [record_null blobIaddrFname (by decide)]
      rfl
  | cond =>
      simp only [traceCondEvent, h.cond]
      rw [record_null blobCondFname (by decide)]
      rfl
  | data =>
      by_cases hd : evt.IsData
      · exact .inl (dataEvent_untouched h hd)
      · exact .inr (dataEvent_of_not_isData hd)

/-! ## After an INIT -/

theorem handleEvent_initialized {s' : TaState} {evt : CfaEvent} (h : handleEvent s evt = .ok s') :
    s'.ctx.initialized = s.ctx.initialized := by
  rw [handleEvent_eq] at h
  cases hk : evt.kind with
  | ctrl =>
      rw [hk] at h
      obtain rfl := Except.ok.inj h
      rfl
  | addr =>
      rw [hk] at h
      obtain ⟨t, st, -, rfl⟩ := traceAddrEvent_ok h
      rfl
  | cond =>
      rw [hk] at h
      obtain ⟨t, st, -, rfl⟩ := traceCondEvent_ok h
      rfl
  | data =>
      rw [hk] at h
      rw [(dataEvent_frame h).1]

theorem dataEvent_fails (hmap : s.ctx.secDataHashmap.Unlinked) (hm : s.mallocs 0 = false)
    {evt : CfaEvent} (hd : evt.IsData) : dataEvent s evt = .error .nullPointer := by
  rcases hd with hdef | huse
  · rw [dataEvent_def hdef, hashmapUpdate_unlinked_fail hmap hm]
  · rw [dataEvent_use_unlinked huse hmap, hashmapUpdate_unlinked_fail hmap hm]
    rfl

/-- An event in a window is handled, or it is a data event that gets no
node. -/
theorem handleEvent_ready_memory (hr : Ready s) (evt : CfaEvent) :
    (NodeFails s evt ∧ handleEvent s evt = .error .nullPointer)
      ∨ ((evt.IsData → s.mallocs 0 = true) ∧ ∃ s', handleEvent s evt = .ok s' ∧ Ready s') := by
  by_cases hd : evt.IsData
  · cases hm : s.mallocs 0 with
    | false =>
        refine .inl ⟨⟨hd, hashmapLookup_unlinked hr.hashmap _ _, hm⟩, ?_⟩
        rw [handleEvent_eq, kind_data_of_isData hd]
        exact dataEvent_fails hr.hashmap hm hd
    | true =>
        rcases handleEvent_ready_cases hr evt with ⟨s', h, hr', -⟩ | ⟨hfail, -⟩
        · exact .inr ⟨fun _ => rfl, s', h, hr'⟩
        · simp [hm] at hfail
  · refine .inr ⟨fun h => absurd h hd, ?_⟩
    by_cases hk : evt.kind = .data
    · refine ⟨s, ?_, hr⟩
      rw [handleEvent_eq, hk]
      exact dataEvent_of_not_isData hd
    · obtain ⟨s', h, hr', -⟩ := handleEvent_ready_of_ne_data hr hk
      exact ⟨s', h, hr'⟩

/-! ## Commands -/

theorem init_allocSafe_iff (hi : cmd.AcceptedInit) : AllocSafe s cmd ↔ AllocOk s cmd := by
  have hinv := invoke_init (s := s) hi
  have hne : ¬ cmd.AcceptedEvent := fun he => hi.not_event (.inl he.1)
  constructor
  · intro hsafe
    refine ⟨fun _ => ?_, fun he => absurd he hne, fun he => absurd he hne⟩
    -- INIT answers success, so it must not have failed
    by_contra hmem
    have hfail : s.mallocs 0 = false ∨ s.mallocs 1 = false :=
      (not_and_or.mp hmem).imp (Bool.not_eq_true _).mp (Bool.not_eq_true _).mp
    obtain ⟨reply, hreply, hres, -⟩ := hsafe.init hi hfail
    rw [hinv] at hreply
    obtain rfl := Except.ok.inj hreply
    exact hres rfl
  · intro hok
    obtain ⟨h₀, h₁⟩ := hok.init hi
    refine ⟨by simp [hinv], by simp [hinv], fun _ hfail => ?_, fun he => absurd he hne⟩
    simp [h₀, h₁] at hfail

/-- A command that writes through NULL is not safe. -/
theorem not_allocSafe_of_error {e : Trap} (he : e = .nullPointer ∨ e = .unallocatedBuffer)
    (h : taInvokeCommandEntryPoint s cmd = .error e) : ¬ AllocSafe s cmd := by
  intro hsafe
  rcases he with rfl | rfl
  · exact hsafe.node h
  · exact hsafe.buffer h

/-- An event that finds its node or gets one is safe unless it writes
through NULL. -/
theorem event_allocSafe (he : cmd.AcceptedEvent) (hn : ¬ NodeFails s (verifyEvent cmd.params))
    (h₁ : taInvokeCommandEntryPoint s cmd ≠ .error .nullPointer)
    (h₂ : taInvokeCommandEntryPoint s cmd ≠ .error .unallocatedBuffer) : AllocSafe s cmd :=
  ⟨h₁, h₂, fun hi => absurd (.inl he.1) hi.not_event, fun _ h => absurd h hn⟩

theorem event_allocSafe_iff_of_ready (he : cmd.AcceptedEvent) (hwin : s.ctx.initialized = true)
    (hr : Ready s) : AllocSafe s cmd ↔ AllocOk s cmd := by
  have hni : ¬ cmd.AcceptedInit := fun hi => hi.not_event (.inl he.1)
  rcases handleEvent_ready_memory hr (verifyEvent cmd.params) with ⟨hfail, herr⟩ | ⟨hm, s', hok, -⟩
  · have hinv : taInvokeCommandEntryPoint s cmd = .error .nullPointer := by
      rw [invoke_event he, herr]
      rfl
    refine iff_of_false (not_allocSafe_of_error (.inl rfl) hinv) fun hok => ?_
    have hm := hok.data he hfail.data hwin
    rw [hfail.memory] at hm
    cases hm
  · have hinv : taInvokeCommandEntryPoint s cmd = .ok ⟨teeSuccess, cmd.params, s'⟩ := by
      rw [invoke_event he, hok]
      rfl
    refine iff_of_true (event_allocSafe he (fun hf => ?_) (by simp [hinv]) (by simp [hinv]))
      ⟨fun hi => absurd hi hni, fun _ _ => hwin, fun _ hd _ => hm hd⟩
    have hmem := hm hf.data
    rw [hf.memory] at hmem
    cases hmem

theorem event_allocSafe_iff_of_untouched (he : cmd.AcceptedEvent)
    (hwin : s.ctx.initialized = false) (hu : Untouched s) : AllocSafe s cmd ↔ AllocOk s cmd := by
  have hni : ¬ cmd.AcceptedInit := fun hi => hi.not_event (.inl he.1)
  have hn : ¬ NodeFails s (verifyEvent cmd.params) := by
    intro hf
    have habsent := hf.absent
    rw [hashmapLookup_untouched hu] at habsent
    cases habsent
  have hclosed : ¬ s.ctx.initialized = true := by simp [hwin]
  have hok (hk : ¬ ((verifyEvent cmd.params).kind = .addr
      ∨ (verifyEvent cmd.params).kind = .cond)) : AllocOk s cmd :=
    ⟨fun hi => absurd hi hni, fun _ h => absurd h hk, fun _ _ h => absurd h hclosed⟩
  have hnull (hk : (verifyEvent cmd.params).kind = .addr ∨ (verifyEvent cmd.params).kind = .cond)
      (h : handleEvent s (verifyEvent cmd.params) = .error .unallocatedBuffer) :
      AllocSafe s cmd ↔ AllocOk s cmd := by
    have hinv : taInvokeCommandEntryPoint s cmd = .error .unallocatedBuffer := by
      rw [invoke_event he, h]
      rfl
    exact iff_of_false (not_allocSafe_of_error (.inr rfl) hinv)
      fun hok => absurd (hok.trace he hk) hclosed
  have hevent := handleEvent_untouched hu (verifyEvent cmd.params)
  cases hk : (verifyEvent cmd.params).kind with
  | ctrl =>
      rw [hk] at hevent
      obtain ⟨s', h, -⟩ := hevent
      refine iff_of_true (event_allocSafe he hn ?_ ?_) (hok (by simp [hk]))
      · simp [invoke_event he, h, bind, Except.bind]
      · simp [invoke_event he, h, bind, Except.bind]
  | addr =>
      rw [hk] at hevent
      exact hnull (.inl hk) hevent
  | cond =>
      rw [hk] at hevent
      exact hnull (.inr hk) hevent
  | data =>
      rw [hk] at hevent
      refine iff_of_true (event_allocSafe he hn ?_ ?_) (hok (by simp [hk]))
      all_goals
        rw [invoke_event he]
        rcases hevent with h | h <;> simp [h, bind, Except.bind]

theorem not_quote_of_id (hid : cmd.cmdId = taCmdCfaInit ∨ cmd.cmdId = taCmdCfaVerifyEvents) :
    ¬ cmd.AcceptedQuote := by
  rintro ⟨hq, -⟩
  rw [hq] at hid
  revert hid
  decide

/-- **Step**: a command copes with failing allocations exactly when none
of its allocations fails. -/
theorem allocSafe_step_iff (hid : cmd.cmdId = taCmdCfaInit ∨ cmd.cmdId = taCmdCfaVerifyEvents)
    (hJ : AllocInv s) : AllocSafe s cmd ↔ AllocOk s cmd := by
  by_cases hi : cmd.AcceptedInit
  · exact init_allocSafe_iff hi
  · by_cases he : cmd.AcceptedEvent
    · unfold AllocInv at hJ
      split at hJ
      · rename_i hwin
        exact event_allocSafe_iff_of_ready he hwin hJ
      · rename_i hwin
        exact event_allocSafe_iff_of_untouched he (by simpa using hwin) hJ
    · obtain ⟨res, params, hinv, -⟩ := invoke_other (s := s) hi he (not_quote_of_id hid)
      exact iff_of_true ⟨by simp [hinv], by simp [hinv], fun h => absurd h hi, fun h => absurd h he⟩
        ⟨fun h => absurd h hi, fun h => absurd h he, fun h => absurd h he⟩

theorem allocInv_event {s' : TaState} {evt : CfaEvent} (hJ : AllocInv s)
    (h : handleEvent s evt = .ok s') : AllocInv s' := by
  unfold AllocInv at hJ ⊢
  rw [handleEvent_initialized h]
  split at hJ
  · rename_i hwin
    rw [if_pos hwin]
    rcases handleEvent_ready_memory hJ evt with ⟨-, herr⟩ | ⟨-, s₁, h₁, hr⟩
    · exact absurd (herr.symm.trans h) (by simp)
    · obtain rfl := Except.ok.inj (h₁.symm.trans h)
      exact hr
  · rename_i hwin
    rw [if_neg hwin]
    have hevent := handleEvent_untouched hJ evt
    cases hk : evt.kind with
    | ctrl =>
        rw [hk] at hevent
        obtain ⟨s₁, h₁, hu, -⟩ := hevent
        obtain rfl := Except.ok.inj (h₁.symm.trans h)
        exact hu
    | addr =>
        rw [hk] at hevent
        exact absurd (hevent.symm.trans h) (by simp)
    | cond =>
        rw [hk] at hevent
        exact absurd (hevent.symm.trans h) (by simp)
    | data =>
        rw [hk] at hevent
        rcases hevent with h₁ | h₁
        · exact absurd (h₁.symm.trans h) (by simp)
        · obtain rfl := Except.ok.inj (h₁.symm.trans h)
          exact hJ

/-- **Step**, invariant: buffers and map are as INIT leaves them, or as
they were before. -/
theorem allocInv_step {s' : TaState}
    (hid : cmd.cmdId = taCmdCfaInit ∨ cmd.cmdId = taCmdCfaVerifyEvents) (hJ : AllocInv s)
    (hC : AllocSafe s cmd) (h : taStep s cmd = .ok s') : AllocInv s' := by
  by_cases hi : cmd.AcceptedInit
  · obtain ⟨h₀, h₁⟩ := ((allocSafe_step_iff hid hJ).mp hC).init hi
    rw [taStep, invoke_init hi] at h
    obtain rfl := Except.ok.inj h
    exact cfaInit_ready h₀ h₁
  · by_cases he : cmd.AcceptedEvent
    · exact allocInv_event hJ ((taStep_ok (invoke_event he) fun _ => rfl).mp h)
    · have hq : ¬ cmd.AcceptedQuote := not_quote_of_id hid
      obtain rfl := (other_safe hi he hq).2 s' h
      exact hJ

/-! ## Runs -/

/-- **Run**: from the zero-initialised globals, whatever allocations
fail, each command copes with that exactly when none of them concerns
it. -/
theorem allocSafe_iff (store : Store) (mallocs : Nat → Bool) (cmds : List Command)
    (hids : ∀ cmd ∈ cmds, cmd.cmdId = taCmdCfaInit ∨ cmd.cmdId = taCmdCfaVerifyEvents) :
    EachStep taStep AllocSafe (TaState.fresh store mallocs) cmds ↔
      EachStep taStep AllocOk (TaState.fresh store mallocs) cmds :=
  EachStep.congr (J := AllocInv)
    (fun cmd hcmd _ _ hJ hC h => allocInv_step (hids cmd hcmd) hJ hC h)
    (fun cmd hcmd _ hJ => allocSafe_step_iff (hids cmd hcmd) hJ) (fresh_allocInv store mallocs)

theorem allocSafe_iff_sample :
    EachStep taStep AllocSafe (TaState.fresh Store.empty fun _ => true)
      [sampleInit, sampleEvent 0x20 0x400100 3] := by
  refine (allocSafe_iff _ _ _ (by decide)).mpr (eachStep_cons.mpr
    ⟨⟨fun _ => ⟨rfl, rfl⟩, fun he => absurd he (by decide), fun he => absurd he (by decide)⟩, ?_⟩)
  intro s₁ h₁
  rw [taStep, invoke_init ⟨rfl, rfl⟩] at h₁
  obtain rfl := Except.ok.inj h₁
  exact eachStep_cons.mpr ⟨⟨fun hi => absurd hi (by decide), fun _ _ => rfl, fun _ _ _ => rfl⟩,
    fun s₂ _ => eachStep_nil s₂⟩

/-- INIT finds no memory for its first buffer, and answers success. -/
theorem init_without_memory :
    ¬ ∀ (store : Store) (mallocs : Nat → Bool) (cmds : List Command),
      (∀ cmd ∈ cmds, cmd.cmdId = taCmdCfaInit ∨ cmd.cmdId = taCmdCfaVerifyEvents) →
      EachStep taStep AllocSafe (TaState.fresh store mallocs) cmds := by
  intro h
  have hsafe := h Store.empty (fun n => decide (n ≠ 0)) [sampleInit] (by decide)
  obtain ⟨reply, hreply, hres, -⟩ := (eachStep_cons.mp hsafe).1.init ⟨rfl, rfl⟩ (.inl rfl)
  rw [invoke_init ⟨rfl, rfl⟩] at hreply
  obtain rfl := Except.ok.inj hreply
  exact hres rfl

end Ta

end Oat
