import Oat.TaAttest

/-!
# The def-use check against its history

What `data_event` is for: a use of `(addr, value)` is in order when the
most recent event for `addr` carried `value` (`lastValue`), and is
flagged otherwise. What it does: the map never links a node
(`hashmapUpdate_ok`), so every use is flagged, and the check is right
exactly on the runs in which every use happens to be a violation
(`useCheck_iff`).
-/

namespace Oat

namespace Ta

/-! ## The history of an address -/

/-- The value carried by the most recent DEF or USE event for `addr`. -/
def lastValue (pre : List CfaEvent) (addr : UInt64) : Option UInt64 :=
  (pre.reverse.find? fun e =>
    (e.etype = cfvEventDataDef ∨ e.etype = cfvEventDataUse) ∧ e.a = addr).map (·.b)

/-- Over the run of `evts`, a USE event is flagged if and only if its
address has no value on record, or another one. -/
def ChecksUses (s : TaState) (evts : List CfaEvent) : Prop :=
  ∀ pre evt post s₁ s₂, evts = pre ++ evt :: post → evt.etype = cfvEventDataUse →
    handleEvents (cfaInit s) pre = .ok s₁ → handleEvent s₁ evt = .ok s₂ →
    (s₂.dmsg ≠ s₁.dmsg ↔ lastValue pre evt.a ≠ some evt.b)

/-- No USE event carries the value its address has on record. -/
def AllUsesViolate (evts : List CfaEvent) : Prop :=
  ∀ pre evt post, evts = pre ++ evt :: post → evt.etype = cfvEventDataUse →
    lastValue pre evt.a ≠ some evt.b

/-! ## Every use is flagged -/

theorem handleEvent_hashmap {s s' : TaState} {evt : CfaEvent} (h : handleEvent s evt = .ok s') :
    s'.ctx.secDataHashmap = s.ctx.secDataHashmap := by
  rw [handleEvent_eq] at h
  cases hk : evt.kind with
  | ctrl =>
      rw [hk] at h
      obtain rfl := Except.ok.inj h
      rfl
  | addr =>
      rw [hk] at h
      obtain ⟨t, st, -, rfl⟩ := traceAddrEvent_ok h
      rfl
  | cond =>
      rw [hk] at h
      obtain ⟨t, st, -, rfl⟩ := traceCondEvent_ok h
      rfl
  | data =>
      rw [hk] at h
      rw [(dataEvent_frame h).1]

theorem handleEvents_unlinked {s s' : TaState} {evts : List CfaEvent}
    (h : handleEvents (cfaInit s) evts = .ok s') : s'.ctx.secDataHashmap.Unlinked :=
  foldRun_inv (I := fun _ s => s.ctx.secDataHashmap.Unlinked) rfl
    (fun _ _ _ _ hi hstep => (handleEvent_hashmap hstep).symm ▸ hi) h

theorem handleEvent_use {s : TaState} {evt : CfaEvent} (huse : evt.etype = cfvEventDataUse) :
    handleEvent s evt = dataEvent s evt := by
  simp [handleEvent, huse, cfvEventCtrl, cfvEventDataUse, cfvEventHintIcall, cfvEventHintIbr,
    cfvEventHintCondbr]

/-- A use event that is handled is flagged, whatever came before it. -/
theorem use_flagged {s s₁ s₂ : TaState} {pre : List CfaEvent} {evt : CfaEvent}
    (huse : evt.etype = cfvEventDataUse) (hpre : handleEvents (cfaInit s) pre = .ok s₁)
    (h : handleEvent s₁ evt = .ok s₂) : s₂.dmsg ≠ s₁.dmsg := by
  rw [handleEvent_use huse, dataEvent_use_unlinked huse (handleEvents_unlinked hpre)] at h
  obtain ⟨s₃, hupd, hret⟩ := bind_eq_ok.mp h
  obtain ⟨-, -, hdmsg⟩ := hashmapUpdate_frame hupd
  obtain rfl := Except.ok.inj hret
  simp [hdmsg]

/-- The check is right on a run exactly when every use in it violates
the def-use relation. -/
theorem useCheck_iff (s : TaState) (evts : List CfaEvent) :
    (∀ s', handleEvents (cfaInit s) evts = .ok s' → (ChecksUses s evts ↔ AllUsesViolate evts))
      ∧ (s.MallocsSucceed → ∃ s', handleEvents (cfaInit s) evts = .ok s') := by
  constructor
  · intro s' h
    constructor
    · rintro hchecks pre evt post rfl huse
      obtain ⟨s₁, s₂, hpre, hevt, -⟩ := foldRun_split h
      exact (hchecks pre evt post s₁ s₂ rfl huse hpre hevt).mp (use_flagged huse hpre hevt)
    · intro hviol pre evt post s₁ s₂ hsplit huse hpre hevt
      exact iff_of_true (use_flagged huse hpre hevt) (hviol pre evt post hsplit huse)
  · intro hm
    obtain ⟨s', h, -⟩ := handleEvents_total hm evts
    exact ⟨s', h⟩

/-- A definition and a use of the same value, as `microbench.c` makes
them: the use is flagged. -/
theorem define_then_use_flagged :
    ¬ ChecksUses (TaState.fresh Store.empty fun _ => true)
      [⟨cfvEventDataDef, 0x400100, 3⟩, ⟨cfvEventDataUse, 0x400100, 3⟩] := by
  intro hchecks
  obtain ⟨s₁, hpre, hready, hm⟩ := handleEvents_total
    (s := TaState.fresh Store.empty fun _ => true) (fun _ => rfl)
    [⟨cfvEventDataDef, 0x400100, 3⟩]
  obtain ⟨s₂, hevt, -⟩ := handleEvent_ready hready hm ⟨cfvEventDataUse, 0x400100, 3⟩
  have hflag := hchecks [⟨cfvEventDataDef, 0x400100, 3⟩] ⟨cfvEventDataUse, 0x400100, 3⟩ [] s₁ s₂
    rfl rfl hpre hevt
  exact hflag.mp (use_flagged rfl hpre hevt) (by decide)

end Ta

end Oat
