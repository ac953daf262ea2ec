import Oat.TaSession

/-!
# Inside the INIT..QUOTE window nothing traps

`Ready` is the part of the state that memory safety rests on: both trace
buffers are allocated and their indices in range, and the def-use map is
the one `cfa_init` built. It holds after an INIT whose allocations
succeed, every event keeps it (`handleEvent_ready_cases`) whatever the
storage layer answers, and a quote on it does not trap
(`cfaQuoteSave_ready`).
-/

namespace Oat

namespace Ta

namespace TraceBuf

variable {α : Type} {fname : String} {cap : Nat} {enc : α → List UInt8}

/-- An allocated buffer of `cap` entries with its index in range. -/
structure Allocated (t : TraceBuf α) (cap : Nat) : Prop where
  block : ∃ block, t.block = some block ∧ block.length = cap
  idx : t.idx ≤ cap

theorem Allocated.read {t : TraceBuf α} (h : t.Allocated cap) {n : Nat} (hn : n ≤ cap) :
    ∃ entries, t.read n = .ok entries := by
  obtain ⟨⟨block, hblock, hlen⟩, -⟩ := h
  unfold TraceBuf.read
  by_cases h0 : n = 0
  · exact ⟨[], by rw [if_pos h0]⟩
  · refine ⟨block.take n, ?_⟩
    rw [if_neg h0, hblock]
    simp only [hlen, if_pos hn]

theorem Allocated.save (fname : String) (enc : α → List UInt8) {t : TraceBuf α}
    (h : t.Allocated cap) {n : Nat} (hn : n ≤ cap) (st : Store) :
    ∃ st', t.save fname enc n st = .ok st' := by
  obtain ⟨entries, hread⟩ := h.read hn
  exact ⟨_, by rw [TraceBuf.save, hread]; rfl⟩

theorem Allocated.flush (fname : String) (enc : α → List UInt8) {t : TraceBuf α}
    (h : t.Allocated cap) (hcap : 0 < cap) (st : Store) :
    ∃ t' st', t.flush fname cap enc st = .ok (t', st') ∧ t'.block = t.block ∧ t'.idx < cap := by
  by_cases hfull : t.idx = cap
  · obtain ⟨st', hsave⟩ := h.save fname enc (Nat.le_refl cap) st
    refine ⟨{ t with idx := 0 }, st', ?_, rfl, hcap⟩
    rw [TraceBuf.flush, if_pos hfull, hsave]
    rfl
  · refine ⟨t, st, ?_, rfl, Nat.lt_of_le_of_ne h.idx hfull⟩
    rw [TraceBuf.flush, if_neg hfull]
    rfl

/-- Recording succeeds whatever the storage calls of a flush answer. -/
theorem Allocated.record (fname : String) (enc : α → List UInt8) {t : TraceBuf α}
    (h : t.Allocated cap) (hcap : 0 < cap) (x : α) (st : Store) :
    ∃ t' st', t.record fname cap enc x st = .ok (t', st') ∧ t'.Allocated cap := by
  obtain ⟨t₁, st₁, hflush, hblock, hidx⟩ := h.flush fname enc hcap st
  obtain ⟨⟨block, hsome, hlen⟩, -⟩ := h
  refine ⟨⟨some (block.set t₁.idx x), t₁.idx + 1⟩, st₁, ?_, ⟨_, rfl, ?_⟩, hidx⟩
  · rw [record_of_flush hflush, TraceBuf.write, hblock, hsome]
    simp only [if_pos (hlen ▸ hidx)]
    rfl
  · rw [List.length_set, hlen]

end TraceBuf

/-- The state a window is in: what no event and no quote can trap on. -/
structure Ready (s : TaState) : Prop where
  iaddr : s.ctx.iaddrBuf.Allocated maxIbranchEvents
  cond : s.ctx.condBuf.Allocated maxCondEvents
  hashmap : s.ctx.secDataHashmap.Unlinked

theorem cfaInit_ready {s : TaState} (h₀ : s.mallocs 0 = true) (h₁ : s.mallocs 1 = true) :
    Ready (cfaInit s) where
  iaddr := ⟨⟨List.replicate maxIbranchEvents 0, by simp [cfaInit, teeMalloc, h₁],
    List.length_replicate⟩, Nat.zero_le _⟩
  cond := ⟨⟨List.replicate maxCondEvents 0, by simp [cfaInit, teeMalloc, h₀],
    List.length_replicate⟩, Nat.zero_le _⟩
  hashmap := rfl

theorem cfaInit_mallocs {s : TaState} (hm : s.MallocsSucceed) :
    (cfaInit s).MallocsSucceed := fun n => hm (n + 1 + 1)

/-- An event that needs no node is handled. -/
theorem handleEvent_ready_of_ne_data {s : TaState} (hr : Ready s) {evt : CfaEvent}
    (hk : evt.kind ≠ .data) :
    ∃ s', handleEvent s evt = .ok s' ∧ Ready s' ∧ s'.mallocs = s.mallocs := by
  obtain ⟨hia, hco, hmap⟩ := hr
  rw [handleEvent_eq]
  cases h : evt.kind with
  | ctrl => exact ⟨controlEvent s evt, rfl, ⟨hia, hco, hmap⟩, rfl⟩
  | addr =>
      obtain ⟨t, st, hrec, ht⟩ := hia.record blobIaddrFname le64 (by decide) evt.b s.store
      exact ⟨{ s with ctx := { s.ctx with iaddrBuf := t }, store := st },
        by simp only [traceAddrEvent, hrec]; rfl, ⟨ht, hco, hmap⟩, rfl⟩
  | cond =>
      obtain ⟨t, st, hrec, ht⟩ := hco.record blobCondFname charBytes (by decide)
        (condChar evt) s.store
      exact ⟨{ s with ctx := { s.ctx with condBuf := t }, store := st },
        by simp only [traceCondEvent, hrec]; rfl, ⟨hia, ht, hmap⟩, rfl⟩
  | data => exact absurd h hk

/-- An event in the window is handled, and leaves the window intact,
unless a data event finds no memory for its node. -/
theorem handleEvent_ready_cases {s : TaState} (hr : Ready s) (evt : CfaEvent) :
    (∃ s', handleEvent s evt = .ok s' ∧ Ready s' ∧ (s.MallocsSucceed → s'.MallocsSucceed))
      ∨ (s.mallocs 0 = false ∧ handleEvent s evt = .error .nullPointer) := by
  by_cases hk : evt.kind = .data
  · obtain ⟨hia, hco, hmap⟩ := hr
    have heq : handleEvent s evt = dataEvent s evt := by rw [handleEvent_eq, hk]
    rw [heq]
    rcases dataEvent_unlinked hmap evt with ⟨s', hdata, hm⟩ | hfail
    · obtain ⟨hctx, -⟩ := dataEvent_frame hdata
      exact Or.inl ⟨s', hdata, ⟨by rw [hctx]; exact hia, by rw [hctx]; exact hco,
        by rw [hctx]; exact hmap⟩, hm⟩
    · exact Or.inr hfail
  · obtain ⟨s', h, hr', hm⟩ := handleEvent_ready_of_ne_data hr hk
    exact Or.inl ⟨s', h, hr', fun hall => by rw [TaState.MallocsSucceed, hm]; exact hall⟩

/-- An event in the window is handled as long as memory lasts. -/
theorem handleEvent_ready {s : TaState} (hr : Ready s) (hm : s.MallocsSucceed)
    (evt : CfaEvent) :
    ∃ s', handleEvent s evt = .ok s' ∧ Ready s' ∧ s'.MallocsSucceed := by
  rcases handleEvent_ready_cases hr evt with ⟨s', h, hr', hm'⟩ | ⟨hfail, -⟩
  · exact ⟨s', h, hr', hm' hm⟩
  · exact absurd (hm 0) (by simp [hfail])

theorem cfaQuoteSave_closes {s s' : TaState} (h : cfaQuoteSave s = .ok s') :
    s'.ctx.initialized = false := by
  obtain ⟨st₁, -, h₁⟩ := bind_eq_ok.mp h
  obtain ⟨st₂, -, h₂⟩ := bind_eq_ok.mp h₁
  obtain rfl := Except.ok.inj h₂
  rfl

theorem cfaQuoteSave_ready {s : TaState} (hr : Ready s) :
    ∃ s', cfaQuoteSave s = .ok s' ∧ s'.mallocs = s.mallocs := by
  obtain ⟨st₁, hsave₁⟩ := hr.iaddr.save blobIaddrFname le64 hr.iaddr.idx s.store
  obtain ⟨st₂, hsave₂⟩ := hr.cond.save blobCondFname charBytes hr.cond.idx st₁
  have h₁ : (cfaQuote s).ctx.iaddrBuf.save blobIaddrFname le64 (cfaQuote s).ctx.iaddrBuf.idx
      (cfaQuote s).store = .ok st₁ := hsave₁
  have h₂ : (cfaQuote s).ctx.condBuf.save blobCondFname charBytes (cfaQuote s).ctx.condBuf.idx
      st₁ = .ok st₂ := hsave₂
  simp only [cfaQuoteSave, h₁, bind, Except.bind, h₂]
  exact ⟨_, rfl, rfl⟩

/-- Any events after an INIT are handled as long as memory lasts. -/
theorem handleEvents_total {s : TaState} (hm : s.MallocsSucceed) (evts : List CfaEvent) :
    ∃ s', handleEvents (cfaInit s) evts = .ok s' ∧ Ready s' ∧ s'.MallocsSucceed :=
  foldRun_total (fun evt _ hs => handleEvent_ready hs.1 hs.2 evt) evts
    ⟨cfaInit_ready (hm 0) (hm 1), cfaInit_mallocs hm⟩

end Ta

end Oat
