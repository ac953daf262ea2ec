import Oat.FlushLog
import Oat.FoldRun
import Oat.TaHashmap

/-!
# One attestation: what the TA has recorded after any events

The session invariant. A trace buffer together with its object in the
store refines a `FlushLog` (`TraceBuf.Refines`): the object is the
record, the buffer up to its index is what is pending. `SessionInv`
says that, after the events `pre` since `cfa_init`, the two trace
buffers refine the logs to which exactly the indirect targets and the
condition characters of `pre` were pushed, that the hash has been fed
exactly the control events of `pre`, and that no other object was
touched.

`handleEvent_inv` is the step lemma, `handleEvents_inv` the run lemma.
-/

namespace Oat

namespace Ta

/-! ## Kinds of events -/

/-- The branch of `handle_event` an event takes. -/
inductive EventKind where
  | ctrl
  | addr
  | cond
  | data
deriving Repr, DecidableEq

def CfaEvent.kind (evt : CfaEvent) : EventKind :=
  if evt.etype = cfvEventCtrl then .ctrl
  else if evt.etype = cfvEventHintIcall ∨ evt.etype = cfvEventHintIbr then .addr
  else if evt.etype = cfvEventHintCondbr then .cond
  else .data

theorem handleEvent_eq (s : TaState) (evt : CfaEvent) :
    handleEvent s evt =
      match evt.kind with
      | .ctrl => .ok (controlEvent s evt)
      | .addr => traceAddrEvent s evt
      | .cond => traceCondEvent s evt
      | .data => dataEvent s evt := by
  unfold handleEvent CfaEvent.kind
  split
  · rfl
  · split
    · rfl
    · split <;> rfl

theorem kind_addr_iff {evt : CfaEvent} :
    evt.kind = .addr ↔ evt.etype = cfvEventHintIcall ∨ evt.etype = cfvEventHintIbr := by
  unfold CfaEvent.kind
  constructor
  · intro h
    split at h
    · cases h
    · split at h
      · assumption
      · split at h <;> cases h
  · rintro (h | h) <;> simp [h, cfvEventCtrl, cfvEventHintIcall, cfvEventHintIbr]

theorem kind_cond_iff {evt : CfaEvent} :
    evt.kind = .cond ↔ evt.etype = cfvEventHintCondbr := by
  unfold CfaEvent.kind
  constructor
  · intro h
    split at h
    · cases h
    · split at h
      · cases h
      · split at h
        · assumption
        · cases h
  · intro h
    simp [h, cfvEventCtrl, cfvEventHintIcall, cfvEventHintIbr, cfvEventHintCondbr]

/-- The `b` fields of the ICALL and IBR events, in order. -/
def indirectTargets (evts : List CfaEvent) : List UInt64 :=
  (evts.filter fun e => e.etype = cfvEventHintIcall ∨ e.etype = cfvEventHintIbr).map (·.b)

/-- The characters recorded for the CONDBR events, in order. -/
def condTrace (evts : List CfaEvent) : List UInt8 :=
  (evts.filter fun e => e.etype = cfvEventHintCondbr).map condChar

/-- The 16-byte chunks of the CTRL events, in order. -/
def ctrlChunks (evts : List CfaEvent) : List (List UInt8) :=
  (evts.filter fun e => e.etype = cfvEventCtrl).map (·.abBytes)

/-! ## A trace buffer and its object -/

/-- Another object, and the failures to come, are as before. -/
structure Store.SameOff (fname : String) (st st' : Store) : Prop where
  faults : st'.faults = st.faults
  objects : ∀ other, other ≠ fname → st'.objects other = st.objects other

theorem Store.SameOff.refl (fname : String) (st : Store) : Store.SameOff fname st st :=
  ⟨rfl, fun _ _ => rfl⟩

theorem Store.SameOff.put (fname : String) (st : Store) (bytes : List UInt8) :
    Store.SameOff fname st (st.put fname bytes) :=
  ⟨rfl, fun _ h => st.put_objects_of_ne h bytes⟩

theorem Store.SameOff.noFaults {fname : String} {st st' : Store}
    (h : Store.SameOff fname st st') (hst : st.NoFaults) : st'.NoFaults :=
  h.faults.trans hst

namespace TraceBuf

variable {α : Type} {fname : String} {cap : Nat} {enc : α → List UInt8}

/-- The buffer holds `pending` below its index; an unallocated one holds
nothing. -/
structure Holds (t : TraceBuf α) (cap : Nat) (pending : List α) : Prop where
  idx : t.idx = pending.length
  fits : pending.length ≤ cap
  block : ∀ block, t.block = some block → block.length = cap ∧ block.take t.idx = pending
  null : t.block = none → pending = []

/-- The object under `fname` and the buffer refine the log `l`. -/
structure Refines (fname : String) (cap : Nat) (t : TraceBuf α) (st : Store)
    (l : FlushLog α UInt8) : Prop where
  stored : st.contents fname = l.stored
  holds : t.Holds cap l.pending

theorem Holds.fresh (ok : Bool) (cap : Nat) (x : α) :
    (⟨if ok then some (List.replicate cap x) else none, 0⟩ : TraceBuf α).Holds cap [] := by
  refine ⟨rfl, Nat.zero_le _, ?_, fun _ => rfl⟩
  intro block hb
  cases ok with
  | false => cases hb
  | true =>
      obtain rfl := Option.some.inj hb
      exact ⟨List.length_replicate, rfl⟩

theorem Holds.read {t : TraceBuf α} {pending : List α} (h : t.Holds cap pending) :
    t.read t.idx = .ok pending := by
  unfold TraceBuf.read
  by_cases h0 : t.idx = 0
  · rw [if_pos h0, List.length_eq_zero_iff.mp (h.idx.symm.trans h0)]
  · rw [if_neg h0]
    cases hb : t.block with
    | none => exact absurd (h.idx.trans (congrArg List.length (h.null hb))) h0
    | some block =>
        obtain ⟨hlen, htake⟩ := h.block block hb
        have hfits : t.idx ≤ block.length := by rw [hlen, h.idx]; exact h.fits
        simp only [if_pos hfits, htake]

theorem Holds.save (fname : String) (enc : α → List UInt8) {t : TraceBuf α} {pending : List α}
    (h : t.Holds cap pending) {st : Store} (hst : st.NoFaults) :
    t.save fname enc t.idx st = .ok (st.append fname (pending.flatMap enc)) := by
  rw [TraceBuf.save, h.read]
  exact congrArg Except.ok (congrArg Prod.snd (saveData_of_noFaults hst fname _))

/-- Emptying a full buffer never fails, and refines the flush of the
log. -/
theorem Refines.flush (enc : α → List UInt8) {t : TraceBuf α} {st : Store}
    {l : FlushLog α UInt8} (h : t.Refines fname cap st l) (hst : st.NoFaults) :
    ∃ t' st', t.flush fname cap enc st = .ok (t', st') ∧ t'.block = t.block
      ∧ t'.Refines fname cap st' (l.flushIfFull enc cap) ∧ Store.SameOff fname st st' := by
  by_cases hfull : t.idx = cap
  · have hsave := h.holds.save fname enc hst
    rw [hfull] at hsave
    refine ⟨{ t with idx := 0 }, st.append fname (l.pending.flatMap enc), ?_, rfl,
      ?_, Store.SameOff.put fname st _⟩
    · rw [TraceBuf.flush, if_pos hfull, hsave]
      rfl
    · rw [FlushLog.flushIfFull, if_pos (h.holds.idx.symm.trans hfull)]
      refine ⟨?_, rfl, Nat.zero_le _, fun block hb => ⟨(h.holds.block block hb).1, rfl⟩,
        fun _ => rfl⟩
      rw [Store.contents_append_self, h.stored]
      rfl
  · refine ⟨t, st, ?_, rfl, ?_, Store.SameOff.refl fname st⟩
    · rw [TraceBuf.flush, if_neg hfull]
      rfl
    · rw [FlushLog.flushIfFull, if_neg (fun hl => hfull (h.holds.idx.trans hl))]
      exact h

theorem Holds.write {t t' : TraceBuf α} {pending : List α} (h : t.Holds cap pending)
    {x : α} (hw : t.write x = .ok t') : t'.Holds cap (pending ++ [x]) := by
  unfold TraceBuf.write at hw
  cases hb : t.block with
  | none =>
      rw [hb] at hw
      cases hw
  | some block =>
      obtain ⟨hlen, htake⟩ := h.block block hb
      simp only [hb] at hw
      split at hw
      · rename_i hroom
        obtain rfl := Except.ok.inj hw
        refine ⟨by simp [h.idx], ?_, ?_, fun hnone => by cases hnone⟩
        · rw [List.length_append, ← h.idx]
          exact hlen ▸ hroom
        · intro block' hb'
          obtain rfl := Option.some.inj hb'
          refine ⟨by rw [List.length_set, hlen], ?_⟩
          rw [List.take_add_one, List.getElem?_set_self hroom, List.take_set_of_le (Nat.le_refl _),
            htake]
          rfl
      · cases hw

theorem record_of_flush {t t₁ : TraceBuf α} {st st₁ : Store} {x : α}
    (h : t.flush fname cap enc st = .ok (t₁, st₁)) :
    t.record fname cap enc x st = t₁.write x >>= fun t => .ok (t, st₁) := by
  rw [TraceBuf.record, h]
  rfl

/-- Recording an entry refines pushing it. -/
theorem Refines.record {t t' : TraceBuf α} {st st' : Store} {l : FlushLog α UInt8} {x : α}
    (h : t.Refines fname cap st l) (hst : st.NoFaults)
    (hr : t.record fname cap enc x st = .ok (t', st')) :
    t'.Refines fname cap st' (l.push enc cap x) ∧ Store.SameOff fname st st' := by
  obtain ⟨t₁, st₁, hflush, -, href, hsame⟩ := h.flush enc hst
  rw [record_of_flush hflush] at hr
  obtain ⟨t₂, hwrite, hret⟩ := bind_eq_ok.mp hr
  obtain ⟨rfl, rfl⟩ := Prod.mk.injEq .. |>.mp (Except.ok.inj hret)
  exact ⟨⟨href.stored, href.holds.write hwrite⟩, hsame⟩

theorem Refines.of_sameOff {t : TraceBuf α} {st st' : Store} {l : FlushLog α UInt8}
    {other : String} (h : t.Refines fname cap st l) (hsame : Store.SameOff other st st')
    (hne : fname ≠ other) : t.Refines fname cap st' l :=
  ⟨by rw [Store.contents, hsame.objects fname hne]; exact h.stored, h.holds⟩

end TraceBuf

/-! ## The session invariant -/

/-- An object as `cfa_init` finds it, with nothing pending. -/
def startLog (α : Type) (base : Store) (fname : String) : FlushLog α UInt8 :=
  ⟨base.contents fname, []⟩

/-- What the TA has recorded of the events `pre` handled since
`cfa_init`, which found the store `base` and left the hash state `S₀`. -/
structure SessionInv (base : Store) (S₀ : Blake2sState) (pre : List CfaEvent) (s : TaState) :
    Prop where
  noFaults : s.store.NoFaults
  iaddr : s.ctx.iaddrBuf.Refines blobIaddrFname maxIbranchEvents s.store
    ((startLog UInt64 base blobIaddrFname).pushAll le64 maxIbranchEvents (indirectTargets pre))
  cond : s.ctx.condBuf.Refines blobCondFname maxCondEvents s.store
    ((startLog UInt8 base blobCondFname).pushAll charBytes maxCondEvents (condTrace pre))
  hash : s.ctx.S = (ctrlChunks pre).foldl blake2sUpdate S₀
  others : ∀ f, f ≠ blobIaddrFname → f ≠ blobCondFname → s.store.objects f = base.objects f

theorem blobIaddr_ne_cond : blobIaddrFname ≠ blobCondFname := by decide
theorem blobRethash_ne_iaddr : blobRethashFname ≠ blobIaddrFname := by decide
theorem blobRethash_ne_cond : blobRethashFname ≠ blobCondFname := by decide

theorem indirectTargets_concat (pre : List CfaEvent) (evt : CfaEvent) :
    indirectTargets (pre ++ [evt])
      = indirectTargets pre ++ if evt.kind = .addr then [evt.b] else [] := by
  simp only [indirectTargets, List.filter_append, List.map_append, kind_addr_iff]
  split <;> simp_all

theorem condTrace_concat (pre : List CfaEvent) (evt : CfaEvent) :
    condTrace (pre ++ [evt])
      = condTrace pre ++ if evt.kind = .cond then [condChar evt] else [] := by
  simp only [condTrace, List.filter_append, List.map_append, kind_cond_iff]
  split <;> simp_all

theorem kind_ctrl_iff {evt : CfaEvent} : evt.kind = .ctrl ↔ evt.etype = cfvEventCtrl := by
  unfold CfaEvent.kind
  split
  · simp_all
  · split
    · simp_all
    · split <;> simp_all

theorem ctrlChunks_concat (pre : List CfaEvent) (evt : CfaEvent) :
    ctrlChunks (pre ++ [evt])
      = ctrlChunks pre ++ if evt.kind = .ctrl then [evt.abBytes] else [] := by
  simp only [ctrlChunks, List.filter_append, List.map_append, kind_ctrl_iff]
  split <;> simp_all

/-- `cfa_init` starts the invariant, whatever state it is run in. -/
theorem cfaInit_inv {s : TaState} (hst : s.store.NoFaults) :
    SessionInv s.store (blake2sInit s.ctx.S blake2sOutbytes) [] (cfaInit s) where
  noFaults := hst
  iaddr := ⟨rfl, TraceBuf.Holds.fresh (s.mallocs 1) maxIbranchEvents 0⟩
  cond := ⟨rfl, TraceBuf.Holds.fresh (s.mallocs 0) maxCondEvents 0⟩
  hash := rfl
  others := fun _ _ _ => rfl

theorem traceAddrEvent_ok {s s' : TaState} {evt : CfaEvent} (h : traceAddrEvent s evt = .ok s') :
    ∃ t st, s.ctx.iaddrBuf.record blobIaddrFname maxIbranchEvents le64 evt.b s.store = .ok (t, st)
      ∧ s' = { s with ctx := { s.ctx with iaddrBuf := t }, store := st } := by
  obtain ⟨⟨t, st⟩, hrec, hret⟩ := bind_eq_ok.mp h
  exact ⟨t, st, hrec, (Except.ok.inj hret).symm⟩

theorem traceCondEvent_ok {s s' : TaState} {evt : CfaEvent} (h : traceCondEvent s evt = .ok s') :
    ∃ t st, s.ctx.condBuf.record blobCondFname maxCondEvents charBytes (condChar evt) s.store
        = .ok (t, st)
      ∧ s' = { s with ctx := { s.ctx with condBuf := t }, store := st } := by
  obtain ⟨⟨t, st⟩, hrec, hret⟩ := bind_eq_ok.mp h
  exact ⟨t, st, hrec, (Except.ok.inj hret).symm⟩

/-- **Step**: an event extends what is recorded by what it contributes,
and by nothing else. One case per branch of `handle_event`. -/
theorem handleEvent_inv {base : Store} {S₀ : Blake2sState} {pre : List CfaEvent}
    {s s' : TaState} {evt : CfaEvent} (hi : SessionInv base S₀ pre s)
    (h : handleEvent s evt = .ok s') : SessionInv base S₀ (pre ++ [evt]) s' := by
  obtain ⟨hnf, hia, hco, hha, hot⟩ := hi
  rw [handleEvent_eq] at h
  cases hk : evt.kind with
  | ctrl =>
      rw [hk] at h
      obtain rfl := Except.ok.inj h
      refine ⟨hnf, ?_, ?_, ?_, hot⟩
      · simpa [indirectTargets_concat, hk, controlEvent] using hia
      · simpa [condTrace_concat, hk, controlEvent] using hco
      · simp [ctrlChunks_concat, hk, controlEvent, hha]
  | addr =>
      rw [hk] at h
      obtain ⟨t, st, hrec, rfl⟩ := traceAddrEvent_ok h
      obtain ⟨href, hsame⟩ := hia.record hnf hrec
      refine ⟨hsame.noFaults hnf, ?_, ?_, ?_, ?_⟩
      · rw [indirectTargets_concat, if_pos hk, FlushLog.pushAll_append]
        exact href
      · simpa [condTrace_concat, hk] using hco.of_sameOff hsame blobIaddr_ne_cond.symm
      · simpa [ctrlChunks_concat, hk] using hha
      · exact fun f hf hf' => (hsame.objects f hf).trans (hot f hf hf')
  | cond =>
      rw [hk] at h
      obtain ⟨t, st, hrec, rfl⟩ := traceCondEvent_ok h
      obtain ⟨href, hsame⟩ := hco.record hnf hrec
      refine ⟨hsame.noFaults hnf, ?_, ?_, ?_, ?_⟩
      · simpa [indirectTargets_concat, hk] using hia.of_sameOff hsame blobIaddr_ne_cond
      · rw [condTrace_concat, if_pos hk, FlushLog.pushAll_append]
        exact href
      · simpa [ctrlChunks_concat, hk] using hha
      · exact fun f hf hf' => (hsame.objects f hf').trans (hot f hf hf')
  | data =>
      rw [hk] at h
      obtain ⟨hctx, hstore⟩ := dataEvent_frame h
      refine ⟨hstore ▸ hnf, ?_, ?_, ?_, ?_⟩
      · simpa [indirectTargets_concat, hk, hctx, hstore] using hia
      · simpa [condTrace_concat, hk, hctx, hstore] using hco
      · simpa [ctrlChunks_concat, hk, hctx] using hha
      · simpa [hstore] using hot

def handleEvents (s : TaState) (evts : List CfaEvent) : Except Trap TaState :=
  foldRun handleEvent s evts

/-- **Run**: after any events that are handled, exactly they are
recorded. -/
theorem handleEvents_inv {s s' : TaState} {evts : List CfaEvent} (hst : s.store.NoFaults)
    (h : handleEvents (cfaInit s) evts = .ok s') :
    SessionInv s.store (blake2sInit s.ctx.S blake2sOutbytes) evts s' :=
  foldRun_inv (cfaInit_inv hst) (fun _ _ _ _ hi hstep => handleEvent_inv hi hstep) h

end Ta

end Oat
