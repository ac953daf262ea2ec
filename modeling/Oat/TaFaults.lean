import Oat.TaLifecycle

/-!
# Storage calls that fail

Any call of the storage layer may fail at any use, and every command
answers `TEE_SUCCESS` all the same: `save_data`'s result is dropped by
each of its callers, a flush resets the index whether or not the flush
went through, and `check_file_exists` takes any failure to open for
absence, upon which `prepare_file` overwrites what was there.

`SaveGoes` is the pattern of answers on which a save does append. A save
that does not go leaves the object shorter than it should be
(`saveData_grew`), and no later save makes up for that: so a session
keeps everything exactly when each of its saves goes
(`session_kept_iff`).

The hash state does not depend on the store at all:
`return_hash_commits` needs no assumption about it.
-/

namespace Oat

namespace Ta

/-! ## The return hash -/

theorem handleEvent_hash {s s' : TaState} {evt : CfaEvent} (h : handleEvent s evt = .ok s') :
    s'.ctx.S = (if evt.kind = .ctrl then [evt.abBytes] else []).foldl blake2sUpdate s.ctx.S := by
  rw [handleEvent_eq] at h
  cases hk : evt.kind with
  | ctrl =>
      rw [hk] at h
      obtain rfl := Except.ok.inj h
      rfl
  | addr =>
      rw [hk] at h
      obtain ⟨t, st, -, rfl⟩ := traceAddrEvent_ok h
      rfl
  | cond =>
      rw [hk] at h
      obtain ⟨t, st, -, rfl⟩ := traceCondEvent_ok h
      rfl
  | data =>
      rw [hk] at h
      rw [(dataEvent_frame h).1]
      rfl

/-- After any events the hash has taken in the control events, one
update each, and nothing else. -/
theorem handleEvents_hash {s s' : TaState} {evts : List CfaEvent}
    (h : handleEvents (cfaInit s) evts = .ok s') :
    s'.ctx.S = (ctrlChunks evts).foldl blake2sUpdate (blake2sInit s.ctx.S blake2sOutbytes) := by
  refine foldRun_inv (I := fun pre s' => s'.ctx.S
    = (ctrlChunks pre).foldl blake2sUpdate (blake2sInit s.ctx.S blake2sOutbytes)) rfl ?_ h
  intro pre evt s₁ s₂ hS hstep
  rw [handleEvent_hash hstep, hS, ctrlChunks_concat, List.foldl_append]

/-- Whatever else is handled in between, and whatever the storage layer
does, the digest a quote leaves in the context is the one-shot digest of
the control events. -/
theorem return_hash_commits (s : TaState) (evts : List CfaEvent) :
    (∀ s', handleEvents (cfaInit s) evts = .ok s' →
        blake2s blake2sOutbytes
            ((evts.filter fun e => e.etype = cfvEventCtrl).flatMap fun e => le64 e.a ++ le64 e.b)
          = some ((cfaQuote s').ctx.digest.take blake2sOutbytes))
      ∧ (s.MallocsSucceed → ∃ s', handleEvents (cfaInit s) evts = .ok s') := by
  constructor
  · intro s' h
    rw [cfaQuote_digest (handleEvents_hash h)]
    exact (digestOf_spec evts).1
  · intro hm
    obtain ⟨s', h, -⟩ := handleEvents_total hm evts
    exact ⟨s', h⟩

/-- Two returns with an indirect call between them. -/
theorem return_hash_commits_sample :
    ∃ s', handleEvents (cfaInit (TaState.fresh Store.empty fun _ => true))
        [⟨cfvEventCtrl, 1, 2⟩, sampleIcall, ⟨cfvEventCtrl, 3, 4⟩] = .ok s'
      ∧ blake2s blake2sOutbytes (le64 1 ++ le64 2 ++ (le64 3 ++ le64 4))
        = some ((cfaQuote s').ctx.digest.take blake2sOutbytes) := by
  obtain ⟨hdigest, hrun⟩ := return_hash_commits (TaState.fresh Store.empty fun _ => true)
    [⟨cfvEventCtrl, 1, 2⟩, sampleIcall, ⟨cfvEventCtrl, 3, 4⟩]
  obtain ⟨s', h⟩ := hrun fun _ => rfl
  exact ⟨s', h, hdigest s' h⟩

/-! ## The file layer, whatever it answers -/

@[simp] theorem answer_faults (st : Store) (n : Nat) : st.answer.2.faults n = st.faults (n + 1) :=
  rfl

@[simp] theorem answer_objects (st : Store) : st.answer.2.objects = st.objects := rfl

/-- The probe takes a failure to open for absence. -/
theorem saveData_eq (st : Store) (fname : String) (buf : List UInt8) :
    saveData fname buf st =
      if st.faults 0 = teeSuccess ∧ st.objects fname ≠ none then appendFile fname buf st.answer.2
      else prepareFile fname buf st.answer.2 := by
  rw [saveData, checkFileExists, teeOpenPersistentObject]
  by_cases h₀ : st.faults 0 = teeSuccess <;> cases hobj : st.objects fname <;>
    simp [Store.answer, h₀, hobj]

theorem prepareFile_objects (st : Store) (fname : String) (chunk : List UInt8) (f : String) :
    (prepareFile fname chunk st).2.objects f =
      if f ≠ fname ∨ st.faults 0 ≠ teeSuccess then st.objects f
      else if st.faults 1 ≠ teeSuccess then some []
      else some chunk := by
  by_cases hf : f = fname <;> by_cases h₀ : st.faults 0 = teeSuccess <;>
    by_cases h₁ : st.faults 1 = teeSuccess <;>
    simp [prepareFile, teeCreatePersistentObject, teeWriteObjectData, Store.answer, Store.contents,
      Store.put, hf, h₀, h₁]

theorem appendFile_objects {st : Store} {fname : String} {old : List UInt8}
    (hobj : st.objects fname = some old) (chunk : List UInt8) (f : String) :
    (appendFile fname chunk st).2.objects f =
      if f ≠ fname then st.objects f
      else if st.faults 0 = teeSuccess ∧ st.faults 1 = teeSuccess ∧ st.faults 2 = teeSuccess
      then some (old ++ chunk)
      else some old := by
  by_cases hf : f = fname <;> by_cases h₀ : st.faults 0 = teeSuccess <;>
    by_cases h₁ : st.faults 1 = teeSuccess <;> by_cases h₂ : st.faults 2 = teeSuccess <;>
    simp [appendFile, teeOpenPersistentObject, teeSeekObjectDataEnd, teeWriteObjectData,
      Store.answer, Store.contents, Store.put, hobj, hf, h₀, h₁, h₂]

theorem saveData_objects_of_ne (st : Store) {fname other : String} (h : other ≠ fname)
    (buf : List UInt8) : (saveData fname buf st).2.objects other = st.objects other := by
  rw [saveData_eq]
  split_ifs with hthere
  · obtain ⟨old, hobj⟩ := Option.ne_none_iff_exists'.mp hthere.2
    have hobj' : st.answer.2.objects fname = some old := hobj
    rw [appendFile_objects hobj', if_pos h, answer_objects]
  · rw [prepareFile_objects, if_pos (Or.inl h), answer_objects]

theorem saveData_contents_of_ne (st : Store) {fname other : String} (h : other ≠ fname)
    (buf : List UInt8) : (saveData fname buf st).2.contents other = st.contents other := by
  rw [Store.contents, saveData_objects_of_ne st h, Store.contents]

theorem saveData_contents (st : Store) (fname : String) (buf : List UInt8) :
    (saveData fname buf st).2.contents fname =
      if st.faults 0 = teeSuccess ∧ st.objects fname ≠ none then
        if st.faults 1 = teeSuccess ∧ st.faults 2 = teeSuccess ∧ st.faults 3 = teeSuccess
        then st.contents fname ++ buf else st.contents fname
      else if st.faults 1 ≠ teeSuccess then st.contents fname
      else if st.faults 2 ≠ teeSuccess then []
      else buf := by
  rw [saveData_eq, Store.contents, Store.contents]
  by_cases hthere : st.faults 0 = teeSuccess ∧ st.objects fname ≠ none
  · obtain ⟨old, hobj⟩ := Option.ne_none_iff_exists'.mp hthere.2
    have hobj' : st.answer.2.objects fname = some old := hobj
    rw [if_pos hthere, if_pos hthere, appendFile_objects hobj', hobj]
    by_cases happend : st.faults 1 = teeSuccess ∧ st.faults 2 = teeSuccess ∧ st.faults 3 = teeSuccess
    · simp [happend]
    · simp [happend]
  · rw [if_neg hthere, if_neg hthere, prepareFile_objects]
    by_cases hcreate : st.faults 1 = teeSuccess <;> by_cases hwrite : st.faults 2 = teeSuccess <;>
      simp [hcreate, hwrite]

/-- The answers on which a save appends all of `buf` to an object that
holds what it held: the probe finds an object that is there, or there is
nothing to overwrite, and the calls after it succeed as far as they
matter. -/
def SaveGoes (fname : String) (buf : List UInt8) (st : Store) : Prop :=
  if st.faults 0 = teeSuccess ∧ st.objects fname ≠ none then
    buf = [] ∨ st.faults 1 = teeSuccess ∧ st.faults 2 = teeSuccess ∧ st.faults 3 = teeSuccess
  else if st.contents fname = [] then
    buf = [] ∨ st.faults 1 = teeSuccess ∧ st.faults 2 = teeSuccess
  else buf = [] ∧ st.faults 1 ≠ teeSuccess

instance (fname : String) (buf : List UInt8) (st : Store) : Decidable (SaveGoes fname buf st) := by
  unfold SaveGoes
  infer_instance

/-- Whatever is answered, the object does not grow by more than `buf`, and
by as much only if `buf` was appended to it. -/
theorem saveData_grew (st : Store) (fname : String) (buf : List UInt8) :
    Grew (st.contents fname) buf ((saveData fname buf st).2.contents fname) := by
  rw [saveData_contents]
  constructor
  · split_ifs <;> simp
  · intro hfull
    split_ifs at hfull ⊢
    · rfl
    · rw [List.eq_nil_of_length_eq_zero (l := buf) (by omega), List.append_nil]
    · rw [List.eq_nil_of_length_eq_zero (l := buf) (by omega), List.append_nil]
    · simp only [List.length_nil, Nat.le_zero, Nat.add_eq_zero_iff, List.length_eq_zero_iff] at hfull
      rw [hfull.1, hfull.2, List.append_nil]
    · rw [List.eq_nil_of_length_eq_zero (l := st.contents fname) (by omega), List.nil_append]

theorem saveData_goes_iff (st : Store) (fname : String) (buf : List UInt8) :
    (saveData fname buf st).2.contents fname = st.contents fname ++ buf
      ↔ SaveGoes fname buf st := by
  rw [saveData_contents, SaveGoes]
  split_ifs <;> simp_all

/-! ## A trace buffer under failures -/

namespace TraceBuf

variable {α : Type} {fname : String} {cap : Nat} {enc : α → List UInt8}

/-- The entries below the index. -/
def pending (t : TraceBuf α) : List α := (t.block.getD []).take t.idx

theorem Holds.pending {t : TraceBuf α} {xs : List α} (h : t.Holds cap xs) : t.pending = xs := by
  cases hb : t.block with
  | none => rw [h.null hb, TraceBuf.pending, hb, Option.getD_none, List.take_nil]
  | some block => rw [TraceBuf.pending, hb, Option.getD_some, (h.block block hb).2]

/-- An object and the buffer in front of it, as a log. -/
def log (fname : String) (t : TraceBuf α) (st : Store) : FlushLog α UInt8 :=
  ⟨st.contents fname, t.pending⟩

theorem Holds.log_total (fname : String) (enc : α → List UInt8) {t : TraceBuf α} {xs : List α}
    (h : t.Holds cap xs) (st : Store) :
    (t.log fname st).total enc = st.contents fname ++ xs.flatMap enc := by
  rw [log, FlushLog.total, h.pending]

/-- The buffer is in order, and it and its object together hold at most
as much as `base` followed by the entries `xs`. -/
structure Bounded (fname : String) (cap : Nat) (enc : α → List UInt8) (base : List UInt8)
    (xs : List α) (t : TraceBuf α) (st : Store) : Prop where
  holds : t.Holds cap t.pending
  short : ((t.log fname st).total enc).length ≤ (base ++ xs.flatMap enc).length

/-- It holds all of `base` and the entries `xs`, in order. -/
def Keeps (fname : String) (enc : α → List UInt8) (base : List UInt8) (xs : List α)
    (t : TraceBuf α) (st : Store) : Prop :=
  (t.log fname st).total enc = base ++ xs.flatMap enc

/-- The flush that recording an entry starts with, if any, goes. -/
def FlushGoes (fname : String) (cap : Nat) (enc : α → List UInt8) (t : TraceBuf α) (st : Store) :
    Prop :=
  t.idx = cap → SaveGoes fname (t.pending.flatMap enc) st

theorem Holds.save_eq (fname : String) (enc : α → List UInt8) {t : TraceBuf α} {xs : List α}
    (h : t.Holds cap xs) (st : Store) :
    t.save fname enc t.idx st = .ok (saveData fname (xs.flatMap enc) st).2 := by
  rw [TraceBuf.save, h.read]
  rfl

/-- What recording does: the entry joins what was pending, or it finds
the buffer full and is alone in it once that was handed to `save_data`,
with whatever success. -/
theorem record_cases {t t' : TraceBuf α} {st st' : Store} {xs : List α} {x : α}
    (h : t.Holds cap xs) (hr : t.record fname cap enc x st = .ok (t', st')) :
    (t.idx ≠ cap ∧ t'.Holds cap (xs ++ [x]) ∧ st' = st)
      ∨ (t.idx = cap ∧ t'.Holds cap [x] ∧ st' = (saveData fname (xs.flatMap enc) st).2) := by
  by_cases hfull : t.idx = cap
  · have hempty : ({ t with idx := 0 } : TraceBuf α).Holds cap [] :=
      ⟨rfl, Nat.zero_le _, fun block hb => ⟨(h.block block hb).1, rfl⟩, fun _ => rfl⟩
    have hsave := h.save_eq fname enc st
    rw [hfull] at hsave
    have hflush : t.flush fname cap enc st
        = .ok ({ t with idx := 0 }, (saveData fname (xs.flatMap enc) st).2) := by
      rw [TraceBuf.flush, if_pos hfull, hsave]
      rfl
    rw [record_of_flush hflush] at hr
    obtain ⟨t₂, hwrite, hret⟩ := bind_eq_ok.mp hr
    obtain ⟨rfl, rfl⟩ := Prod.mk.injEq .. |>.mp (Except.ok.inj hret)
    exact Or.inr ⟨hfull, hempty.write hwrite, rfl⟩
  · have hflush : t.flush fname cap enc st = .ok (t, st) := by
      rw [TraceBuf.flush, if_neg hfull]
      rfl
    rw [record_of_flush hflush] at hr
    obtain ⟨t₂, hwrite, hret⟩ := bind_eq_ok.mp hr
    obtain ⟨rfl, rfl⟩ := Prod.mk.injEq .. |>.mp (Except.ok.inj hret)
    exact Or.inl ⟨hfull, h.write hwrite, rfl⟩

theorem log_congr {t : TraceBuf α} {st st' : Store}
    (h : st'.contents fname = st.contents fname) : t.log fname st' = t.log fname st := by
  rw [log, h, log]

theorem Bounded.congr {base : List UInt8} {xs : List α} {t : TraceBuf α} {st st' : Store}
    (h : t.Bounded fname cap enc base xs st) (hc : st'.contents fname = st.contents fname) :
    t.Bounded fname cap enc base xs st' :=
  ⟨h.holds, by rw [log_congr hc]; exact h.short⟩

theorem keeps_congr {base : List UInt8} {xs : List α} {t : TraceBuf α} {st st' : Store}
    (hc : st'.contents fname = st.contents fname) :
    t.Keeps fname enc base xs st' ↔ t.Keeps fname enc base xs st := by
  rw [Keeps, Keeps, log_congr hc]

theorem Bounded.record_of_ne {base : List UInt8} {xs : List α} {t t' : TraceBuf α} {st st' : Store}
    {x : α} (h : t.Bounded fname cap enc base xs st)
    (hr : t.record fname cap enc x st = .ok (t', st')) {other : String} (hne : other ≠ fname) :
    st'.contents other = st.contents other := by
  rcases record_cases h.holds hr with ⟨-, -, rfl⟩ | ⟨-, -, rfl⟩
  · rfl
  · exact saveData_contents_of_ne st hne _

/-- Recording keeps everything exactly when everything was kept and the
flush, if there is one, goes. -/
theorem Bounded.record {base : List UInt8} {xs : List α} {t t' : TraceBuf α} {st st' : Store}
    {x : α} (h : t.Bounded fname cap enc base xs st)
    (hr : t.record fname cap enc x st = .ok (t', st')) :
    t'.Bounded fname cap enc base (xs ++ [x]) st'
      ∧ (t'.Keeps fname enc base (xs ++ [x]) st'
        ↔ t.Keeps fname enc base xs st ∧ t.FlushGoes fname cap enc st) := by
  obtain ⟨hholds, hshort⟩ := h
  have htotal := hholds.log_total fname enc st
  have hitems : base ++ (xs ++ [x]).flatMap enc = base ++ xs.flatMap enc ++ enc x := by simp
  rcases record_cases hholds hr with ⟨hroom, hholds', rfl⟩ | ⟨hfull, hholds', rfl⟩
  · have htotal' : (t'.log fname st').total enc = (t.log fname st').total enc ++ enc x := by
      rw [hholds'.log_total fname enc st', htotal]
      simp
    refine ⟨⟨hholds'.pending.symm ▸ hholds', ?_⟩, ?_⟩
    · rw [htotal', hitems, List.length_append, List.length_append]
      exact Nat.add_le_add_right hshort _
    · rw [Keeps, Keeps, htotal', hitems, List.append_cancel_right_eq, FlushGoes]
      exact (and_iff_left fun h => absurd h hroom).symm
  · -- the buffer was handed over, and the new entry is alone in it
    have hgrew := saveData_grew st fname (t.pending.flatMap enc)
    have htotal' := hholds'.log_total fname enc (saveData fname (t.pending.flatMap enc) st).2
    rw [List.flatMap_singleton] at htotal'
    rw [htotal, List.length_append] at hshort
    refine ⟨⟨hholds'.pending.symm ▸ hholds', ?_⟩, ?_⟩
    · rw [htotal', hitems, List.length_append, List.length_append]
      exact Nat.add_le_add_right (hgrew.le.trans hshort) _
    · rw [Keeps, Keeps, htotal', htotal, hitems, List.append_cancel_right_eq, FlushGoes]
      rw [hgrew.eq_iff hshort, saveData_goes_iff]
      exact and_congr_right fun _ => (imp_iff_right hfull).symm

end TraceBuf

/-! ## A session under failures -/

/-- The flush an event starts with, if any, goes. -/
def FlushGoes (s : TaState) (evt : CfaEvent) : Prop :=
  match evt.kind with
  | .addr => s.ctx.iaddrBuf.FlushGoes blobIaddrFname maxIbranchEvents le64 s.store
  | .cond => s.ctx.condBuf.FlushGoes blobCondFname maxCondEvents charBytes s.store
  | _ => True

/-- Nothing is lost so far: each trace object, followed by what is in
its buffer, is what it was at INIT, followed by the entries of the
events. -/
def Kept (base : Store) (evts : List CfaEvent) (s : TaState) : Prop :=
  s.ctx.iaddrBuf.Keeps blobIaddrFname le64 (base.contents blobIaddrFname) (indirectTargets evts)
      s.store
    ∧ s.ctx.condBuf.Keeps blobCondFname charBytes (base.contents blobCondFname) (condTrace evts)
      s.store

/-- What holds in a session whatever the storage layer answers. -/
structure Within (base : Store) (evts : List CfaEvent) (s : TaState) : Prop where
  iaddr : s.ctx.iaddrBuf.Bounded blobIaddrFname maxIbranchEvents le64
    (base.contents blobIaddrFname) (indirectTargets evts) s.store
  cond : s.ctx.condBuf.Bounded blobCondFname maxCondEvents charBytes
    (base.contents blobCondFname) (condTrace evts) s.store
  rethash : s.store.contents blobRethashFname = base.contents blobRethashFname

/-- **Step**: an event keeps everything exactly when everything was kept
and its flush goes. One case per branch of `handle_event`. -/
theorem handleEvent_kept_iff {base : Store} {pre : List CfaEvent} {s s' : TaState}
    {evt : CfaEvent} (hw : Within base pre s) (h : handleEvent s evt = .ok s') :
    Within base (pre ++ [evt]) s'
      ∧ (Kept base (pre ++ [evt]) s' ↔ Kept base pre s ∧ FlushGoes s evt) := by
  obtain ⟨hia, hco, hre⟩ := hw
  rw [handleEvent_eq] at h
  rw [Kept, Kept, FlushGoes, indirectTargets_concat, condTrace_concat]
  cases hk : evt.kind with
  | ctrl =>
      rw [hk] at h
      obtain rfl := Except.ok.inj h
      refine ⟨⟨?_, ?_, hre⟩, ?_⟩
      · simpa [indirectTargets_concat, hk, controlEvent] using hia
      · simpa [condTrace_concat, hk, controlEvent] using hco
      · simp [controlEvent]
  | addr =>
      rw [hk] at h
      obtain ⟨t, st, hrec, rfl⟩ := traceAddrEvent_ok h
      obtain ⟨hia', hiff⟩ := hia.record hrec
      have hcond := hia.record_of_ne hrec blobIaddr_ne_cond.symm
      have hrethash := hia.record_of_ne hrec blobRethash_ne_iaddr
      refine ⟨⟨?_, ?_, hrethash.trans hre⟩, ?_⟩
      · simpa [indirectTargets_concat, hk] using hia'
      · simpa [condTrace_concat, hk] using hco.congr hcond
      · simp only [if_true, reduceCtorEq, if_false, List.append_nil, hiff]
        rw [TraceBuf.keeps_congr hcond]
        exact and_right_comm
  | cond =>
      rw [hk] at h
      obtain ⟨t, st, hrec, rfl⟩ := traceCondEvent_ok h
      obtain ⟨hco', hiff⟩ := hco.record hrec
      have hiaddr := hco.record_of_ne hrec blobIaddr_ne_cond
      have hrethash := hco.record_of_ne hrec blobRethash_ne_cond
      refine ⟨⟨?_, ?_, hrethash.trans hre⟩, ?_⟩
      · simpa [indirectTargets_concat, hk] using hia.congr hiaddr
      · simpa [condTrace_concat, hk] using hco'
      · simp only [if_true, reduceCtorEq, if_false, List.append_nil, hiff]
        rw [TraceBuf.keeps_congr hiaddr]
        exact (and_assoc).symm
  | data =>
      rw [hk] at h
      obtain ⟨hctx, hstore⟩ := dataEvent_frame h
      refine ⟨⟨?_, ?_, hstore ▸ hre⟩, ?_⟩
      · simpa [indirectTargets_concat, hk, hctx, hstore] using hia
      · simpa [condTrace_concat, hk, hctx, hstore] using hco
      · simp [hctx, hstore]

/-- **Run**: after any events everything is kept exactly when each of the
flushes on the way went. -/
theorem handleEvents_kept_iff {s s' : TaState} {evts : List CfaEvent}
    (h : handleEvents (cfaInit s) evts = .ok s') :
    Within s.store evts s'
      ∧ (Kept s.store evts s' ↔ EachStep handleEvent FlushGoes (cfaInit s) evts) := by
  have hia : (cfaInit s).ctx.iaddrBuf.Holds maxIbranchEvents [] :=
    TraceBuf.Holds.fresh (s.mallocs 1) maxIbranchEvents 0
  have hco : (cfaInit s).ctx.condBuf.Holds maxCondEvents [] :=
    TraceBuf.Holds.fresh (s.mallocs 0) maxCondEvents 0
  have hia₀ := hia.log_total blobIaddrFname le64 s.store
  have hco₀ := hco.log_total blobCondFname charBytes s.store
  refine foldRun_iff (I := Within s.store) (K := Kept s.store) ⟨⟨?_, ?_⟩, ⟨?_, ?_⟩, rfl⟩ ⟨hia₀, hco₀⟩
    (fun pre evt s₁ s₂ hw hstep => handleEvent_kept_iff hw hstep) h
  · rw [hia.pending]
    exact hia
  · exact (congrArg List.length hia₀).le
  · rw [hco.pending]
    exact hco
  · exact (congrArg List.length hco₀).le

/-! ## The quote under failures -/

/-- The store after the first of the three saves of a quote. -/
def iaddrSaved (s : TaState) : Store :=
  (saveData blobIaddrFname (s.ctx.iaddrBuf.pending.flatMap le64) s.store).2

/-- The store after the second. -/
def condSaved (s : TaState) : Store :=
  (saveData blobCondFname (s.ctx.condBuf.pending.flatMap charBytes) (iaddrSaved s)).2

/-- The two saves of trace entries by a quote go. -/
def TraceSavesGo (s : TaState) : Prop :=
  SaveGoes blobIaddrFname (s.ctx.iaddrBuf.pending.flatMap le64) s.store
    ∧ SaveGoes blobCondFname (s.ctx.condBuf.pending.flatMap charBytes) (iaddrSaved s)

theorem saveGoes_of_noFaults {st : Store} (h : st.NoFaults) (fname : String) (buf : List UInt8) :
    SaveGoes fname buf st := by
  rw [← saveData_goes_iff, saveData_of_noFaults h, Store.contents_append_self]

theorem traceSavesGo_of_noFaults {s : TaState} (h : s.store.NoFaults) : TraceSavesGo s := by
  have hia : (iaddrSaved s).NoFaults := by
    rw [iaddrSaved, saveData_of_noFaults h]
    exact h.append blobIaddrFname _
  exact ⟨saveGoes_of_noFaults h _ _, saveGoes_of_noFaults hia _ _⟩

/-- The save of the digest by a quote goes. -/
def DigestSaveGoes (s : TaState) : Prop :=
  SaveGoes blobRethashFname ((cfaQuote s).ctx.digest.take blake2sOutbytes) (condSaved s)

/-- The two trace objects hold what they held, then the entries of the
events in order. -/
def TracesSaved (base : Store) (evts : List CfaEvent) (st : Store) : Prop :=
  st.contents blobIaddrFname
      = base.contents blobIaddrFname ++ (indirectTargets evts).flatMap le64
    ∧ st.contents blobCondFname = base.contents blobCondFname ++ condTrace evts

def DigestSaved (base : Store) (evts : List CfaEvent) (st : Store) : Prop :=
  st.contents blobRethashFname = base.contents blobRethashFname ++ digestOf evts

theorem cfaQuoteSave_store {base : Store} {evts : List CfaEvent} {s s' : TaState}
    (hw : Within base evts s) (h : cfaQuoteSave s = .ok s') :
    s'.store = (saveData blobRethashFname ((cfaQuote s).ctx.digest.take blake2sOutbytes)
      (condSaved s)).2 := by
  have hsave₁ : (cfaQuote s).ctx.iaddrBuf.save blobIaddrFname le64 (cfaQuote s).ctx.iaddrBuf.idx
      (cfaQuote s).store = .ok (iaddrSaved s) := hw.iaddr.holds.save_eq blobIaddrFname le64 s.store
  have hsave₂ : (cfaQuote s).ctx.condBuf.save blobCondFname charBytes (cfaQuote s).ctx.condBuf.idx
      (iaddrSaved s) = .ok (condSaved s) :=
    hw.cond.holds.save_eq blobCondFname charBytes (iaddrSaved s)
  simp only [cfaQuoteSave, hsave₁, hsave₂, bind, Except.bind] at h
  obtain rfl := Except.ok.inj h
  rfl

/-- A quote leaves the traces in the store exactly when nothing was lost
before and its own two saves of trace entries go. -/
theorem cfaQuoteSave_traces_iff {base : Store} {evts : List CfaEvent} {s s' : TaState}
    (hw : Within base evts s) (h : cfaQuoteSave s = .ok s') :
    TracesSaved base evts s'.store ↔ Kept base evts s ∧ TraceSavesGo s := by
  have hia := saveData_grew s.store blobIaddrFname (s.ctx.iaddrBuf.pending.flatMap le64)
  have hco := saveData_grew (iaddrSaved s) blobCondFname (s.ctx.condBuf.pending.flatMap charBytes)
  have hcond : (iaddrSaved s).contents blobCondFname = s.store.contents blobCondFname :=
    saveData_contents_of_ne s.store blobIaddr_ne_cond.symm _
  have hiaddr' : s'.store.contents blobIaddrFname = (iaddrSaved s).contents blobIaddrFname := by
    rw [cfaQuoteSave_store hw h, saveData_contents_of_ne _ blobRethash_ne_iaddr.symm, condSaved,
      saveData_contents_of_ne _ blobIaddr_ne_cond]
  have hcond' : s'.store.contents blobCondFname = (condSaved s).contents blobCondFname := by
    rw [cfaQuoteSave_store hw h, saveData_contents_of_ne _ blobRethash_ne_cond.symm]
  have hshort₁ := hw.iaddr.short
  have hshort₂ := hw.cond.short
  rw [hw.iaddr.holds.log_total, List.length_append] at hshort₁
  rw [hw.cond.holds.log_total, ← hcond, List.length_append] at hshort₂
  rw [TracesSaved, hiaddr', hcond', ← flatMap_charBytes (condTrace evts)]
  calc (iaddrSaved s).contents blobIaddrFname
            = base.contents blobIaddrFname ++ (indirectTargets evts).flatMap le64
          ∧ (condSaved s).contents blobCondFname
            = base.contents blobCondFname ++ (condTrace evts).flatMap charBytes
      ↔ (s.ctx.iaddrBuf.Keeps blobIaddrFname le64 (base.contents blobIaddrFname)
            (indirectTargets evts) s.store
          ∧ SaveGoes blobIaddrFname (s.ctx.iaddrBuf.pending.flatMap le64) s.store)
        ∧ s.ctx.condBuf.Keeps blobCondFname charBytes (base.contents blobCondFname)
            (condTrace evts) s.store
          ∧ SaveGoes blobCondFname (s.ctx.condBuf.pending.flatMap charBytes) (iaddrSaved s) := by
        rw [TraceBuf.Keeps, TraceBuf.Keeps, hw.iaddr.holds.log_total, hw.cond.holds.log_total,
          ← saveData_goes_iff, ← saveData_goes_iff, ← hcond]
        exact and_congr (hia.eq_iff hshort₁) (hco.eq_iff hshort₂)
    _ ↔ Kept base evts s ∧ TraceSavesGo s := and_and_and_comm

theorem cfaQuoteSave_digest_iff {s s' : TaState} {base : Store} {evts : List CfaEvent}
    (hw : Within base evts s)
    (hS : (cfaQuote s).ctx.digest.take blake2sOutbytes = digestOf evts)
    (h : cfaQuoteSave s = .ok s') : DigestSaved base evts s'.store ↔ DigestSaveGoes s := by
  have hrethash : (condSaved s).contents blobRethashFname = base.contents blobRethashFname := by
    rw [condSaved, saveData_contents_of_ne _ blobRethash_ne_cond, iaddrSaved,
      saveData_contents_of_ne _ blobRethash_ne_iaddr, hw.rethash]
  rw [DigestSaved, DigestSaveGoes, ← saveData_goes_iff, cfaQuoteSave_store hw h, hrethash, hS]

/-! ## The commands of a session -/

/-- Invoke the commands in turn: their results, and the state after the
last of them. -/
def invokeCommands : TaState → List Command → Except Trap (List TEEResult × TaState)
  | s, [] => .ok ([], s)
  | s, cmd :: cmds => do
      let reply ← taInvokeCommandEntryPoint s cmd
      let (results, s) ← invokeCommands reply.state cmds
      pure (reply.res :: results, s)

/-- INIT, any number of events, QUOTE. -/
structure IsSession (init : Command) (events : List Command) (quote : Command) : Prop where
  init : init.cmdId = taCmdCfaInit
  events : ∀ cmd ∈ events, cmd.cmdId = taCmdCfaVerifyEvents
  quote : quote.cmdId = taCmdCfaQuote

/-- The events the commands carry. -/
def eventsOf (cmds : List Command) : List CfaEvent := cmds.map fun cmd => verifyEvent cmd.params

theorem invokeCommands_cons_ok {s s' : TaState} {cmd : Command} {cmds : List Command}
    {results : List TEEResult} (h : invokeCommands s (cmd :: cmds) = .ok (results, s')) :
    ∃ reply rest, taInvokeCommandEntryPoint s cmd = .ok reply
      ∧ invokeCommands reply.state cmds = .ok (rest, s') ∧ results = reply.res :: rest := by
  obtain ⟨reply, hreply, hrest⟩ := bind_eq_ok.mp h
  obtain ⟨⟨rest, s₁⟩, hcmds, hret⟩ := bind_eq_ok.mp hrest
  obtain ⟨rfl, rfl⟩ := Prod.mk.injEq .. |>.mp (Except.ok.inj hret)
  exact ⟨reply, rest, hreply, hcmds, rfl⟩

theorem badParameters_ne_success : teeErrorBadParameters ≠ teeSuccess := by decide

theorem init_success {s : TaState} {cmd : Command} {reply : Reply}
    (hid : cmd.cmdId = taCmdCfaInit) (h : taInvokeCommandEntryPoint s cmd = .ok reply)
    (hres : reply.res = teeSuccess) : reply.state = cfaInit s := by
  by_cases htypes : cmd.paramTypes = cfaInitParamTypes
  · rw [invoke_init ⟨hid, htypes⟩] at h
    obtain rfl := Except.ok.inj h
    rfl
  · have hrefused : taInvokeCommandEntryPoint s cmd
        = .ok ⟨teeErrorBadParameters, cmd.params, s⟩ := by
      simp [taInvokeCommandEntryPoint, cfaInitWrapper, hid, htypes, taHelloWorldCmdIncValue,
        taCmdCfaVerifyEvents, taCmdCfaInit, pure, Except.pure]
    rw [hrefused] at h
    obtain rfl := Except.ok.inj h
    exact absurd hres badParameters_ne_success

/-- An event or a quote that is answered with success was accepted. -/
theorem accepted_of_success {s : TaState} {cmd : Command} {reply : Reply}
    (hid : cmd.cmdId = taCmdCfaVerifyEvents ∨ cmd.cmdId = taCmdCfaQuote)
    (h : taInvokeCommandEntryPoint s cmd = .ok reply) (hres : reply.res = teeSuccess) :
    cmd.AcceptedEvent ∨ cmd.AcceptedQuote := by
  by_contra hneither
  rw [not_or] at hneither
  obtain ⟨res, params, hinv, hbad⟩ := invoke_other (s := s)
    (fun hi => hi.not_event hid) hneither.1 hneither.2
  rw [hinv] at h
  obtain rfl := Except.ok.inj h
  exact badParameters_ne_success ((hbad hid).symm.trans hres)

theorem event_success {s : TaState} {cmd : Command} {reply : Reply}
    (hid : cmd.cmdId = taCmdCfaVerifyEvents) (h : taInvokeCommandEntryPoint s cmd = .ok reply)
    (hres : reply.res = teeSuccess) : handleEvent s (verifyEvent cmd.params) = .ok reply.state := by
  rcases accepted_of_success (Or.inl hid) h hres with he | hq
  · rw [invoke_event he] at h
    obtain ⟨s₁, hs₁, hret⟩ := bind_eq_ok.mp h
    obtain rfl := Except.ok.inj hret
    exact hs₁
  · exact absurd (hid.symm.trans hq.1) (by decide)

theorem quote_success {s : TaState} {cmd : Command} {reply : Reply}
    (hid : cmd.cmdId = taCmdCfaQuote) (h : taInvokeCommandEntryPoint s cmd = .ok reply)
    (hres : reply.res = teeSuccess) : cfaQuoteSave s = .ok reply.state := by
  rcases accepted_of_success (Or.inr hid) h hres with he | hq
  · exact absurd (hid.symm.trans he.1) (by decide)
  · rw [invoke_quote hq] at h
    obtain ⟨s₁, hs₁, hret⟩ := bind_eq_ok.mp h
    obtain rfl := Except.ok.inj hret
    exact hs₁

theorem invokeCommands_events {quote : Command} (hquote : quote.cmdId = taCmdCfaQuote)
    {events : List Command} (hids : ∀ cmd ∈ events, cmd.cmdId = taCmdCfaVerifyEvents)
    {s s' : TaState} {results : List TEEResult}
    (h : invokeCommands s (events ++ [quote]) = .ok (results, s'))
    (hres : ∀ res ∈ results, res = teeSuccess) :
    ∃ s₁, handleEvents s (eventsOf events) = .ok s₁ ∧ cfaQuoteSave s₁ = .ok s' := by
  induction events generalizing s results with
  | nil =>
      obtain ⟨reply, rest, hinv, hrest, rfl⟩ := invokeCommands_cons_ok h
      obtain ⟨rfl, rfl⟩ := Prod.mk.injEq .. |>.mp (Except.ok.inj hrest)
      exact ⟨s, rfl, quote_success hquote hinv (hres _ (List.mem_cons_self ..))⟩
  | cons cmd events ih =>
      obtain ⟨reply, rest, hinv, hrest, rfl⟩ := invokeCommands_cons_ok h
      have hstep := event_success (hids cmd (List.mem_cons_self ..)) hinv
        (hres _ (List.mem_cons_self ..))
      obtain ⟨s₁, hevts, hq⟩ := ih (fun c hc => hids c (List.mem_cons_of_mem _ hc)) hrest
        (fun r hr => hres r (List.mem_cons_of_mem _ hr))
      exact ⟨s₁, foldRun_cons_ok.mpr ⟨_, hstep, hevts⟩, hq⟩

/-- A session all of whose commands succeed is an attestation of its
events. -/
theorem invokeCommands_session {init quote : Command} {events : List Command}
    (hsession : IsSession init events quote) {s s' : TaState} {results : List TEEResult}
    (h : invokeCommands s (init :: (events ++ [quote])) = .ok (results, s'))
    (hres : ∀ res ∈ results, res = teeSuccess) :
    ∃ s₁, handleEvents (cfaInit s) (eventsOf events) = .ok s₁ ∧ cfaQuoteSave s₁ = .ok s' := by
  obtain ⟨reply, rest, hinv, hrest, rfl⟩ := invokeCommands_cons_ok h
  have hinit := init_success hsession.init hinv (hres _ (List.mem_cons_self ..))
  rw [hinit] at hrest
  exact invokeCommands_events hsession.quote hsession.events hrest
    fun r hr => hres r (List.mem_cons_of_mem _ hr)

/-- Whatever the storage layer answers, the commands of a session report
success. -/
theorem invokeCommands_total {init quote : Command} {events : List Command}
    (hi : init.AcceptedInit) (he : ∀ cmd ∈ events, cmd.AcceptedEvent) (hq : quote.AcceptedQuote)
    {s : TaState} (hm : s.MallocsSucceed) :
    ∃ results s', invokeCommands s (init :: (events ++ [quote])) = .ok (results, s')
      ∧ ∀ res ∈ results, res = teeSuccess := by
  have hrest : ∀ (events : List Command) (s : TaState), (∀ cmd ∈ events, cmd.AcceptedEvent) →
      Ready s → s.MallocsSucceed →
      ∃ results s', invokeCommands s (events ++ [quote]) = .ok (results, s')
        ∧ ∀ res ∈ results, res = teeSuccess := by
    intro events
    induction events with
    | nil =>
        intro s _ hr _
        obtain ⟨s', hs', -⟩ := cfaQuoteSave_ready hr
        refine ⟨[teeSuccess], s', ?_, by simp⟩
        rw [List.nil_append, invokeCommands, invoke_quote hq, hs']
        rfl
    | cons cmd events ih =>
        intro s he hr hm
        obtain ⟨s₁, hs₁, hr₁, hm₁⟩ := handleEvent_ready hr hm (verifyEvent cmd.params)
        obtain ⟨results, s', hrun, hres⟩ :=
          ih s₁ (fun c hc => he c (List.mem_cons_of_mem _ hc)) hr₁ hm₁
        refine ⟨teeSuccess :: results, s', ?_, by simpa using hres⟩
        rw [List.cons_append, invokeCommands, invoke_event (he cmd (List.mem_cons_self ..)), hs₁]
        simp only [bind, Except.bind, hrun]
        rfl
  obtain ⟨results, s', hrun, hres⟩ :=
    hrest events (cfaInit s) he (cfaInit_ready (hm 0) (hm 1)) (cfaInit_mallocs hm)
  refine ⟨teeSuccess :: results, s', ?_, by simpa using hres⟩
  rw [invokeCommands, invoke_init hi]
  simp only [bind, Except.bind, hrun]
  rfl

/-- A session every command of which reports success has the traces of
its events in the store exactly when each flush on the way and the two
trace saves of the quote went, and its digest exactly when the third
save went. At any moment in between, nothing is lost exactly when the
flushes so far went. -/
theorem session_kept_iff {init quote : Command} {events : List Command}
    (hsession : IsSession init events quote) {s s' : TaState} {results : List TEEResult}
    (h : invokeCommands s (init :: (events ++ [quote])) = .ok (results, s'))
    (hres : ∀ res ∈ results, res = teeSuccess) :
    ∃ s₁, handleEvents (cfaInit s) (eventsOf events) = .ok s₁
      ∧ (TracesSaved s.store (eventsOf events) s'.store
        ↔ EachStep handleEvent FlushGoes (cfaInit s) (eventsOf events) ∧ TraceSavesGo s₁)
      ∧ (DigestSaved s.store (eventsOf events) s'.store ↔ DigestSaveGoes s₁)
      ∧ ∀ pre post s₂, eventsOf events = pre ++ post → handleEvents (cfaInit s) pre = .ok s₂ →
        (Kept s.store pre s₂ ↔ EachStep handleEvent FlushGoes (cfaInit s) pre) := by
  obtain ⟨s₁, hevts, hquote⟩ := invokeCommands_session hsession h hres
  obtain ⟨hw, hkept⟩ := handleEvents_kept_iff hevts
  refine ⟨s₁, hevts, ?_, ?_, ?_⟩
  · rw [cfaQuoteSave_traces_iff hw hquote, hkept]
  · exact cfaQuoteSave_digest_iff hw (cfaQuote_digest (handleEvents_hash hevts)) hquote
  · intro pre post s₂ _ hpre
    exact (handleEvents_kept_iff hpre).2

/-- The command that carries `sampleIcall`. -/
def sampleVerify : Command := sampleEvent 0x100 0x400110 0x400100

def sampleQuote : Command := ⟨taCmdCfaQuote, cfaQuoteParamTypes, sampleParams 0 0 0⟩

theorem sample_isSession : IsSession sampleInit [sampleVerify] sampleQuote :=
  ⟨rfl, fun cmd hcmd => by rw [List.mem_singleton.mp hcmd]; rfl, rfl⟩

theorem sample_total (st : Store) :
    ∃ results s', invokeCommands (TaState.fresh st fun _ => true)
        (sampleInit :: ([sampleVerify] ++ [sampleQuote])) = .ok (results, s')
      ∧ ∀ res ∈ results, res = teeSuccess :=
  invokeCommands_total ⟨rfl, rfl⟩ (fun cmd hcmd => by rw [List.mem_singleton.mp hcmd]; decide)
    ⟨rfl, rfl⟩ fun _ => rfl

/-- One indirect call is pending, and the store as it was. -/
theorem sample_state {st : Store} {s₁ : TaState}
    (h : handleEvents (cfaInit (TaState.fresh st fun _ => true)) (eventsOf [sampleVerify])
      = .ok s₁) :
    s₁.ctx.iaddrBuf.pending = [0x400100] ∧ s₁.store = st := by
  obtain ⟨s₂, hevt, hret⟩ := foldRun_cons_ok.mp h
  obtain rfl := Except.ok.inj hret
  obtain ⟨t, st', hrec, rfl⟩ := traceAddrEvent_ok hevt
  rcases TraceBuf.record_cases (TraceBuf.Holds.fresh true maxIbranchEvents 0) hrec with
    ⟨-, hholds, rfl⟩ | ⟨hfull, -, -⟩
  · exact ⟨hholds.pending, rfl⟩
  · exact absurd hfull (by decide)

theorem session_kept_iff_sample :
    ∃ results s', invokeCommands (TaState.fresh Store.empty fun _ => true)
        (sampleInit :: ([sampleVerify] ++ [sampleQuote])) = .ok (results, s')
      ∧ TracesSaved Store.empty (eventsOf [sampleVerify]) s'.store := by
  obtain ⟨results, s', hrun, hres⟩ := sample_total Store.empty
  obtain ⟨s₁, hevts, htraces, -⟩ := session_kept_iff sample_isSession hrun hres
  refine ⟨results, s', hrun, htraces.mpr ⟨eachStep_cons.mpr ⟨?_, fun s₂ _ => eachStep_nil s₂⟩, ?_⟩⟩
  · intro hfull
    exact absurd hfull (by decide)
  · have hnf : s₁.store.NoFaults := by
      rw [(sample_state hevts).2]
      rfl
    exact traceSavesGo_of_noFaults hnf

/-- `TEE_ERROR_STORAGE_NO_SPACE` is the answer to the second call. -/
def storeNoSpace : Store := ⟨fun _ => none, fun n => if n = 1 then 0xFFFF3041 else teeSuccess⟩

/-- The indirect call of the session is nowhere in the store. -/
theorem session_loses_icall :
    ∃ results s', invokeCommands (TaState.fresh storeNoSpace fun _ => true)
        (sampleInit :: ([sampleVerify] ++ [sampleQuote])) = .ok (results, s')
      ∧ (∀ res ∈ results, res = teeSuccess)
      ∧ ¬ TracesSaved storeNoSpace (eventsOf [sampleVerify]) s'.store := by
  obtain ⟨results, s', hrun, hres⟩ := sample_total storeNoSpace
  refine ⟨results, s', hrun, hres, ?_⟩
  intro hsaved
  obtain ⟨s₁, hevts, hquote⟩ := invokeCommands_session sample_isSession hrun hres
  obtain ⟨-, hgoes, -⟩ := (cfaQuoteSave_traces_iff (handleEvents_kept_iff hevts).1 hquote).mp hsaved
  obtain ⟨hpending, hstore⟩ := sample_state hevts
  rw [hpending, hstore] at hgoes
  exact absurd hgoes (by decide)

end Ta

end Oat
