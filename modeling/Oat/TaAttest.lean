import Oat.TaReady

/-!
# One attestation: INIT, events, QUOTE

`attest` runs the three phases, and `attest_attested` says what is in
the store afterwards: each of the three objects is what it was before,
followed by the trace (or the digest) of this attestation.

Two readings of that:

- `iaddr_log_complete`: on a store without it, `blob.iaddr` is the list of
  indirect targets, whatever the number of flushes;
- `attest_blobs_iff`: on an arbitrary store the objects are *not* a
  function of the events. Nothing empties them before an attestation,
  and nothing resets the buffer indices after a quote, so they are right
  exactly when they started out empty and nothing was buffered.
-/

namespace Oat

namespace Ta

/-! ## The quote -/

/-- The digest of the control events of an attestation. -/
def digestOf (evts : List CfaEvent) : List UInt8 :=
  (blake2s blake2sOutbytes (ctrlChunks evts).flatten).getD []

theorem digestOf_spec (evts : List CfaEvent) :
    blake2s blake2sOutbytes (ctrlChunks evts).flatten = some (digestOf evts)
      ∧ (digestOf evts).length = blake2sOutbytes := by
  obtain ⟨out, hout, hlen⟩ := blake2s_delivers (ctrlChunks evts).flatten
  rw [digestOf, hout]
  exact ⟨rfl, hlen⟩

theorem flatMap_charBytes (xs : List UInt8) : xs.flatMap charBytes = xs :=
  List.flatMap_singleton' xs

/-- The store after a quote that had `targets` and `conds` left to save. -/
def quoteStore (st : Store) (targets : List UInt64) (conds digest : List UInt8) : Store :=
  ((st.append blobIaddrFname (targets.flatMap le64)).append blobCondFname conds).append
    blobRethashFname digest

theorem quoteStore_contents (st : Store) (targets : List UInt64) (conds digest : List UInt8) :
    (quoteStore st targets conds digest).contents blobIaddrFname
        = st.contents blobIaddrFname ++ targets.flatMap le64
      ∧ (quoteStore st targets conds digest).contents blobCondFname
        = st.contents blobCondFname ++ conds
      ∧ (quoteStore st targets conds digest).contents blobRethashFname
        = st.contents blobRethashFname ++ digest := by
  refine ⟨?_, ?_, ?_⟩
  · rw [quoteStore, Store.contents_append_of_ne _ blobRethash_ne_iaddr.symm,
      Store.contents_append_of_ne _ blobIaddr_ne_cond, Store.contents_append_self]
  · rw [quoteStore, Store.contents_append_of_ne _ blobRethash_ne_cond.symm,
      Store.contents_append_self, Store.contents_append_of_ne _ blobIaddr_ne_cond.symm]
  · rw [quoteStore, Store.contents_append_self, Store.contents_append_of_ne _ blobRethash_ne_cond,
      Store.contents_append_of_ne _ blobRethash_ne_iaddr]

/-- A quote saves what the two buffers hold, and the digest. It leaves
the buffers as they are. -/
theorem cfaQuoteSave_eq {s : TaState} {targets : List UInt64} {conds : List UInt8}
    (hst : s.store.NoFaults) (hia : s.ctx.iaddrBuf.Holds maxIbranchEvents targets)
    (hco : s.ctx.condBuf.Holds maxCondEvents conds) :
    cfaQuoteSave s = .ok { cfaQuote s with
      store := quoteStore s.store targets conds ((cfaQuote s).ctx.digest.take blake2sOutbytes) } := by
  have hsave₁ : (cfaQuote s).ctx.iaddrBuf.save blobIaddrFname le64 (cfaQuote s).ctx.iaddrBuf.idx
      (cfaQuote s).store = .ok (s.store.append blobIaddrFname (targets.flatMap le64)) :=
    hia.save blobIaddrFname le64 hst
  have hsave₂ : (cfaQuote s).ctx.condBuf.save blobCondFname charBytes (cfaQuote s).ctx.condBuf.idx
      (s.store.append blobIaddrFname (targets.flatMap le64))
      = .ok ((s.store.append blobIaddrFname (targets.flatMap le64)).append blobCondFname conds) := by
    have h := hco.save blobCondFname charBytes (hst.append blobIaddrFname (targets.flatMap le64))
    rw [flatMap_charBytes] at h
    exact h
  have hsave₃ := saveData_of_noFaults
    ((hst.append blobIaddrFname (targets.flatMap le64)).append blobCondFname conds)
    blobRethashFname ((cfaQuote s).ctx.digest.take blake2sOutbytes)
  simp only [cfaQuoteSave, hsave₁, hsave₂, hsave₃, bind, Except.bind]
  rfl

theorem cfaQuote_digest {s : TaState} {S₀ : Blake2sState} {evts : List CfaEvent}
    (hS : s.ctx.S = (ctrlChunks evts).foldl blake2sUpdate (blake2sInit S₀ blake2sOutbytes)) :
    (cfaQuote s).ctx.digest.take blake2sOutbytes = digestOf evts := by
  obtain ⟨hone, hlen⟩ := digestOf_spec evts
  have hout : (blake2sFinal s.ctx.S blake2sOutbytes).1 = some (digestOf evts) := by
    rw [hS, blake2sStream_eq (by decide) (Nat.le_refl _), hone]
  have hdigest : (cfaQuote s).ctx.digest = memcpy s.ctx.digest 0 (digestOf evts) := by
    simp only [cfaQuote, hout]
  have htake : (memcpy s.ctx.digest 0 (digestOf evts)).take (0 + (digestOf evts).length)
      = s.ctx.digest.take 0 ++ digestOf evts := memcpy_take (Nat.zero_le _)
  rw [hlen, Nat.zero_add] at htake
  rw [hdigest, htake]
  rfl

/-! ## The whole attestation -/

/-- INIT, the events, QUOTE. -/
def attest (s : TaState) (evts : List CfaEvent) : Except Trap TaState := do
  let s ← handleEvents (cfaInit s) evts
  cfaQuoteSave s

/-- What is left in a trace buffer when the items `xs` have gone through
it. -/
def leftover {α : Type} (enc : α → List UInt8) (cap : Nat) (stored : List UInt8) (xs : List α) :
    List α :=
  ((⟨stored, []⟩ : FlushLog α UInt8).pushAll enc cap xs).pending

theorem leftover_eq_nil {α : Type} {enc : α → List UInt8} {cap : Nat} {stored : List UInt8}
    {xs : List α} : leftover enc cap stored xs = [] ↔ xs = [] :=
  FlushLog.pushAll_pending_eq_nil rfl xs

/-- The state after an attestation of `evts` that found the store
`base`. -/
structure Attested (base : Store) (evts : List CfaEvent) (s : TaState) : Prop where
  noFaults : s.store.NoFaults
  iaddr : s.store.contents blobIaddrFname
    = base.contents blobIaddrFname ++ (indirectTargets evts).flatMap le64
  cond : s.store.contents blobCondFname = base.contents blobCondFname ++ condTrace evts
  rethash : s.store.contents blobRethashFname = base.contents blobRethashFname ++ digestOf evts
  iaddrLeft : s.ctx.iaddrBuf.Holds maxIbranchEvents
    (leftover le64 maxIbranchEvents (base.contents blobIaddrFname) (indirectTargets evts))
  condLeft : s.ctx.condBuf.Holds maxCondEvents
    (leftover charBytes maxCondEvents (base.contents blobCondFname) (condTrace evts))

theorem attest_attested {s s' : TaState} {evts : List CfaEvent} (hst : s.store.NoFaults)
    (h : attest s evts = .ok s') : Attested s.store evts s' := by
  obtain ⟨s₁, hevts, hquote⟩ := bind_eq_ok.mp h
  obtain ⟨hnf, hia, hco, hS, hothers⟩ := handleEvents_inv hst hevts
  rw [cfaQuoteSave_eq hnf hia.holds hco.holds, cfaQuote_digest hS] at hquote
  obtain rfl := Except.ok.inj hquote
  obtain ⟨hiaddr, hcond, hrethash⟩ := quoteStore_contents s₁.store
    (leftover le64 maxIbranchEvents (s.store.contents blobIaddrFname) (indirectTargets evts))
    (leftover charBytes maxCondEvents (s.store.contents blobCondFname) (condTrace evts))
    (digestOf evts)
  -- the record and what was pending, put together, hide the flushes
  have htotal₁ := FlushLog.pushAll_total le64 maxIbranchEvents
    (indirectTargets evts) (startLog UInt64 s.store blobIaddrFname)
  have htotal₂ := FlushLog.pushAll_total charBytes maxCondEvents
    (condTrace evts) (startLog UInt8 s.store blobCondFname)
  simp only [FlushLog.total, startLog, List.flatMap_nil, List.append_nil, flatMap_charBytes]
    at htotal₁ htotal₂
  refine ⟨hnf, ?_, ?_, ?_, hia.holds, hco.holds⟩
  · rw [← htotal₁]
    exact hiaddr.trans (congrArg (· ++ _) hia.stored)
  · rw [← htotal₂]
    exact hcond.trans (congrArg (· ++ _) hco.stored)
  · refine hrethash.trans (congrArg (· ++ _) ?_)
    rw [Store.contents, hothers _ blobRethash_ne_iaddr blobRethash_ne_cond, Store.contents]

/-- An attestation is carried out as long as memory lasts. -/
theorem attest_total {s : TaState} (hm : s.MallocsSucceed) (evts : List CfaEvent) :
    ∃ s', attest s evts = .ok s' ∧ s'.MallocsSucceed := by
  obtain ⟨s₁, hevts, hready, hm₁⟩ := handleEvents_total hm evts
  obtain ⟨s', hquote, hmallocs⟩ := cfaQuoteSave_ready hready
  refine ⟨s', bind_eq_ok.mpr ⟨s₁, hevts, hquote⟩, ?_⟩
  rw [TaState.MallocsSucceed, hmallocs]
  exact hm₁

def Store.empty : Store := ⟨fun _ => none, fun _ => teeSuccess⟩

/-- An indirect call from `0x400110` to `0x400100`. -/
def sampleIcall : CfaEvent := ⟨cfvEventHintIcall, 0x400110, 0x400100⟩

/-! ## The log of indirect targets -/

namespace TraceBuf

variable {α : Type}

/-- The index `record` writes its entry at. -/
def recordIndex (fname : String) (cap : Nat) (enc : α → List UInt8) (t : TraceBuf α)
    (st : Store) : Except Trap Nat := do
  let (t, _) ← t.flush fname cap enc st
  pure t.idx

theorem Refines.recordIndex_lt {t : TraceBuf α} {st : Store} {fname : String} {cap : Nat}
    {enc : α → List UInt8} {l : FlushLog α UInt8} (hcap : 0 < cap)
    (h : t.Refines fname cap st l) (hst : st.NoFaults) :
    ∃ i, t.recordIndex fname cap enc st = .ok i ∧ i < cap := by
  obtain ⟨t', st', hflush, -, href, -⟩ := h.flush enc hst
  refine ⟨t'.idx, by rw [recordIndex, hflush]; rfl, ?_⟩
  rw [href.holds.idx]
  exact FlushLog.push_slot_lt hcap h.holds.fits

end TraceBuf

/-- The 8-byte words of `blob.iaddr` after an attestation that found no
such object are the targets of the ICALL and IBR events, in order; and
no entry was written past the buffer. -/
theorem iaddr_log_complete {s : TaState} {evts : List CfaEvent} (hst : s.store.NoFaults)
    (habsent : s.store.objects blobIaddrFname = none) :
    (∀ s', attest s evts = .ok s' →
        words64 (s'.store.contents blobIaddrFname) = indirectTargets evts)
      ∧ (∀ pre evt post s₁, evts = pre ++ evt :: post →
        evt.etype = cfvEventHintIcall ∨ evt.etype = cfvEventHintIbr →
        handleEvents (cfaInit s) pre = .ok s₁ →
        ∃ i, s₁.ctx.iaddrBuf.recordIndex blobIaddrFname maxIbranchEvents le64 s₁.store = .ok i
          ∧ i < maxIbranchEvents)
      ∧ (s.MallocsSucceed → ∃ s', attest s evts = .ok s') := by
  refine ⟨?_, ?_, ?_⟩
  · intro s' h
    rw [(attest_attested hst h).iaddr, Store.contents, habsent]
    exact words64_flatMap_le64 (indirectTargets evts)
  · intro pre evt post s₁ _ _ hpre
    have hinv := handleEvents_inv hst hpre
    exact hinv.iaddr.recordIndex_lt (by decide) hinv.noFaults
  · intro hm
    obtain ⟨s', h, -⟩ := attest_total hm evts
    exact ⟨s', h⟩

theorem iaddr_log_complete_sample :
    ∃ s', attest (TaState.fresh Store.empty fun _ => true) [sampleIcall, sampleIcall] = .ok s'
      ∧ words64 (s'.store.contents blobIaddrFname) = [0x400100, 0x400100] := by
  obtain ⟨hlog, -, hrun⟩ := @iaddr_log_complete (TaState.fresh Store.empty fun _ => true)
    [sampleIcall, sampleIcall] rfl rfl
  obtain ⟨s', h⟩ := hrun fun _ => rfl
  exact ⟨s', h, hlog s' h⟩

/-! ## The blobs and earlier attestations -/

/-- The three objects hold the traces and the digest of `evts`. -/
def BlobsAre (st : Store) (evts : List CfaEvent) : Prop :=
  st.contents blobIaddrFname = (indirectTargets evts).flatMap le64
    ∧ st.contents blobCondFname = condTrace evts
    ∧ st.contents blobRethashFname = digestOf evts

/-- The three objects hold nothing, or do not exist. -/
def BlobsEmpty (st : Store) : Prop :=
  st.contents blobIaddrFname = [] ∧ st.contents blobCondFname = []
    ∧ st.contents blobRethashFname = []

/-- Another QUOTE leaves the two trace objects as they are. -/
def RequoteKeeps (s : TaState) : Prop :=
  ∀ s', cfaQuoteSave s = .ok s' →
    s'.store.contents blobIaddrFname = s.store.contents blobIaddrFname
      ∧ s'.store.contents blobCondFname = s.store.contents blobCondFname

def SameBlobs (st st' : Store) : Prop :=
  st.contents blobIaddrFname = st'.contents blobIaddrFname
    ∧ st.contents blobCondFname = st'.contents blobCondFname
    ∧ st.contents blobRethashFname = st'.contents blobRethashFname

namespace Attested

variable {base : Store} {evts : List CfaEvent} {s : TaState}

theorem blobsAre_iff (h : Attested base evts s) : BlobsAre s.store evts ↔ BlobsEmpty base := by
  rw [BlobsAre, h.iaddr, h.cond, h.rethash]
  simp only [List.append_left_eq_self, BlobsEmpty]

/-- A second QUOTE saves what is still in the buffers, once more. -/
theorem requoteKeeps_iff (h : Attested base evts s) :
    RequoteKeeps s ↔ indirectTargets evts = [] ∧ condTrace evts = [] := by
  have hquote := cfaQuoteSave_eq h.noFaults h.iaddrLeft h.condLeft
  obtain ⟨hiaddr, hcond, -⟩ := quoteStore_contents s.store
    (leftover le64 maxIbranchEvents (base.contents blobIaddrFname) (indirectTargets evts))
    (leftover charBytes maxCondEvents (base.contents blobCondFname) (condTrace evts))
    ((cfaQuote s).ctx.digest.take blake2sOutbytes)
  calc RequoteKeeps s
      ↔ leftover le64 maxIbranchEvents (base.contents blobIaddrFname) (indirectTargets evts) = []
          ∧ leftover charBytes maxCondEvents (base.contents blobCondFname) (condTrace evts)
            = [] := by
        simp only [RequoteKeeps, hquote, Except.ok.injEq, forall_eq', hiaddr, hcond,
          List.append_right_eq_self, flatMap_le64_eq_nil]
    _ ↔ indirectTargets evts = [] ∧ condTrace evts = [] := by
        rw [leftover_eq_nil, leftover_eq_nil]

theorem sameBlobs_iff {base' : Store} {s' : TaState} (h : Attested base evts s)
    (h' : Attested base' evts s') : SameBlobs s.store s'.store ↔ SameBlobs base base' := by
  rw [SameBlobs, h.iaddr, h.cond, h.rethash, h'.iaddr, h'.cond, h'.rethash]
  simp only [List.append_cancel_right_eq, SameBlobs]

end Attested

/-- The blobs are those of this attestation, and stay so under another
QUOTE, exactly when they were empty before it and it has traced nothing.
Two attestations of the same events leave the same blobs exactly when
they found the same. -/
theorem attest_blobs_iff {s : TaState} {evts : List CfaEvent} (hst : s.store.NoFaults) :
    (∀ s', attest s evts = .ok s' →
        (BlobsAre s'.store evts ∧ RequoteKeeps s'
          ↔ BlobsEmpty s.store ∧ indirectTargets evts = [] ∧ condTrace evts = []))
      ∧ (∀ r s' r', r.store.NoFaults → attest s evts = .ok s' → attest r evts = .ok r' →
        (SameBlobs s'.store r'.store ↔ SameBlobs s.store r.store))
      ∧ (s.MallocsSucceed → ∃ s', attest s evts = .ok s') := by
  refine ⟨?_, ?_, ?_⟩
  · intro s' h
    have hs' := attest_attested hst h
    rw [hs'.blobsAre_iff, hs'.requoteKeeps_iff]
  · intro r s' r' hr h h'
    exact (attest_attested hst h).sameBlobs_iff (attest_attested hr h')
  · intro hm
    obtain ⟨s', h, -⟩ := attest_total hm evts
    exact ⟨s', h⟩

theorem attest_blobs_iff_idle :
    ∃ s', attest (TaState.fresh Store.empty fun _ => true) [] = .ok s'
      ∧ BlobsAre s'.store [] ∧ RequoteKeeps s' := by
  obtain ⟨hexact, -, hrun⟩ :=
    @attest_blobs_iff (TaState.fresh Store.empty fun _ => true) [] rfl
  obtain ⟨s', h⟩ := hrun fun _ => rfl
  exact ⟨s', h, (hexact s' h).mpr ⟨⟨rfl, rfl, rfl⟩, rfl, rfl⟩⟩

/-- Attesting one indirect call twice, from an empty store: the second
time the object holds two targets for one event. -/
theorem attest_twice_accumulates :
    ∃ s₁ s₂, attest (TaState.fresh Store.empty fun _ => true) [sampleIcall] = .ok s₁
      ∧ attest s₁ [sampleIcall] = .ok s₂ ∧ ¬ BlobsAre s₂.store [sampleIcall] := by
  obtain ⟨s₁, h₁, hm₁⟩ := attest_total (s := TaState.fresh Store.empty fun _ => true)
    (fun _ => rfl) [sampleIcall]
  obtain ⟨s₂, h₂, -⟩ := attest_total hm₁ [sampleIcall]
  have hs₁ := attest_attested (s := TaState.fresh Store.empty fun _ => true) rfl h₁
  have hs₂ := attest_attested hs₁.noFaults h₂
  refine ⟨s₁, s₂, h₁, h₂, ?_⟩
  intro hblobs
  have hempty := (hs₂.blobsAre_iff.mp hblobs).1
  rw [hs₁.iaddr] at hempty
  exact absurd hempty (by decide)

end Ta

end Oat
