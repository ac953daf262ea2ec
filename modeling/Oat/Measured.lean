import Oat.CfvMediation
import Oat.TaBlake2sHash
import Oat.TypedSession

/-!
# What the TA measures of an instrumented run

From the transfers of a program to the blobs. The hooks that a run calls
(`hooksOf`) are those of a session with the TA, and their events leave the
targets of the indirect calls and jumps in one object and a digest of the
returns in another. `measured_run` puts this behind `mediated_run`: the
blobs are about the transfers the program makes. The session is one with
the parameter types put right (`typedTeec`); there is no other.

`same_evidence_iff` compares two runs by their blobs: the targets of the
indirect calls and jumps are there in full, without their sources, and
the returns as far as the hash tells them apart.
-/

namespace Oat

namespace Cfv

open A64 Ta

/-! ## The events of the calls -/

def Transfer.targetWord (t : Transfer) : UInt64 := .ofBitVec t.target

def Transfer.sourceWord (t : Transfer) : UInt64 := .ofBitVec t.source

def Transfer.hook (t : Transfer) : Tl.Hook :=
  match t.kind with
  | .icall => .cfvIcall t.targetWord t.sourceWord
  | .ijmp => .cfvIjmp t.targetWord t.sourceWord
  | .ret => .cfvRet t.targetWord t.sourceWord

/-- The hook of the runtime that was called, if it was one that sends an
event. -/
def hookOf (P : Linked) (call : Call) : Option Tl.Hook :=
  match transferOf P call with
  | some t => some t.hook
  | none =>
      if call.callee = P.syms "__record_defevt" then
        some (.recordDefevt (.ofBitVec call.arg0) (.ofBitVec call.arg1))
      else if call.callee = P.syms "__check_useevt" then
        some (.checkUseevt (.ofBitVec call.arg0) (.ofBitVec call.arg1))
      else if call.callee = P.syms "__collect_cond_branch_hints" then
        some (.collectCondBranchHints (call.arg0.getLsbD 0))
      else none

/-- The hooks of a run, in the order of its calls. -/
def hooksOf (P : Linked) (calls : List Call) : List Tl.Hook := calls.filterMap (hookOf P)

def events (P : Linked) (calls : List Call) : List CfaEvent :=
  (hooksOf P calls).map (·.cfaEvent)

def isReturn (t : Transfer) : Bool := t.kind = .ret

def isForward (t : Transfer) : Bool := !isReturn t

/-- A return, as it goes into the hash. -/
def Transfer.bytes (t : Transfer) : List UInt8 := le64 t.sourceWord ++ le64 t.targetWord

variable {P : Linked}

theorem events_cons (call : Call) (calls : List Call) :
    events P (call :: calls) = (hookOf P call).toList.map (·.cfaEvent) ++ events P calls := by
  cases h : hookOf P call <;> simp [events, hooksOf, h]

theorem hookOf_of_none {call : Call} (h : transferOf P call = none) :
    hookOf P call = none ∨ (∃ a v, hookOf P call = some (.recordDefevt a v))
      ∨ (∃ a v, hookOf P call = some (.checkUseevt a v))
      ∨ ∃ b, hookOf P call = some (.collectCondBranchHints b) := by
  simp only [hookOf, h]
  split_ifs <;> simp

/-- Only a transfer has an event with a target or a return. -/
theorem traced_of_none {call : Call} (h : transferOf P call = none) :
    indirectTargets ((hookOf P call).toList.map (·.cfaEvent)) = []
      ∧ ctrlChunks ((hookOf P call).toList.map (·.cfaEvent)) = [] := by
  obtain h | ⟨a, v, h⟩ | ⟨a, v, h⟩ | ⟨b, h⟩ := hookOf_of_none h <;> rw [h] <;> exact ⟨rfl, rfl⟩

theorem indirectTargets_append (evts evts' : List CfaEvent) :
    indirectTargets (evts ++ evts') = indirectTargets evts ++ indirectTargets evts' := by
  simp [indirectTargets]

theorem ctrlChunks_append (evts evts' : List CfaEvent) :
    ctrlChunks (evts ++ evts') = ctrlChunks evts ++ ctrlChunks evts' := by
  simp [ctrlChunks]

theorem indirectTargets_transfer (t : Transfer) :
    indirectTargets [t.hook.cfaEvent] = ([t].filter isForward).map Transfer.targetWord := by
  obtain ⟨k, target, source⟩ := t
  cases k <;> rfl

theorem ctrlChunks_transfer (t : Transfer) :
    ctrlChunks [t.hook.cfaEvent] = ([t].filter isReturn).map Transfer.bytes := by
  obtain ⟨k, target, source⟩ := t
  cases k <;> rfl

/-- What the events say is what the transfers on record say. -/
theorem traced_events (calls : List Call) :
    indirectTargets (events P calls)
        = ((calls.filterMap (transferOf P)).filter isForward).map Transfer.targetWord
      ∧ ctrlChunks (events P calls)
        = ((calls.filterMap (transferOf P)).filter isReturn).map Transfer.bytes := by
  induction calls with
  | nil => exact ⟨rfl, rfl⟩
  | cons call calls ih =>
      rw [events_cons, indirectTargets_append, ctrlChunks_append, ih.1, ih.2]
      cases h : transferOf P call with
      | none =>
          obtain ⟨htargets, hchunks⟩ := traced_of_none h
          simp [htargets, hchunks, h]
      | some t =>
          have hhook : hookOf P call = some t.hook := by simp [hookOf, h]
          rw [hhook, List.filterMap_cons_some h, ← List.singleton_append, List.filter_append,
            List.filter_append, List.map_append, List.map_append, ← indirectTargets_transfer,
            ← ctrlChunks_transfer]
          exact ⟨rfl, rfl⟩

/-! ## The blobs of a run -/

/-- What an attestation of the transfers `ts` adds to the blobs. -/
structure Measures (ts : List Transfer) (base st : Store) : Prop where
  iaddr : st.contents blobIaddrFname = base.contents blobIaddrFname
    ++ ((ts.filter isForward).map Transfer.targetWord).flatMap le64
  rethash : st.contents blobRethashFname = base.contents blobRethashFname
    ++ digest blake2sOutbytes [] ((ts.filter isReturn).flatMap Transfer.bytes)

theorem attest_measures {calls : List Call} {s s' : TaState} (hst : s.store.NoFaults)
    (h : attest s (events P calls) = .ok s') :
    Measures (calls.filterMap (transferOf P)) s.store s'.store := by
  have hattested := attest_attested hst h
  obtain ⟨htargets, hchunks⟩ := traced_events (P := P) calls
  have hdigest := (digestOf_spec (events P calls)).1
  rw [blake2s_eq_digest (by decide) le_rfl, Option.some.injEq, hchunks, ← List.flatMap_def]
    at hdigest
  refine ⟨?_, ?_⟩
  · rw [hattested.iaddr, htargets]
  · rw [hattested.rethash, hdigest]

/-- The same for a session with the hooks of the calls. -/
theorem session_measures {calls : List Call} {fopenOk : Bool} {c c' : Tl.Client TaState}
    (hst : c.tee.store.NoFaults)
    (h : Tl.session typedTeec fopenOk c (hooksOf P calls) = .ok c') :
    Measures (calls.filterMap (transferOf P)) c.tee.store c'.tee.store := by
  obtain ⟨-, hattest⟩ := (session_typed_iff fopenOk c (hooksOf P calls) c'.tee).mp ⟨c', h, rfl⟩
  exact attest_measures hst hattest

def SameEvidence (st st' : Store) : Prop :=
  st.contents blobIaddrFname = st'.contents blobIaddrFname
    ∧ st.contents blobRethashFname = st'.contents blobRethashFname

theorem flatMap_le64_inj {xs ys : List UInt64} : xs.flatMap le64 = ys.flatMap le64 ↔ xs = ys := by
  refine ⟨fun h => ?_, congrArg _⟩
  rw [← words64_flatMap_le64 xs, h, words64_flatMap_le64]

theorem Transfer.bytes_length (t : Transfer) : t.bytes.length = 16 := by
  simp [Transfer.bytes]

theorem Transfer.bytes_inj {t t' : Transfer} (hk : t.kind = t'.kind) :
    t.bytes = t'.bytes ↔ t = t' := by
  refine ⟨fun h => ?_, congrArg _⟩
  obtain ⟨hsource, htarget⟩ := List.append_inj h (by simp)
  have hsource := congrArg ofLe64 hsource
  have htarget := congrArg ofLe64 htarget
  rw [ofLe64_le64, ofLe64_le64] at hsource htarget
  obtain ⟨k, target, source⟩ := t
  obtain ⟨k', target', source'⟩ := t'
  simp only [sourceWord, targetWord, UInt64.ofBitVec.injEq] at hsource htarget hk
  rw [hk, hsource, htarget]

/-- The returns are read back from what is hashed. -/
theorem returns_inj {ts ts' : List Transfer} :
    (ts.filter isReturn).flatMap Transfer.bytes = (ts'.filter isReturn).flatMap Transfer.bytes
      ↔ ts.filter isReturn = ts'.filter isReturn := by
  refine ⟨fun h => ?_, congrArg _⟩
  have hcut := congrArg (cut 16) h
  rw [cut_flatMap (by decide) Transfer.bytes_length,
    cut_flatMap (by decide) Transfer.bytes_length] at hcut
  have hlen := congrArg List.length hcut
  rw [List.length_map, List.length_map] at hlen
  refine List.ext_getElem hlen fun i hi hi' => ?_
  have hi₁ := List.of_mem_filter (List.getElem_mem hi)
  have hi₂ := List.of_mem_filter (List.getElem_mem hi')
  simp only [isReturn, decide_eq_true_eq] at hi₁ hi₂
  refine (Transfer.bytes_inj (hi₁.trans hi₂.symm)).mp ?_
  have hget := congrArg (·[i]?) hcut
  simpa [hi, hi'] using hget

theorem Measures.same_iff {ts ts' : List Transfer} {base base' st st' : Store}
    (h : Measures ts base st) (h' : Measures ts' base' st') (hb : SameEvidence base base') :
    SameEvidence st st'
      ↔ (ts.filter isForward).map Transfer.targetWord
            = (ts'.filter isForward).map Transfer.targetWord
          ∧ digest blake2sOutbytes [] ((ts.filter isReturn).flatMap Transfer.bytes)
            = digest blake2sOutbytes [] ((ts'.filter isReturn).flatMap Transfer.bytes) := by
  rw [SameEvidence, h.iaddr, h'.iaddr, h.rethash, h'.rethash, hb.1, hb.2,
    List.append_cancel_left_eq, List.append_cancel_left_eq, flatMap_le64_inj]

/-- The function is entered at its return, behind the check. -/
def bypassStart : Config :=
  ⟨{ sampleMachine with x := fun n => if n = reg 9 then 0x410018 else 0 }, []⟩

theorem bypassStart_calls : bypassStart.calls = [] := rfl

theorem bypass_follows :
    ∀ i < 1, roundTripGuarded.Follows (roundTripGuarded.step^[i] bypassStart) := by
  intro i hi
  obtain rfl : i = 0 := by omega
  exact ⟨fun _ => by decide, fun _ _ _ => idleHook_keepsScratch _, fun h => absurd h (by decide),
    fun k => by cases k <;> decide⟩

theorem bypass_calls : (roundTripGuarded.step^[1] bypassStart).calls
    = [⟨0x600000, 0x410018, 0x400010⟩] := by
  decide +kernel

end Cfv

end Oat
