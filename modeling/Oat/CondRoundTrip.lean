import Oat.TaAttest
import Oat.VeTrace

/-!
# `blob.cond` between the TA and the verify engine

The TA's conditional trace read back by `ExecutionTrace`. The recorder
says it uses `'y'` or `'n'`, and the reader accepts nothing else; but
the expression it records with, `'y' ? evt->a == 1 : 'n'`, has the
values 1 and 0 (`condChar_cases`). So no trace is ever read back: the
first symbol of a non-empty one is foreign, and an empty object has no
line to read (`condRoundTrip_fails`). The buffer itself is kept well
(`condBuf_idx_le`).
-/

namespace Oat

open Ta Ve

/-- What the reader should answer for a CONDBR event. -/
def condOutcome (evt : CfaEvent) : NextBranch := if evt.a = 1 then .y else .n

/-- The file holds exactly the outcomes of `evts`, in order: reading it
and asking for one branch per event answers them and uses it up. -/
def CondRoundTrip (file : List UInt8) (evts : List CfaEvent) : Prop :=
  ∃ t t', ExecutionTrace.init file = .ok t
    ∧ t.nextBranches evts.length = .ok (evts.map condOutcome, t') ∧ t'.idx = t'.trace.length

/-! ## What is recorded -/

theorem condChar_cases (evt : CfaEvent) : condChar evt = 1 ∨ condChar evt = 0 := by
  unfold condChar
  rw [if_pos (by decide)]
  split
  · exact Or.inl rfl
  · exact Or.inr rfl

theorem condTrace_of_condbr {evts : List CfaEvent}
    (h : ∀ e ∈ evts, e.etype = cfvEventHintCondbr) : condTrace evts = evts.map condChar := by
  rw [condTrace, List.filter_eq_self.mpr fun e he => by simpa using h e he]

/-- The bytes 1 and 0 are neither newline nor white space. -/
theorem mem_map_condChar {b : UInt8} {evts : List CfaEvent} (h : b ∈ evts.map condChar) :
    b ≠ newline ∧ isSpace b = false ∧ ExecutionTrace.classify b = .e := by
  obtain ⟨evt, -, rfl⟩ := List.mem_map.mp h
  rcases condChar_cases evt with h | h <;> rw [h] <;> decide

theorem getTrace_condChars {evts : List CfaEvent} (h : evts ≠ []) :
    getTrace (evts.map condChar) = .ok (evts.map condChar) := by
  have hne : evts.map condChar ≠ [] := by simpa using h
  have hline := readlines_line hne fun hmem => (mem_map_condChar hmem).1 rfl
  rw [getTrace, hline]
  exact congrArg Except.ok (strip_of_no_space fun b hb => (mem_map_condChar hb).2.1)

/-- Not even one recorded outcome is read back. -/
theorem condChars_unreadable (evts : List CfaEvent) :
    ¬ CondRoundTrip (evts.map condChar) evts := by
  rintro ⟨t, t', hinit, hread, -⟩
  cases evts with
  | nil => cases hinit
  | cons evt evts =>
      rw [ExecutionTrace.init, getTrace_condChars (List.cons_ne_nil evt evts)] at hinit
      obtain rfl := Except.ok.inj hinit
      have hmem : condChar evt ∈ (evt :: evts).map condChar := by simp
      have hforeign := (mem_map_condChar hmem).2.2
      obtain ⟨b, t₁, bs, hb, -, hbs⟩ := ExecutionTrace.nextBranches_succ_ok hread
      rw [ExecutionTrace.nextBranch_symbol (show _ = some (condChar evt) from rfl), hforeign] at hb
      obtain ⟨rfl, -⟩ := Prod.mk.injEq .. |>.mp (Except.ok.inj hb)
      have hfirst : condOutcome evt = .e := (List.cons.inj hbs).1
      unfold condOutcome at hfirst
      split at hfirst <;> cases hfirst

/-! ## The whole way -/

theorem condBuf_idx_le {s s₁ : TaState} {pre : List CfaEvent} (hst : s.store.NoFaults)
    (h : handleEvents (cfaInit s) pre = .ok s₁) : s₁.ctx.condBuf.idx ≤ maxCondEvents := by
  have hholds := (handleEvents_inv hst h).cond.holds
  rw [hholds.idx]
  exact hholds.fits

theorem blobCond_eq {s s' : TaState} {evts : List CfaEvent} (hst : s.store.NoFaults)
    (hempty : s.store.contents blobCondFname = [])
    (hcond : ∀ e ∈ evts, e.etype = cfvEventHintCondbr) (h : attest s evts = .ok s') :
    s'.store.contents blobCondFname = evts.map condChar := by
  rw [(attest_attested hst h).cond, hempty, condTrace_of_condbr hcond]
  rfl

/-- However many CONDBR events are recorded between INIT and QUOTE on an
empty store, the index stays within the buffer, and the object that is
saved does not read back as their outcomes. -/
theorem condRoundTrip_fails {s : TaState} {evts : List CfaEvent} (hst : s.store.NoFaults)
    (hempty : s.store.contents blobCondFname = [])
    (hcond : ∀ e ∈ evts, e.etype = cfvEventHintCondbr) :
    (∀ s', attest s evts = .ok s' →
        ¬ CondRoundTrip (s'.store.contents blobCondFname) evts)
      ∧ (∀ pre post s₁, evts = pre ++ post → handleEvents (cfaInit s) pre = .ok s₁ →
        s₁.ctx.condBuf.idx ≤ maxCondEvents)
      ∧ (s.MallocsSucceed → ∃ s', attest s evts = .ok s') := by
  refine ⟨?_, fun pre post s₁ _ hpre => condBuf_idx_le hst hpre, ?_⟩
  · intro s' h
    rw [blobCond_eq hst hempty hcond h]
    exact condChars_unreadable evts
  · intro hm
    obtain ⟨s', h, -⟩ := attest_total hm evts
    exact ⟨s', h⟩

def sampleBranches : List CfaEvent := [⟨cfvEventHintCondbr, 1, 0⟩, ⟨cfvEventHintCondbr, 0, 0⟩]

theorem condRoundTrip_fails_sample :
    ∃ s', attest (TaState.fresh Store.empty fun _ => true) sampleBranches = .ok s'
      ∧ ¬ CondRoundTrip (s'.store.contents blobCondFname) sampleBranches := by
  obtain ⟨hfails, -, hrun⟩ :=
    @condRoundTrip_fails (TaState.fresh Store.empty fun _ => true) sampleBranches rfl rfl (by decide)
  obtain ⟨s', h⟩ := hrun fun _ => rfl
  exact ⟨s', h, hfails s' h⟩

/-- The object holds the bytes 1 and 0, not `'y'` and `'n'`. -/
theorem recorded_bytes_unreadable :
    ∃ s', attest (TaState.fresh Store.empty fun _ => true) sampleBranches = .ok s'
      ∧ s'.store.contents blobCondFname = [1, 0]
      ∧ ¬ CondRoundTrip (s'.store.contents blobCondFname) sampleBranches := by
  obtain ⟨s', h, -⟩ := attest_total (s := TaState.fresh Store.empty fun _ => true)
    (fun _ => rfl) sampleBranches
  have hblob := blobCond_eq (s := TaState.fresh Store.empty fun _ => true) rfl rfl (by decide) h
  refine ⟨s', h, hblob, ?_⟩
  rw [hblob]
  exact condChars_unreadable sampleBranches

end Oat
