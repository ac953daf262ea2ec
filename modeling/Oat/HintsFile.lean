import Oat.TlClient
import Oat.VeTrace

/-!
# The hints file between the trampoline library and the verify engine

One file, three writers: conditional branches write a single character,
`cfv_icall` and `cfv_ijmp` a whole line, and none of them starts a new
line. The reader takes the first line of the file. So what it reads is
the string of conditional outcomes exactly when nothing else was written,
and when there is a line at all (`hints_roundTrip_iff`).
-/

namespace Oat

namespace Tl

open Ve

variable {τ : Type} (T : Teec τ)

/-! ## What a session writes -/

theorem checkRes_ok {res : TEECResult} {c c' : Client τ} (h : checkRes res c = .ok c') :
    res = teecSuccess ∧ c' = c := by
  unfold checkRes at h
  split at h
  · cases h
  · rename_i hres
    exact ⟨not_not.mp hres, (Except.ok.inj h).symm⟩

/-- A command that is sent and checked changes nothing but the TEE and
the history. -/
theorem invokeCommand_frame {c c' : Client τ} {cmdId : UInt32} {op : TEECOperation}
    (h : invokeCommand T c cmdId op = .ok c') :
    c'.cfvStart = c.cfvStart ∧ c'.hfp = c.hfp ∧ c'.hintsFile = c.hintsFile := by
  obtain ⟨-, rfl⟩ := checkRes_ok h
  exact ⟨rfl, rfl, rfl⟩

theorem handleEvent_frame {c c' : Client τ} {etype a b : UInt64}
    (h : handleEvent T etype a b c = .ok c') :
    c'.cfvStart = c.cfvStart ∧ c'.hfp = c.hfp ∧ c'.hintsFile = c.hintsFile := by
  unfold handleEvent at h
  split at h
  · obtain rfl := Except.ok.inj h
    exact ⟨rfl, rfl, rfl⟩
  · exact invokeCommand_frame T h

/-- While attestation is on, an open hints file holds the hints of the
hooks called so far. -/
structure HintsInv (pre : List Hook) (c : Client τ) : Prop where
  started : c.cfvStart = true
  written : c.hfp = true → c.hintsFile = pre.flatMap Hook.hint

theorem cfvInit_inv {fopenOk : Bool} {c c' : Client τ} (h : cfvInit T fopenOk c = .ok c') :
    HintsInv [] c' := by
  obtain ⟨c₁, -, hinvoke⟩ := bind_eq_ok.mp h
  obtain ⟨hstart, hhfp, hfile⟩ := invokeCommand_frame T hinvoke
  refine ⟨hstart, ?_⟩
  intro hopen
  rw [hhfp] at hopen
  rw [hfile]
  cases fopenOk with
  | true => rfl
  | false => cases hopen

/-- **Step**: a hook appends its hint. -/
theorem runHook_inv {pre : List Hook} {c c' : Client τ} {hook : Hook} (hi : HintsInv pre c)
    (h : runHook T c hook = .ok c') : HintsInv (pre ++ [hook]) c' := by
  rw [runHook_eq] at h
  obtain ⟨c₁, hevent, hret⟩ := bind_eq_ok.mp h
  obtain rfl := Except.ok.inj hret
  obtain ⟨hstart, hhfp, hfile⟩ := handleEvent_frame T hevent
  have hstarted := hstart.trans hi.started
  cases hopen : c₁.hfp with
  | false =>
      rw [fprintfHints, if_pos (Or.inl hopen)]
      exact ⟨hstarted, fun h => by rw [hopen] at h; cases h⟩
  | true =>
      rw [fprintfHints, if_neg (by simp [hopen, hstarted])]
      refine ⟨hstarted, ?_⟩
      intro _
      rw [List.flatMap_append, ← hi.written (hhfp.symm.trans hopen), ← hfile]
      simp

/-- **Run**: a session that reaches its end leaves the hints of its
hooks in the file, and nothing else. -/
theorem session_hintsFile {fopenOk : Bool} {c c' : Client τ} {hooks : List Hook}
    (h : session T fopenOk c hooks = .ok c') : c'.hintsFile = hooks.flatMap Hook.hint := by
  obtain ⟨c₁, hinit, hrest⟩ := bind_eq_ok.mp h
  obtain ⟨c₂, hhooks, hquote⟩ := bind_eq_ok.mp hrest
  have hinv := foldRun_inv (cfvInit_inv T hinit)
    (fun _ _ _ _ hi hstep => runHook_inv T hi hstep) hhooks
  obtain ⟨c₃, hinvoke, hclose⟩ := bind_eq_ok.mp hquote
  obtain ⟨-, hhfp, hfile⟩ := invokeCommand_frame T hinvoke
  simp only at hclose
  split at hclose
  · rename_i hopen
    obtain rfl := Except.ok.inj hclose
    exact hfile.trans (hinv.written (hhfp.symm.trans hopen))
  · cases hclose

/-! ## Sessions that reach their end -/

structure Teec.Succeeds : Prop where
  initializeContext : ∀ t, (T.initializeContext t).1 = teecSuccess
  openSession : ∀ t, (T.openSession t).1 = teecSuccess
  invokeCommand : ∀ t cmdId op, (T.invokeCommand t cmdId op).1 = teecSuccess

variable {T}

theorem Teec.Succeeds.invoke (hT : T.Succeeds) (c : Client τ) (cmdId : UInt32)
    (op : TEECOperation) : ∃ c', Tl.invokeCommand T c cmdId op = .ok c' ∧ c'.hfp = c.hfp :=
  ⟨_, if_neg (not_not.mpr (hT.invokeCommand c.tee cmdId op)), rfl⟩

theorem Teec.Succeeds.hook (hT : T.Succeeds) (hook : Hook) (c : Client τ) (hc : c.hfp = true) :
    ∃ c', runHook T c hook = .ok c' ∧ c'.hfp = true := by
  have hevent : ∃ c₁, handleEvent T hook.event.1 hook.event.2.1 hook.event.2.2 c = .ok c₁
      ∧ c₁.hfp = true := by
    unfold handleEvent
    split
    · exact ⟨c, rfl, hc⟩
    · obtain ⟨c₁, h₁, hhfp⟩ := hT.invoke c taCmdCfaVerifyEvents
        (eventOp hook.event.1 hook.event.2.1 hook.event.2.2)
      exact ⟨c₁, h₁, hhfp.trans hc⟩
  obtain ⟨c₁, h₁, hhfp⟩ := hevent
  refine ⟨fprintfHints hook.hint c₁, by rw [runHook_eq, h₁]; rfl, ?_⟩
  unfold fprintfHints
  split
  · exact hhfp
  · exact hhfp

/-- With a TEE whose calls succeed and a file that opens, every session
reaches its end. -/
theorem session_total (hT : T.Succeeds) (c : Client τ) (hooks : List Hook) :
    ∃ c', session T true c hooks = .ok c' := by
  have hinit : ∃ c₁, cfvInit T true c = .ok c₁ ∧ c₁.hfp = true := by
    simp only [cfvInit, openTa, checkRes, hT.initializeContext, hT.openSession, ne_eq,
      not_true_eq_false, if_false, bind, Except.bind]
    exact hT.invoke _ taCmdCfaInit initOp
  obtain ⟨c₁, h₁, hopen₁⟩ := hinit
  obtain ⟨c₂, h₂, hopen₂⟩ := foldRun_total (hT.hook) hooks hopen₁
  obtain ⟨c₃, h₃, hopen₃⟩ := hT.invoke c₂ taCmdCfaQuote quoteOp
  refine ⟨closeTa T { c₃ with cfvStart := false }, ?_⟩
  refine bind_eq_ok.mpr ⟨c₁, h₁, bind_eq_ok.mpr ⟨c₂, h₂, bind_eq_ok.mpr ⟨c₃, h₃, ?_⟩⟩⟩
  exact if_pos (hopen₃.trans hopen₂)

/-! ## What the reader makes of it -/

/-- The outcomes of the conditional hooks, in order. -/
def outcomes (hooks : List Hook) : List UInt8 :=
  hooks.flatMap fun
    | .collectCondBranchHints cond => [if cond then symY else symN]
    | _ => []

def Hook.writesRecord : Hook → Bool
  | .cfvIcall _ _ => true
  | .cfvIjmp _ _ => true
  | _ => false

theorem ascii_y : ascii "y" = [symY] := by decide
theorem ascii_n : ascii "n" = [symN] := by decide

/-- The first character of both records. -/
def symC : UInt8 := 'c'.toUInt8

theorem hint_of_record {hook : Hook} (h : hook.writesRecord = true) :
    ∃ rest, hook.hint = symC :: rest := by
  have hicall : ascii "cfv_icall" = symC :: ascii "fv_icall" := by decide
  have hijmp : ascii "cfv_ijmp" = symC :: ascii "fv_ijmp" := by decide
  cases hook with
  | cfvIcall target pc =>
      rw [Hook.hint, hintRecord, hicall]
      exact ⟨_, rfl⟩
  | cfvIjmp target pc =>
      rw [Hook.hint, hintRecord, hijmp]
      exact ⟨_, rfl⟩
  | _ => cases h

theorem hint_of_no_record {hook : Hook} (h : hook.writesRecord = false) :
    hook.hint = outcomes [hook] := by
  cases hook with
  | collectCondBranchHints cond => cases cond <;> simp [Hook.hint, outcomes, ascii_y, ascii_n]
  | cfvIcall target pc => cases h
  | cfvIjmp target pc => cases h
  | _ => rfl

theorem outcomes_cons (hook : Hook) (hooks : List Hook) :
    outcomes (hook :: hooks) = outcomes [hook] ++ outcomes hooks := by
  simp [outcomes]

theorem mem_outcomes {b : UInt8} {hooks : List Hook} (h : b ∈ outcomes hooks) :
    b = symY ∨ b = symN := by
  obtain ⟨hook, -, hb⟩ := List.mem_flatMap.mp h
  cases hook with
  | collectCondBranchHints cond =>
      rw [List.mem_singleton.mp hb]
      cases cond
      · exact Or.inr rfl
      · exact Or.inl rfl
  | _ => cases hb

theorem outcomes_ne_nil_iff {hooks : List Hook} :
    outcomes hooks ≠ [] ↔ ∃ cond, Hook.collectCondBranchHints cond ∈ hooks := by
  rw [Ne, outcomes, List.flatMap_eq_nil_iff]
  constructor
  · intro h
    simp only [not_forall] at h
    obtain ⟨hook, hmem, hne⟩ := h
    cases hook with
    | collectCondBranchHints cond => exact ⟨cond, hmem⟩
    | _ => exact absurd rfl hne
  · rintro ⟨cond, hmem⟩ hall
    cases hall _ hmem

theorem hints_of_no_record {hooks : List Hook}
    (h : ∀ hook ∈ hooks, hook.writesRecord = false) :
    hooks.flatMap Hook.hint = outcomes hooks := by
  induction hooks with
  | nil => rfl
  | cons hook hooks ih =>
      rw [List.flatMap_cons, outcomes_cons, hint_of_no_record (h hook List.mem_cons_self),
        ih fun g hg => h g (List.mem_cons_of_mem hook hg)]

/-- With a record, the first one starts on the line of the outcomes
before it. -/
theorem hints_of_record {hooks : List Hook} (h : ∃ hook ∈ hooks, hook.writesRecord = true) :
    ∃ pre rest, hooks.flatMap Hook.hint = outcomes pre ++ symC :: rest := by
  induction hooks with
  | nil =>
      obtain ⟨hook, hmem, -⟩ := h
      cases hmem
  | cons hook hooks ih =>
      cases hrec : hook.writesRecord with
      | true =>
          obtain ⟨rest, hhint⟩ := hint_of_record hrec
          exact ⟨[], rest ++ hooks.flatMap Hook.hint, by rw [List.flatMap_cons, hhint]; rfl⟩
      | false =>
          have hlater : ∃ g ∈ hooks, g.writesRecord = true := by
            obtain ⟨g, hmem, hg⟩ := h
            rcases List.mem_cons.mp hmem with rfl | hmem
            · rw [hrec] at hg
              cases hg
            · exact ⟨g, hmem, hg⟩
          obtain ⟨pre, rest, hrest⟩ := ih hlater
          exact ⟨hook :: pre, rest, by
            rw [List.flatMap_cons, hint_of_no_record hrec, hrest, outcomes_cons hook pre,
              List.append_assoc]⟩

theorem outcome_ne_newline {b : UInt8} {hooks : List Hook} (h : b ∈ outcomes hooks) :
    b ≠ newline ∧ isSpace b = false ∧ b ≠ symC := by
  rcases mem_outcomes h with rfl | rfl <;> decide

theorem getTrace_outcomes {hooks : List Hook} (h : outcomes hooks ≠ []) :
    getTrace (outcomes hooks) = .ok (outcomes hooks) := by
  have hline := readlines_line h fun hmem => (outcome_ne_newline hmem).1 rfl
  rw [getTrace, hline]
  exact congrArg Except.ok (strip_of_no_space fun b hb => (outcome_ne_newline hb).2.1)

/-- A record in the first line is read as part of the trace. -/
theorem getTrace_record {pre : List Hook} {rest trace : List UInt8}
    (h : getTrace (outcomes pre ++ symC :: rest) = .ok trace) : symC ∈ trace := by
  have hnl : newline ∉ outcomes pre ++ [symC] := by
    intro hmem
    rcases List.mem_append.mp hmem with hmem | hmem
    · exact (outcome_ne_newline hmem).1 rfl
    · exact absurd (List.mem_singleton.mp hmem) (by decide)
  obtain ⟨line, lines, hlines, hline⟩ := readlines_first (by simp) hnl rest
  rw [List.append_assoc, List.singleton_append] at hlines
  rw [getTrace, hlines] at h
  obtain rfl := Except.ok.inj h
  exact mem_strip (by decide) (hline symC (by simp))

/-- A file of hints reads back as the outcomes exactly when there are
outcomes and no records. -/
theorem getTrace_hints_iff (hooks : List Hook) :
    getTrace (hooks.flatMap Hook.hint) = .ok (outcomes hooks)
      ↔ outcomes hooks ≠ [] ∧ ∀ hook ∈ hooks, hook.writesRecord = false := by
  constructor
  · intro h
    have hrec : ∀ hook ∈ hooks, hook.writesRecord = false := by
      by_contra hsome
      simp only [not_forall, Bool.not_eq_false] at hsome
      obtain ⟨hook, hmem, hrec⟩ := hsome
      obtain ⟨pre, rest, htext⟩ := hints_of_record ⟨hook, hmem, hrec⟩
      rw [htext] at h
      exact (outcome_ne_newline (getTrace_record h)).2.2 rfl
    refine ⟨?_, hrec⟩
    intro hnil
    rw [hints_of_no_record hrec, hnil] at h
    cases h
  · rintro ⟨hne, hrec⟩
    rw [hints_of_no_record hrec]
    exact getTrace_outcomes hne

/-- Over any client library and TA: the trace read from the hints file
of a session that reached its end is the string of its conditional
outcomes exactly when it has a conditional hook and no indirect one. -/
theorem hints_roundTrip_iff (T : Teec τ) (c : Client τ) (hooks : List Hook) :
    (∀ fopenOk c', session T fopenOk c hooks = .ok c' →
        (getTrace c'.hintsFile = .ok (outcomes hooks)
          ↔ (∃ cond, .collectCondBranchHints cond ∈ hooks)
            ∧ ∀ hook ∈ hooks, hook.writesRecord = false))
      ∧ (T.Succeeds → ∃ c', session T true c hooks = .ok c') := by
  refine ⟨?_, fun hT => session_total hT c hooks⟩
  intro fopenOk c' h
  rw [session_hintsFile T h, getTrace_hints_iff, outcomes_ne_nil_iff]

def Teec.quiet : Teec Unit where
  initializeContext t := (teecSuccess, t)
  openSession t := (teecSuccess, t)
  invokeCommand t _ _ := (teecSuccess, t)
  close t := t

def Client.start (tee : τ) : Client τ := ⟨false, false, [], tee, []⟩

/-- A branch, an indirect call, a branch: the trace read is not `"yn"`. -/
theorem icall_spoils_trace :
    ∃ c', session Teec.quiet true (Client.start ())
        [.collectCondBranchHints true, .cfvIcall 0x400100 0x400110,
          .collectCondBranchHints false] = .ok c'
      ∧ getTrace c'.hintsFile ≠ .ok [symY, symN] := by
  have hquiet : Teec.quiet.Succeeds := ⟨fun _ => rfl, fun _ => rfl, fun _ _ _ => rfl⟩
  obtain ⟨c', h⟩ := session_total hquiet (Client.start ())
    [.collectCondBranchHints true, .cfvIcall 0x400100 0x400110, .collectCondBranchHints false]
  refine ⟨c', h, ?_⟩
  intro htrace
  rw [session_hintsFile _ h] at htrace
  have hrec := ((getTrace_hints_iff _).mp htrace).2 (.cfvIcall 0x400100 0x400110) (by decide)
  cases hrec

end Tl

end Oat
