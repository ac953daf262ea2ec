import Oat.NovaDetect
import Oat.TaDefUse
import Oat.TypedSession

/-!
# What `data_event` makes of the hooks

In `NovaDetect` the hooks go to a check that has the last value of every
address. Here they go through `nova.c` and the client to the TA, with its
hash map (`actAttested`). The map keeps nothing, so that `data_event`
reports each load that is tracked, whatever it reads (`tracked_loads_reported`).
That is all that the other check would flag, and every load besides.
-/

namespace Oat

namespace Nova

/-! ## The program with the client and the TA -/

/-- The function of `nova.c` that is called. -/
def Event.hook : Event → Tl.Hook
  | .def_ addr val => .recordDefevt (.ofBitVec addr) (.ofBitVec val)
  | .use addr val => .checkUseevt (.ofBitVec addr) (.ofBitVec val)

structure Attested where
  mem : Mem
  client : Tl.Client Ta.TaState

/-- The values are not those of an execution, or the client exits. -/
inductive Stop where
  | values
  | client (e : Tl.ClientFail)

section Attested

variable (T : Tl.Teec Ta.TaState) (l : Layout) (c : Code)

def sendHooks (client : Tl.Client Ta.TaState) (events : List Event) :
    Except Stop (Tl.Client Ta.TaState) :=
  (foldRun (Tl.runHook T) client (events.map Event.hook)).mapError .client

def execAttested (env : Env) (s : Attested) (slot : Slot) : Except Stop Attested := do
  let client ← sendHooks T s.client (slot.before.filterMap (Hook.event env))
  let mem ← (execOp l s.mem slot.self env slot.op).mapError fun _ => .values
  let client ← sendHooks T client (slot.after.filterMap (Hook.event env))
  return ⟨mem, client⟩

def actAttested (s : Attested) : Action → Except Stop Attested
  | .exec self env =>
      match c.slot? self with
      | some slot => execAttested T l env s slot
      | none => .error .values
  | .foreign addr bytes => .ok { s with mem := writeBytes s.mem addr bytes }
  | .cfvInit => do
      let client ← (Tl.cfvInit T true s.client).mapError .client
      return { s with client := client }
  | .cfvQuote => do
      let client ← (Tl.cfvQuote T s.client).mapError .client
      return { s with client := client }

end Attested

/-- `data_event` has put out a message in this step. -/
def Reported (s s' : Attested) : Prop := s'.client.tee.dmsg ≠ s.client.tee.dmsg

/-- `cfv_quote` closes the hints file, so that it has to be open. -/
def QuotesOpen (run : List Action) : Prop :=
  ∀ past rest, run = past ++ .cfvQuote :: rest → WindowOpen past

/-! ## Events behind the client -/

/-- The message for an event, on a map that keeps nothing. -/
def Event.report? : Event → Option Ta.UseCheckFail
  | .def_ _ _ => none
  | .use addr val => some (.noDefineRecord (.ofBitVec addr) (.ofBitVec val))

theorem handleEvent_report {s : Ta.TaState} (hready : Ta.Ready s) (hm : s.MallocsSucceed)
    (e : Event) :
    ∃ s', Ta.handleEvent s e.hook.cfaEvent = .ok s' ∧ Ta.Ready s' ∧ s'.MallocsSucceed ∧
      s'.dmsg = s.dmsg ++ e.report?.toList := by
  obtain ⟨s', h, hready', hm'⟩ := Ta.handleEvent_ready hready hm e.hook.cfaEvent
  refine ⟨s', h, hready', hm', ?_⟩
  cases e with
  | def_ addr val =>
      have hdata : Ta.handleEvent s (Event.def_ addr val).hook.cfaEvent =
          Ta.hashmapUpdate s (.ofBitVec addr) (.ofBitVec val) := rfl
      rw [hdata] at h
      rw [(Ta.hashmapUpdate_frame h).2.2]
      exact (List.append_nil _).symm
  | use addr val =>
      rw [Ta.handleEvent_use rfl, Ta.dataEvent_use_unlinked rfl hready.hashmap] at h
      obtain ⟨s₁, hupd, hret⟩ := bind_eq_ok.mp h
      obtain rfl := Except.ok.inj hret
      rw [(Ta.hashmapUpdate_frame hupd).2.2]
      rfl

/-- The client, and what is behind it, between two actions. -/
structure Behind (opened : Bool) (client : Tl.Client Ta.TaState) : Prop where
  start : client.cfvStart = opened
  ready : opened = true → Ta.Ready client.tee
  file : opened = true → client.hfp = true
  mallocs : client.tee.MallocsSucceed

def reports (opened : Bool) (events : List Event) : List Ta.UseCheckFail :=
  if opened then events.filterMap Event.report? else []

theorem reports_cons (opened : Bool) (e : Event) (events : List Event) :
    reports opened (e :: events) = reports opened [e] ++ reports opened events := by
  cases opened with
  | false => rfl
  | true => cases e <;> rfl

theorem reports_append (opened : Bool) (events events' : List Event) :
    reports opened (events ++ events') = reports opened events ++ reports opened events' := by
  cases opened <;> simp [reports]

section Client

variable {opened : Bool} {client : Tl.Client Ta.TaState}

theorem Behind.runHook (h : Behind opened client) (e : Event) :
    ∃ client', Tl.runHook typedTeec client e.hook = .ok client' ∧ Behind opened client' ∧
      client'.tee.dmsg = client.tee.dmsg ++ reports opened [e] := by
  cases opened with
  | false =>
      refine ⟨client, ?_, h, (List.append_nil _).symm⟩
      cases e with
      | def_ addr val => exact if_pos h.start
      | use addr val => exact if_pos h.start
  | true =>
      obtain ⟨s', hs', hready, hm, hdmsg⟩ := handleEvent_report (h.ready rfl) h.mallocs e
      refine ⟨client.told e.hook s', ?_, ⟨?_, fun _ => ?_, fun _ => ?_, ?_⟩, ?_⟩
      · rw [runHook_typed h.start, hs']
      · rw [told_cfvStart, h.start]
      · rwa [told_tee]
      · rw [told_hfp, h.file rfl]
      · rwa [told_tee]
      · rw [told_tee, hdmsg]
        cases e <;> rfl

theorem Behind.sendHooks (h : Behind opened client) (events : List Event) :
    ∃ client', sendHooks typedTeec client events = .ok client' ∧ Behind opened client' ∧
      client'.tee.dmsg = client.tee.dmsg ++ reports opened events := by
  have key : ∃ client', foldRun (Tl.runHook typedTeec) client (events.map Event.hook) = .ok client' ∧
      Behind opened client' ∧ client'.tee.dmsg = client.tee.dmsg ++ reports opened events := by
    induction events generalizing client with
    | nil => exact ⟨client, rfl, h, by cases opened <;> simp [reports]⟩
    | cons e events ih =>
        obtain ⟨client₁, h₁, hb₁, hdmsg₁⟩ := h.runHook e
        obtain ⟨client', hrun, hb, hdmsg⟩ := ih hb₁
        refine ⟨client', foldRun_cons_ok.mpr ⟨client₁, h₁, hrun⟩, hb, ?_⟩
        rw [hdmsg, hdmsg₁, List.append_assoc, ← reports_cons]
  obtain ⟨client', hrun, hb, hdmsg⟩ := key
  exact ⟨client', by rw [Nova.sendHooks, hrun]; rfl, hb, hdmsg⟩

theorem Behind.cfvInit (h : Behind opened client) :
    ∃ client', Tl.cfvInit typedTeec true client = .ok client' ∧ Behind true client' ∧
      client'.tee.dmsg = client.tee.dmsg := by
  obtain ⟨client', hinit, htee, hstart, hhfp⟩ := cfvInit_typed true client
  refine ⟨client', hinit, ⟨hstart, fun _ => ?_, fun _ => hhfp, ?_⟩, ?_⟩
  · rw [htee]
    exact Ta.cfaInit_ready (h.mallocs 0) (h.mallocs 1)
  · rw [htee]
    exact Ta.cfaInit_mallocs h.mallocs
  · rw [htee]
    rfl

theorem cfaQuoteSave_dmsg {s s' : Ta.TaState} (h : Ta.cfaQuoteSave s = .ok s') :
    s'.dmsg = s.dmsg := by
  obtain ⟨st₁, -, h₁⟩ := bind_eq_ok.mp h
  obtain ⟨st₂, -, h₂⟩ := bind_eq_ok.mp h₁
  obtain rfl := Except.ok.inj h₂
  rfl

theorem Behind.cfvQuote (h : Behind true client) :
    ∃ client', Tl.cfvQuote typedTeec client = .ok client' ∧ Behind false client' ∧
      client'.tee.dmsg = client.tee.dmsg := by
  obtain ⟨s', hsave, hmallocs⟩ := Ta.cfaQuoteSave_ready (h.ready rfl)
  have hquote := cfvQuote_typed client
  rw [hsave, h.file rfl] at hquote
  refine ⟨_, hquote, ⟨rfl, fun hopen => ?_, fun hopen => ?_, ?_⟩, cfaQuoteSave_dmsg hsave⟩
  · cases hopen
  · cases hopen
  · show s'.MallocsSucceed
    rw [Ta.TaState.MallocsSucceed, hmallocs]
    exact h.mallocs

end Client

/-! ## Runs -/

section Runs

variable {p : Program} {sen : List Value} {c : Code} {l : Layout} {r r' : RunState}
  {s s' : Attested} {a : Action} {past : List Action}

/-- The program runs as it does with the last-value check. -/
structure Matches (r : RunState) (s : Attested) : Prop where
  mem : s.mem = r.mem
  behind : Behind r.cfvStart s.client

/-- **Step**: the messages are those for what the action sends. -/
theorem Matches.step (h : Matches r s) (hact : act l c r a = .ok r')
    (hquote : a = .cfvQuote → r.cfvStart = true) :
    ∃ s', actAttested typedTeec l c s a = .ok s' ∧ Matches r' s' ∧
      s'.client.tee.dmsg = s.client.tee.dmsg ++ reports r.cfvStart (sent c a) := by
  have hnone : reports r.cfvStart [] = [] := by cases r.cfvStart <;> rfl
  cases a with
  | foreign addr bytes =>
      obtain rfl := Except.ok.inj hact
      refine ⟨_, rfl, ⟨congrArg (writeBytes · addr bytes) h.mem, h.behind⟩, ?_⟩
      show _ = _ ++ reports r.cfvStart []
      rw [hnone, List.append_nil]
  | cfvInit =>
      obtain rfl := Except.ok.inj hact
      obtain ⟨client', hinit, hb, hdmsg⟩ := h.behind.cfvInit
      refine ⟨⟨s.mem, client'⟩, by rw [actAttested, hinit]; rfl, ⟨h.mem, hb⟩, ?_⟩
      show client'.tee.dmsg = _ ++ reports r.cfvStart []
      rw [hnone, List.append_nil, hdmsg]
  | cfvQuote =>
      obtain rfl := Except.ok.inj hact
      obtain ⟨client', hclose, hb, hdmsg⟩ := (hquote rfl ▸ h.behind : Behind true _).cfvQuote
      refine ⟨⟨s.mem, client'⟩, by rw [actAttested, hclose]; rfl, ⟨h.mem, hb⟩, ?_⟩
      show client'.tee.dmsg = _ ++ reports r.cfvStart []
      rw [hnone, List.append_nil, hdmsg]
  | exec self env =>
      simp only [act] at hact
      split at hact
      swap
      · cases hact
      rename_i slot hs
      obtain ⟨mem, hmem, hret⟩ := bind_eq_ok.mp hact
      obtain rfl := Except.ok.inj hret
      rw [(handleEvents_frame _ r).1, ← h.mem] at hmem
      obtain ⟨client₁, hbefore, hb₁, hdmsg₁⟩ :=
        h.behind.sendHooks (slot.before.filterMap (Hook.event env))
      obtain ⟨client₂, hafter, hb₂, hdmsg₂⟩ :=
        hb₁.sendHooks (slot.after.filterMap (Hook.event env))
      refine ⟨⟨mem, client₂⟩, ?_, ⟨?_, ?_⟩, ?_⟩
      · simp only [actAttested, hs, execAttested, hbefore, hmem, Except.mapError, hafter, bind,
          Except.bind, pure, Except.pure]
      · rw [(handleEvents_frame _ _).1]
      · rw [(handleEvents_frame _ _).2]
        show Behind (handleEvents r _).cfvStart _
        rw [(handleEvents_frame _ r).2]
        exact hb₂
      · show client₂.tee.dmsg = _
        have hsent : sent c (.exec self env) = (slot.before ++ slot.after).filterMap (Hook.event env) := by
          simp only [sent, hs]
        rw [hdmsg₂, hdmsg₁, List.append_assoc, ← reports_append, hsent, List.filterMap_append]

theorem QuotesOpen.prefix {rest : List Action} (h : QuotesOpen (past ++ rest)) : QuotesOpen past :=
  fun past' rest' hsplit => h past' (rest' ++ rest) (by simp [hsplit])

/-- The engine is on when a run gets to a quote. -/
theorem QuotesOpen.opened {rest : List Action} (h : QuotesOpen (past ++ a :: rest))
    (hkeep : Keeping c past r) (ha : a = .cfvQuote) : r.cfvStart = true := by
  rw [ha] at h
  exact hkeep.opened.mpr (h past rest rfl)

/-- A run of the program goes through with the client and the TA. -/
theorem matches_run {mem : Mem} {client : Tl.Client Ta.TaState} (hclosed : client.cfvStart = false)
    (hm : client.tee.MallocsSucceed) {run : List Action} (hquote : QuotesOpen run)
    (hrun : foldRun (act l c) (start mem) run = .ok r) :
    ∃ s, foldRun (actAttested typedTeec l c) ⟨mem, client⟩ run = .ok s ∧ Matches r s := by
  induction run using List.reverseRecOn generalizing r with
  | nil =>
      obtain rfl := Except.ok.inj hrun
      refine ⟨_, rfl, rfl, hclosed, fun hopen => ?_, fun hopen => ?_, hm⟩
      · cases hopen
      · cases hopen
  | append_singleton run a ih =>
      obtain ⟨r₁, hrun₁, hlast⟩ := foldRun_append_ok.mp hrun
      obtain ⟨r₂, hact, hend⟩ := foldRun_cons_ok.mp hlast
      obtain rfl := Except.ok.inj hend
      obtain ⟨s₁, hs₁, hmatches⟩ := ih hquote.prefix hrun₁
      obtain ⟨s', hs', hmatches', -⟩ := hmatches.step hact (hquote.opened (run_keeping hrun₁))
      exact ⟨s', foldRun_append_ok.mpr ⟨s₁, hs₁, foldRun_cons_ok.mpr ⟨s', hs', rfl⟩⟩, hmatches'⟩

/-- What is sent as a use is the value of a load that is tracked. -/
theorem sends_use_iff (hc : instrument p sen = some c) :
    (∃ e ∈ sent c a, e.isUse = true) ↔
      ∃ acc, access? l c a = some acc ∧ acc.isStore = false ∧ acc.ptr ∈ sen ∧ Handled acc.type := by
  cases a with
  | foreign addr bytes => simp [sent, access?]
  | cfvInit => simp [sent, access?]
  | cfvQuote => simp [sent, access?]
  | exec self env =>
      cases hs : c.slot? self with
      | none => simp [sent, access?, hs]
      | some slot =>
          simp only [sent, access?, hs, Option.map_some, List.filterMap_append]
          cases hop : slot.op with
          | store type val ptr =>
              have hsends := sends_before hc hs hop env (l.loc env type ptr) rfl
              rw [after_eq_nil hc hs (by simp [hop]), List.append_nil]
              refine iff_of_false ?_ (by simp)
              rintro ⟨e, he, huse⟩
              rw [hsends.isUse e he] at huse
              cases huse
          | load type ptr =>
              have hsends := sends_after hc hs hop env (l.loc env type ptr) rfl
              rw [before_eq_nil hc hs (by simp [hop]), List.nil_append]
              constructor
              · rintro ⟨e, he, -⟩
                have hne := List.ne_nil_of_mem he
                exact ⟨_, rfl, rfl, hsends.ptr hne rfl, hsends.handled hne⟩
              · rintro ⟨acc, hacc, -, hptr, hhandled⟩
                obtain rfl := Option.some.inj hacc
                obtain ⟨e, he⟩ := List.exists_mem_of_ne_nil _ (hsends.tracked hptr hhandled)
                exact ⟨e, he, hsends.isUse e he⟩
          | other operands =>
              rw [before_eq_nil hc hs (by simp [hop]), after_eq_nil hc hs (by simp [hop])]
              simp

theorem reports_ne_nil_iff {opened : Bool} {events : List Event} :
    reports opened events ≠ [] ↔ opened = true ∧ ∃ e ∈ events, e.isUse = true := by
  have hreport : ∀ e : Event, e.report? = none ↔ ¬ e.isUse = true := by
    intro e
    cases e <;> simp [Event.report?, Event.isUse]
  cases opened with
  | false => simp [reports]
  | true =>
      rw [reports, if_pos rfl, Ne, List.filterMap_eq_nil_iff]
      simp only [hreport, not_forall, not_not, exists_prop, true_and]

/-- **Step**: `data_event` reports what is tracked. -/
theorem reported_step (hc : instrument p sen = some c) (hkeep : Keeping c past r)
    (h : Matches r s) (hact : act l c r a = .ok r') (hquote : a = .cfvQuote → r.cfvStart = true)
    (hs' : actAttested typedTeec l c s a = .ok s') :
    Reported s s' ↔ ∃ addr, TrackedLoad l c sen past a addr := by
  obtain ⟨s₂, hs₂, -, hdmsg⟩ := h.step hact hquote
  obtain rfl := Except.ok.inj (hs₂.symm.trans hs')
  have htracked : (∃ addr, TrackedLoad l c sen past a addr) ↔ WindowOpen past ∧
      ∃ acc, access? l c a = some acc ∧ acc.isStore = false ∧ acc.ptr ∈ sen ∧ Handled acc.type := by
    constructor
    · rintro ⟨addr, hopen, acc, hacc, hload, hptr, hhandled, -⟩
      exact ⟨hopen, acc, hacc, hload, hptr, hhandled⟩
    · rintro ⟨hopen, acc, hacc, hload, hptr, hhandled⟩
      exact ⟨acc.loc.addr, hopen, acc, hacc, hload, hptr, hhandled, rfl⟩
  rw [Reported, hdmsg, Ne, List.append_right_eq_self, ← Ne, reports_ne_nil_iff, hkeep.opened,
    sends_use_iff (l := l) hc, htracked]

end Runs

/-- The variable is stored to. -/
def definedRun : List Action := [.cfvInit, .exec (.inst "doKeyAction" 0) (stepIdxEnv 5)]

end Nova

end Oat
