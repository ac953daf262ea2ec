import Mathlib.Data.List.Induction
import Oat.NovaWindow

/-!
# What the last-value check detects

The other side of `no_false_alarm`: here nothing is asked of the run.
Code without hooks may write anywhere and at any time, stores may be as
wide as they like, and addresses may be shared. The check is the one that
the hooks are for, with the last value of every address on record; for
`data_event` see `NovaEngine`.

`flagged_iff`: a run is flagged exactly if some tracked load in an open
window reads another value than the one last sent for its address in the
window. So a value that was recorded and then changed behind the back of
the hooks does not reach the program unnoticed (`corruption_flagged`).
-/

namespace Oat

namespace Nova

/-! ## What is sent -/

/-- The events of an action, if the window is open. -/
def sent (c : Code) : Action → List Event
  | .exec self env =>
      match c.slot? self with
      | some slot => (slot.before ++ slot.after).filterMap (Hook.event env)
      | none => []
  | _ => []

/-- The value that the action sends last for the address. -/
def sentVal (c : Code) (addr : BitVec 64) (a : Action) : Option (BitVec 64) :=
  ((sent c a).reverse.find? fun e => e.addr = addr).map Event.val

def lastSentStep (c : Code) (addr : BitVec 64) (v : Option (BitVec 64)) : Action →
    Option (BitVec 64)
  | .cfvInit => none
  | a => sentVal c addr a <|> v

/-- The value last sent for the address since the last `cfv_init`. -/
def lastSent (c : Code) (past : List Action) (addr : BitVec 64) : Option (BitVec 64) :=
  past.foldl (lastSentStep c addr) none

theorem lastSent_concat (c : Code) (past : List Action) (a : Action) (addr : BitVec 64) :
    lastSent c (past ++ [a]) addr = lastSentStep c addr (lastSent c past addr) a := by
  rw [lastSent, List.foldl_append]
  rfl

/-! ## What the engine makes of it -/

theorem handleEvents_append (s : RunState) (xs ys : List Event) :
    handleEvents s (xs ++ ys) = handleEvents (handleEvents s xs) ys := List.foldl_append

theorem handleEvents_mem (s : RunState) (mem : Mem) (events : List Event) :
    handleEvents { s with mem := mem } events = { handleEvents s events with mem := mem } := by
  induction events generalizing s with
  | nil => rfl
  | cons e events ih =>
      have hone : handleEvent { s with mem := mem } e = { handleEvent s e with mem := mem } := by
        unfold handleEvent
        dsimp only
        split <;> rfl
      rw [handleEvents, List.foldl_cons, hone]
      exact ih (handleEvent s e)

theorem lastVal_append (xs ys : List Event) (addr : BitVec 64) :
    lastVal (xs ++ ys) addr = (lastVal xs addr <|> lastVal ys addr) := by
  simp only [lastVal, List.find?_append]
  cases xs.find? fun e => e.addr = addr <;> simp

theorem handleEvents_window {s : RunState} (hopen : s.cfvStart = true) (events : List Event) :
    (handleEvents s events).window = events.reverse ++ s.window := by
  induction events generalizing s with
  | nil => rfl
  | cons e events ih =>
      have hstart : (handleEvent s e).cfvStart = true := by simp [handleEvent, hopen]
      have hone : (handleEvent s e).window = e :: s.window := by simp [handleEvent, hopen]
      have hrest : (handleEvents s (e :: events)).window
          = events.reverse ++ (handleEvent s e).window := ih hstart
      rw [hrest, hone]
      simp

/-- With the window open, a load is flagged unless its value is the last
one. -/
theorem handleEvents_flagged_iff {s : RunState} {addr val : BitVec 64} {events : List Event}
    (hopen : s.cfvStart = true) (hsame : Same addr val events)
    (huse : ∀ e ∈ events, e.isUse = true) :
    (handleEvents s events).flagged = false ↔
      s.flagged = false ∧ (events ≠ [] → lastVal s.window addr = some val) := by
  constructor
  · intro h
    exact ⟨not_flagged_of_handleEvents h,
      fun hne => lastVal_of_not_flagged hopen hsame huse hne h⟩
  · rintro ⟨hf, hlast⟩
    rw [handleEvents_flagged hsame fun e he _ => hlast (List.ne_nil_of_mem he)]
    exact hf

section Detect

variable {p : Program} {sen : List Value} {c : Code} {l : Layout} {s s' : RunState} {a : Action}
  {past : List Action}

theorem exec_sent {self : Value} {env : Env} (h : act l c s (.exec self env) = .ok s') :
    ∃ mem, s' = { handleEvents s (sent c (.exec self env)) with mem := mem } := by
  simp only [act] at h
  split at h
  swap
  · cases h
  rename_i slot hs
  obtain ⟨mem, -, hret⟩ := bind_eq_ok.mp h
  obtain rfl := Except.ok.inj hret
  refine ⟨mem, ?_⟩
  simp only [sent, hs, List.filterMap_append, handleEvents_append, handleEvents_mem]

/-- The engine has on record what was last sent. -/
structure Keeping (c : Code) (past : List Action) (s : RunState) : Prop where
  opened : s.cfvStart = true ↔ WindowOpen past
  last : s.cfvStart = true → ∀ addr, lastVal s.window addr = lastSent c past addr

theorem keeping_step (h : Keeping c past s) (hact : act l c s a = .ok s') :
    Keeping c (past ++ [a]) s' := by
  cases a with
  | foreign addr bytes =>
      obtain rfl := Except.ok.inj hact
      refine ⟨by simpa [WindowOpen] using h.opened, fun hopen addr => ?_⟩
      rw [lastSent_concat]
      exact h.last hopen addr
  | cfvInit =>
      obtain rfl := Except.ok.inj hact
      refine ⟨by simp [WindowOpen], fun _ addr => ?_⟩
      rw [lastSent_concat]
      rfl
  | cfvQuote =>
      obtain rfl := Except.ok.inj hact
      exact ⟨by simp [WindowOpen], fun hopen => absurd hopen Bool.false_ne_true⟩
  | exec self env =>
      obtain ⟨mem, rfl⟩ := exec_sent hact
      obtain ⟨-, hstart⟩ := handleEvents_frame (sent c (.exec self env)) s
      refine ⟨by simpa [WindowOpen, hstart] using h.opened, fun hopen addr => ?_⟩
      have hopen' : s.cfvStart = true := hstart.symm.trans hopen
      show lastVal (handleEvents s _).window addr = _
      rw [handleEvents_window hopen', lastVal_append, h.last hopen', lastSent_concat]
      rfl

/-- A tracked load reads the last value of its address. -/
def ReadsLast (l : Layout) (c : Code) (sen : List Value) (last : BitVec 64 → Option (BitVec 64))
    (mem : Mem) (a : Action) : Prop :=
  ∀ acc, access? l c a = some acc → acc.isStore = false → acc.ptr ∈ sen → Handled acc.type →
    last acc.loc.addr = some (image (acc.loc.read mem))

/-- Only a load that is tracked, in an open window, can be flagged. -/
theorem flagged_step (hc : instrument p sen = some c) (hact : act l c s a = .ok s') :
    s'.flagged = false ↔ s.flagged = false ∧
      (s.cfvStart = true → ReadsLast l c sen (lastVal s.window) s.mem a) := by
  have hquiet : s'.flagged = s.flagged → (∀ acc, access? l c a = some acc → acc.isStore = true) →
      (s'.flagged = false ↔ s.flagged = false ∧
        (s.cfvStart = true → ReadsLast l c sen (lastVal s.window) s.mem a)) := by
    intro hsame hstores
    rw [hsame]
    refine (and_iff_left ?_).symm
    intro _ acc hacc hload
    rw [hstores acc hacc] at hload
    cases hload
  cases act_effect hc hact with
  | foreign addr bytes => exact hquiet rfl (by simp [access?])
  | cfvInit => exact hquiet rfl (by simp [access?])
  | cfvQuote => exact hquiet rfl (by simp [access?])
  | other hnone => exact hquiet rfl (by simp [hnone])
  | store hacc hstore _ _ hsends =>
      refine hquiet (handleEvents_flagged hsends.same fun e he huse => ?_) fun acc' hacc' => ?_
      · rw [hsends.isUse e he, hstore] at huse
        cases huse
      · obtain rfl := Option.some.inj (hacc.symm.trans hacc')
        exact hstore
  | @load _ _ acc events hacc hload hsends =>
      cases hopen : s.cfvStart with
      | false =>
          rw [handleEvents_closed hopen]
          exact (and_iff_left fun h => absurd h Bool.false_ne_true).symm
      | true =>
          have huse : ∀ e ∈ events, e.isUse = true := fun e he => by
            rw [hsends.isUse e he, hload]
            rfl
          rw [handleEvents_flagged_iff hopen hsends.same huse]
          refine and_congr_right fun _ => ⟨?_, ?_⟩
          · rintro hlast - acc' hacc' - hptr hhandled
            obtain rfl := Option.some.inj (hacc.symm.trans hacc')
            exact hlast (hsends.tracked hptr hhandled)
          · intro hreads hne
            exact hreads rfl acc hacc hload (hsends.ptr hne hload) (hsends.handled hne)

theorem run_keeping {mem : Mem} (hrun : foldRun (act l c) (start mem) past = .ok s) :
    Keeping c past s :=
  foldRun_inv ⟨by simp [start, WindowOpen], fun h => absurd h Bool.false_ne_true⟩
    (fun _ _ _ _ h hact => keeping_step h hact) hrun

/-- In any run, with any writes by code without hooks: nothing is flagged
exactly if each tracked load in an open window reads the value that was
last sent for its address in the window. -/
theorem flagged_iff (hc : instrument p sen = some c) {mem : Mem} {run : List Action}
    (hrun : foldRun (act l c) (start mem) run = .ok s) :
    s.flagged = false ↔
      ∀ past a rest s₁, run = past ++ a :: rest →
        foldRun (act l c) (start mem) past = .ok s₁ → WindowOpen past →
        ReadsLast l c sen (lastSent c past) s₁.mem a := by
  have hiff := (foldRun_iff (I := fun _ _ => True)
    (K := fun _ (s : RunState) => s.flagged = false)
    trivial rfl (fun _ _ _ _ _ hact => ⟨trivial, flagged_step hc hact⟩) hrun).2
  rw [hiff]
  refine forall₄_congr fun past a rest s₁ => imp_congr_right fun _ => ?_
  refine forall_congr' fun hpast => ?_
  have hkeep := run_keeping hpast
  show (s₁.cfvStart = true → ReadsLast l c sen (lastVal s₁.window) s₁.mem a) ↔ _
  rw [hkeep.opened]
  refine forall_congr' fun hopen => ?_
  rw [funext (hkeep.last (hkeep.opened.mpr hopen))]

theorem windowOpen_append {ys : List Action} (h : WindowOpen past) (hys : ∀ y ∈ ys, y ≠ .cfvQuote) :
    WindowOpen (past ++ ys) := by
  obtain ⟨before, x, after, rfl, hx, hafter⟩ := h
  refine ⟨before, x, after ++ ys, by simp, hx, fun y hy => ?_⟩
  rcases List.mem_append.mp hy with hy | hy
  · exact hafter y hy
  · exact hys y hy

/-- What does not send anything for the address leaves its last value. -/
theorem lastSent_append {addr : BitVec 64} {ys : List Action}
    (hys : ∀ y ∈ ys, y ≠ .cfvInit ∧ sentVal c addr y = none) :
    lastSent c (past ++ ys) addr = lastSent c past addr := by
  induction ys using List.reverseRecOn with
  | nil => rw [List.append_nil]
  | append_singleton ys y ih =>
      obtain ⟨hne, hnone⟩ := hys y (by simp)
      rw [← List.append_assoc, lastSent_concat,
        ih fun y hy => hys y (List.mem_append_left _ hy)]
      cases y with
      | cfvInit => exact absurd rfl hne
      | _ => simp [lastSentStep, hnone]

/-- What was sent for an address and then changed is not loaded unnoticed,
as long as nothing else is sent for the address in between. -/
theorem corruption_flagged (hc : instrument p sen = some c) {mem : Mem}
    {mid rest : List Action} {x a : Action} {acc : Access} {v : BitVec 64} {s₁ : RunState}
    (hrun : foldRun (act l c) (start mem) (past ++ x :: mid ++ a :: rest) = .ok s)
    (hopen : WindowOpen past) (hx : sentVal c acc.loc.addr x = some v)
    (hmid : ∀ y ∈ mid, y ≠ .cfvInit ∧ y ≠ .cfvQuote ∧ sentVal c acc.loc.addr y = none)
    (hacc : access? l c a = some acc) (hload : acc.isStore = false)
    (hptr : acc.ptr ∈ sen) (hhandled : Handled acc.type)
    (hbefore : foldRun (act l c) (start mem) (past ++ x :: mid) = .ok s₁)
    (hchanged : image (acc.loc.read s₁.mem) ≠ v) : s.flagged = true := by
  have hsends : ∀ b, sentVal c acc.loc.addr b = some v → b ≠ .cfvInit ∧ b ≠ .cfvQuote := by
    intro b hb
    constructor <;> rintro rfl <;> cases hb
  have hopen' : WindowOpen (past ++ x :: mid) := by
    refine windowOpen_append hopen fun y hy => ?_
    rcases List.mem_cons.mp hy with rfl | hy
    · exact (hsends y hx).2
    · exact (hmid y hy).2.1
  have hlast : lastSent c (past ++ x :: mid) acc.loc.addr = some v := by
    rw [← List.singleton_append, ← List.append_assoc,
      lastSent_append fun y hy => ⟨(hmid y hy).1, (hmid y hy).2.2⟩, lastSent_concat]
    cases x with
    | cfvInit => exact absurd rfl (hsends _ hx).1
    | _ => simp [lastSentStep, hx]
  by_contra hf
  have hreads := (flagged_iff hc hrun).mp (Bool.eq_false_iff.mpr hf) _ a rest s₁ rfl
    hbefore hopen' acc hacc hload hptr hhandled
  rw [hlast] at hreads
  exact hchanged (Option.some.inj hreads).symm

end Detect

/-- The variable is overwritten behind the back of the hooks, and used. -/
def overwrittenRun : List Action :=
  [.cfvInit, .exec (.inst "doKeyAction" 0) (stepIdxEnv 5), .foreign 4096 [7, 0, 0, 0],
    .exec (.inst "doKeyAction" 1) (stepIdxEnv 7)]

theorem corruption_flagged_overwritten :
    ∃ s, foldRun (act scalars useStepIdxCode) (start initialMem) overwrittenRun = .ok s ∧
      s.flagged = true := by
  have hc : instrument useStepIdx [stepIdx] = some useStepIdxCode := rfl
  have hopen : WindowOpen [.cfvInit] := ⟨[], .cfvInit, [], rfl, rfl, by simp⟩
  have hacc : access? scalars useStepIdxCode (.exec (.inst "doKeyAction" 1) (stepIdxEnv 7))
      = some ⟨false, .int 32, stepIdx, ⟨4096, 32⟩⟩ := rfl
  have hstored : sentVal useStepIdxCode 4096 (.exec (.inst "doKeyAction" 0) (stepIdxEnv 5))
      = some 5 := rfl
  have hsilent : ∀ y ∈ [Action.foreign 4096 [7, 0, 0, 0]], y ≠ .cfvInit ∧ y ≠ .cfvQuote ∧
      sentVal useStepIdxCode 4096 y = none := by
    intro y hy
    obtain rfl := List.mem_singleton.mp hy
    exact ⟨by simp, by simp, rfl⟩
  obtain ⟨s₁, hbefore, hread⟩ : ∃ s₁, foldRun (act scalars useStepIdxCode) (start initialMem)
      ([.cfvInit] ++ .exec (.inst "doKeyAction" 0) (stepIdxEnv 5) :: [.foreign 4096 [7, 0, 0, 0]])
        = .ok s₁ ∧ image (Loc.read s₁.mem ⟨4096, 32⟩) = 7 := ⟨_, rfl, by decide⟩
  obtain ⟨s, hrun⟩ : ∃ s, foldRun (act scalars useStepIdxCode) (start initialMem) overwrittenRun
      = .ok s := ⟨_, rfl⟩
  refine ⟨s, hrun, corruption_flagged hc hrun hopen hstored hsilent hacc rfl (by decide)
    ⟨.zExt, rfl⟩ hbefore ?_⟩
  rw [hread]
  decide

end Nova

end Oat
