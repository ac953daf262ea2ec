import Oat.Brackets
import Oat.VeRun

/-!
# Calls and returns in the outfile

The `[bl]` and `[ret]` lines of the outfile are a bracket sequence, read
here off whatever the disassembler shows: `stack` holds the return
addresses of the calls that are pending in it (`Nested`). The two cases
of the dispatch that touch the stack write the line that goes with it
(`dispatch_brackets`); nothing else writes one.
-/

namespace Oat

namespace Ve

open A64 Oat.Bracket

variable {opts : Opts} {img : Image}

def Line.bracket? : Line → Option (Bracket Int Int)
  | .bl a _ => some (.opening a)
  | .ret _ t => some (.closing t)
  | _ => none

def brackets (lines : List Line) : List (Bracket Int Int) := lines.filterMap Line.bracket?

/-- A return goes to the instruction after the call. -/
def Returns (a t : Int) : Prop := t = a + 4

/-! ## One turn -/

/-- What a turn does to the stack and the outfile. -/
inductive Brackets (s s' : Replay) : Prop where
  | none (lines : List Line) (hofd : s'.ofd = s.ofd ++ lines) (hlines : brackets lines = [])
      (hstack : s'.stack = s.stack)
  | push (a t : Int) (hofd : s'.ofd = s.ofd ++ [.bl a t]) (hstack : s'.stack = (a + 4) :: s.stack)
  | pop (a t : Int) (hofd : s'.ofd = s.ofd ++ [.ret a t]) (hstack : s.stack = t :: s'.stack)

theorem Brackets.same {s s' : Replay} (hofd : s'.ofd = s.ofd) (hstack : s'.stack = s.stack) :
    Brackets s s' :=
  .none [] (by rw [hofd, List.append_nil]) rfl hstack

theorem Brackets.keeps_trans {s₁ s₂ s₃ : Replay} (hk : Keeps s₁ s₂) (h : Brackets s₂ s₃) :
    Brackets s₁ s₃ := by
  cases h with
  | none lines hofd hlines hstack =>
      exact .none lines (hk.ofd ▸ hofd) hlines (hstack.trans hk.stack)
  | push a t hofd hstack => exact .push a t (hk.ofd ▸ hofd) (hk.stack ▸ hstack)
  | pop a t hofd hstack => exact .pop a t (hk.ofd ▸ hofd) (hk.stack.symm.trans hstack)

theorem Brackets.trans_keeps {s₁ s₂ s₃ : Replay} (h : Brackets s₁ s₂) (hk : Keeps s₂ s₃) :
    Brackets s₁ s₃ := by
  cases h with
  | none lines hofd hlines hstack =>
      exact .none lines (hk.ofd.trans hofd) hlines (hk.stack.trans hstack)
  | push a t hofd hstack => exact .push a t (hk.ofd.trans hofd) (hk.stack.trans hstack)
  | pop a t hofd hstack => exact .pop a t (hk.ofd.trans hofd) (hk.stack ▸ hstack)

theorem branchOn_brackets (s : Replay) (res : BranchRes) (trace : ExecutionTrace)
    {line : Option Int → Line} (hline : ∀ t, (line t).bracket? = none) :
    Brackets s (branchOn s res trace line).2 := by
  unfold branchOn
  simp only
  split
  · exact .none [line (some res.target)] rfl (by simp [brackets, hline]) rfl
  · exact .none [line none] rfl (by simp [brackets, hline]) rfl

/-- The four handlers of the conditional branches, and `handle_branch`. -/
theorem handled_brackets {s s' : Replay} {flow : Flow}
    {handled : Except PyError (BranchRes × ExecutionTrace)} {line : Option Int → Line}
    (hline : ∀ t, (line t).bracket? = none)
    (h : (if s.replayStart then handled >>= fun r => .ok (branchOn s r.1 r.2 line)
      else .ok (.pass, s)) = .ok (flow, s')) : Brackets s s' := by
  split at h
  · obtain ⟨r, -, hret⟩ := bind_eq_ok.mp h
    obtain rfl := congrArg Prod.snd (Except.ok.inj hret)
    exact branchOn_brackets s r.1 r.2 hline
  · obtain rfl := congrArg Prod.snd (Except.ok.inj h)
    exact .same rfl rfl

theorem bl_brackets {i : CsInsn} {s s' : Replay} {flow : Flow} (hid : i.id = .bl)
    (h : dispatch opts i s = .ok (flow, s')) : Brackets s s' := by
  simp only [dispatch, hid] at h
  obtain ⟨start, -, h⟩ := bind_eq_ok.mp h
  split at h
  · obtain rfl := congrArg Prod.snd (Except.ok.inj h)
    exact .none [.start] rfl rfl rfl
  · obtain ⟨stop, -, h⟩ := bind_eq_ok.mp h
    generalize hs₁ : (if stop = true then { s with replayStop := true, replayStart := false }
      else s) = s₁ at h
    -- reaching the quote touches neither
    have hsame : s₁.ofd = s.ofd ∧ s₁.stack = s.stack := by
      subst hs₁
      split <;> exact ⟨rfl, rfl⟩
    split at h
    · obtain ⟨res, -, h⟩ := bind_eq_ok.mp h
      split at h
      · obtain rfl := congrArg Prod.snd (Except.ok.inj h)
        exact .push i.address res.target (congrArg (· ++ _) hsame.1) (congrArg (_ :: ·) hsame.2)
      · obtain rfl := congrArg Prod.snd (Except.ok.inj h)
        exact .none [.blSkip i.address] (congrArg (· ++ _) hsame.1) rfl hsame.2
    · obtain rfl := congrArg Prod.snd (Except.ok.inj h)
      exact .same hsame.1 hsame.2

theorem dispatch_brackets {i : CsInsn} {s s' : Replay} {flow : Flow}
    (h : dispatch opts i s = .ok (flow, s')) : Brackets s s' := by
  cases hid : i.id with
  | bl => exact bl_brackets hid h
  | cset =>
      simp only [dispatch, hid] at h
      split at h
      · obtain rfl := congrArg Prod.snd (Except.ok.inj h)
        exact .same rfl rfl
      · obtain rfl := congrArg Prod.snd (Except.ok.inj h)
        exact .same rfl rfl
  | b =>
      simp only [dispatch, hid] at h
      exact handled_brackets (fun _ => rfl) h
  | br =>
      simp only [dispatch, hid] at h
      obtain rfl := congrArg Prod.snd (Except.ok.inj h)
      split
      · exact .none [.br i.address] rfl rfl rfl
      · exact .same rfl rfl
  | blr =>
      simp only [dispatch, hid] at h
      obtain rfl := congrArg Prod.snd (Except.ok.inj h)
      split
      · exact .none [.blr i.address] rfl rfl rfl
      · exact .same rfl rfl
  | ret =>
      simp only [dispatch, hid] at h
      split at h
      · split at h
        · cases h
        · rename_i t stack hstack
          obtain rfl := congrArg Prod.snd (Except.ok.inj h)
          exact .pop i.address t rfl hstack
      · obtain rfl := congrArg Prod.snd (Except.ok.inj h)
        exact .same rfl rfl
  | tbz =>
      simp only [dispatch, hid] at h
      exact handled_brackets (fun _ => rfl) h
  | tbnz =>
      simp only [dispatch, hid] at h
      exact handled_brackets (fun _ => rfl) h
  | cbnz =>
      simp only [dispatch, hid] at h
      exact handled_brackets (fun _ => rfl) h
  | cbz =>
      simp only [dispatch, hid] at h
      exact handled_brackets (fun _ => rfl) h
  | other =>
      simp only [dispatch, hid] at h
      obtain rfl := congrArg Prod.snd (Except.ok.inj h)
      exact .same rfl rfl

variable (opts img) in
/-- **Step**: a turn keeps the stack and the brackets of the outfile in
step, whatever it does. -/
theorem step_brackets (c : Conf) : Brackets c.vars (step opts img c).vars := by
  unfold step
  split
  · dsimp only
    split <;> exact .same rfl rfl
  · rename_i g hmode
    split
    · exact (Brackets.same rfl rfl).trans_keeps (afterFor_keeps c.vars)
    · rename_i i hi
      have hbody : ∀ b s', forBody opts i c.vars = .ok (b, s') → Brackets c.vars s' := by
        intro b s' h
        unfold forBody at h
        simp only at h
        split at h
        · obtain rfl := congrArg Prod.snd (Except.ok.inj h)
          exact .same rfl rfl
        · split at h
          · obtain rfl := congrArg Prod.snd (Except.ok.inj h)
            exact .same rfl rfl
          · obtain ⟨⟨flow, s₁⟩, hdispatch, hret⟩ := bind_eq_ok.mp h
            have hb := (dispatch_brackets hdispatch).keeps_trans
              (move_keeps c.vars (some i.address) i.address)
            cases flow <;>
            · obtain rfl := congrArg Prod.snd (Except.ok.inj hret)
              exact hb
      split
      · exact .same rfl rfl
      · rename_i s' h
        exact (hbody true s' h).trans_keeps (afterFor_keeps s')
      · rename_i s' h
        exact hbody false s' h
  · exact .same rfl rfl
  · exact .same rfl rfl

/-! ## Runs -/

/-- The stack holds the return addresses of the calls that are pending in
the outfile. -/
def Nested (s : Replay) : Prop :=
  ∃ calls, Pends Returns (brackets s.ofd) calls ∧ s.stack = calls.map (· + 4)

theorem brackets_concat (lines : List Line) (l : Line) :
    brackets (lines ++ [l]) = brackets lines ++ (l.bracket?).toList := by
  rw [brackets, List.filterMap_append]
  cases h : l.bracket? <;> simp [brackets, h]

theorem Nested.step {s s' : Replay} (hn : Nested s) (h : Brackets s s') : Nested s' := by
  obtain ⟨calls, hpends, hstack⟩ := hn
  cases h with
  | none lines hofd hlines hstack' =>
      refine ⟨calls, ?_, hstack'.trans hstack⟩
      have hsame : brackets s'.ofd = brackets s.ofd := by
        rw [hofd, brackets, List.filterMap_append]
        exact (congrArg (_ ++ ·) hlines).trans (List.append_nil _)
      rw [hsame]
      exact hpends
  | push a t hofd hstack' =>
      refine ⟨a :: calls, ?_, by rw [hstack', hstack, List.map_cons]⟩
      rw [hofd, brackets_concat]
      exact .opening a hpends
  | pop a t hofd hstack' =>
      rw [hstack'] at hstack
      obtain ⟨call, calls, rfl, rfl, hrest⟩ := List.map_eq_cons_iff.mp hstack.symm
      refine ⟨calls, ?_, hrest.symm⟩
      rw [hofd, brackets_concat]
      exact .closing hpends rfl

/-- The lines of a run so far, and the line of the next turn: they begin
a balanced sequence, a skipped call leaves the stack alone, and a return
closes a call that is pending. -/
structure WellNested (opts : Opts) (img : Image) (c : Conf) : Prop where
  nested : ∃ rest, Balanced Returns (brackets c.vars.ofd ++ rest)
  skips : ∀ a, (step opts img c).vars.ofd = c.vars.ofd ++ [.blSkip a] →
    (step opts img c).vars.stack = c.vars.stack
  returns : ∀ a t, (step opts img c).vars.ofd = c.vars.ofd ++ [.ret a t] →
    ∃ call calls, Pends Returns (brackets c.vars.ofd) (call :: calls) ∧ t = call + 4

theorem Nested.wellNested {c : Conf} (h : Nested c.vars) : WellNested opts img c := by
  obtain ⟨calls, hpends, hstack⟩ := h
  have hturn := step_brackets opts img c
  refine ⟨hpends.balanced fun a => ⟨a + 4, rfl⟩, ?_, ?_⟩
  · intro a hofd
    cases hturn with
    | none lines _ _ hstack' => exact hstack'
    | push a' t hofd' _ => simp [hofd'] at hofd
    | pop a' t hofd' _ => simp [hofd'] at hofd
  · intro a t hofd
    cases hturn with
    | none lines hofd' hlines _ =>
        obtain rfl := List.append_cancel_left (hofd'.symm.trans hofd)
        cases hlines
    | push a' t' hofd' _ => simp [hofd'] at hofd
    | pop a' t' hofd' hstack' =>
        obtain ⟨rfl, rfl⟩ : a' = a ∧ t' = t := by simpa [hofd'] using hofd
        rw [hstack'] at hstack
        obtain ⟨call, calls, rfl, rfl, -⟩ := List.map_eq_cons_iff.mp hstack.symm
        exact ⟨call, calls, hpends, rfl⟩

/-- **Run**: whatever the text and the trace, calls and returns are well
nested in what `hookit` has written after any number of turns. -/
theorem calls_nest (opts : Opts) (img : Image) (file : List UInt8) {c₀ : Conf}
    (h : hookitStart opts img file = .ok c₀) (n : Nat) :
    WellNested opts img ((step opts img)^[n] c₀) := by
  obtain ⟨-, symbols, rfl⟩ := hookitStart_ok h
  have h0 : Nested (Replay.init ⟨0, symbols⟩ opts.textStart) := ⟨[], .nil, rfl⟩
  have hrun := run_inv (I := fun c : Conf => Nested c.vars)
    (a := ⟨Replay.init ⟨0, symbols⟩ opts.textStart, .outer⟩) h0
    (fun c hc => hc.step (step_brackets opts img c)) n
  exact hrun.wellNested

/-- A call of a function that returns at once. -/
def callReturn : List Insn :=
  [blTo 0x1000 0x800, blTo 0x1004 0x100c, blTo 0x1008 0x900, .ret lr]

theorem calls_nest_callReturn :
    ((step (sampleOpts 4) (imageOf 0x1000 callReturn))^[7] (sampleStart [symY])).vars.ofd
        = [.start, .bl 0x1004 0x100c, .ret 0x100c 0x1008] ∧
      WellNested (sampleOpts 4) (imageOf 0x1000 callReturn)
        ((step (sampleOpts 4) (imageOf 0x1000 callReturn))^[7] (sampleStart [symY])) :=
  ⟨by decide +kernel, calls_nest _ _ [symY] rfl 7⟩

end Ve

end Oat
