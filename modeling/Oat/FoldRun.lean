import Mathlib.Data.List.Basic

/-!
# Runs of a fallible step function

A run over a list of inputs is `List.foldlM` in `Except`: the fold stops
at the first input whose step fails. Five rules cover what a
development needs about such runs:

- `foldRun_inv`: an invariant indexed by the inputs consumed so far,
  kept by every successful step, holds at the end of a successful run;
- `foldRun_total`: when moreover every step succeeds under the
  invariant, the run succeeds;
- `foldRun_split`: a successful run passes through a successful run of
  each of its prefixes;
- `EachStep.imp`: what holds of each step under an invariant, when the
  steps of a run (which may fail) are known to meet a condition, and
  `EachStep.congr` for two conditions that are the same there;
- `foldRun_iff`: when each step keeps a property exactly if it meets a
  condition, a run has kept it exactly if each of its steps has met the
  condition.

Steps in `Option` have `foldlM_rel` and `foldlM_total`; `foldRun_sim` is
the simulation rule, for a machine that follows another one.

The invariant is indexed by the *prefix* (not by the inputs left), so
that it can say what the state has recorded of its history; `Since` is
for what a prefix itself says.
-/

namespace Oat

variable {ε σ α : Type}

def foldRun (step : σ → α → Except ε σ) (s : σ) (xs : List α) : Except ε σ :=
  xs.foldlM step s

variable {step : σ → α → Except ε σ}

@[simp] theorem foldRun_nil (s : σ) : foldRun step s [] = .ok s := rfl

theorem foldRun_cons (s : σ) (x : α) (xs : List α) :
    foldRun step s (x :: xs) = step s x >>= fun s' => foldRun step s' xs := rfl

theorem bind_eq_ok {β γ : Type} {r : Except ε β} {f : β → Except ε γ} {c : γ} :
    (r >>= f) = .ok c ↔ ∃ b, r = .ok b ∧ f b = .ok c := by
  cases r with
  | error e => simp [bind, Except.bind]
  | ok b => simp [bind, Except.bind]

theorem foldRun_cons_ok {s s' : σ} {x : α} {xs : List α} :
    foldRun step s (x :: xs) = .ok s' ↔
      ∃ s₁, step s x = .ok s₁ ∧ foldRun step s₁ xs = .ok s' := by
  rw [foldRun_cons, bind_eq_ok]

theorem foldRun_append_ok {s s' : σ} {xs ys : List α} :
    foldRun step s (xs ++ ys) = .ok s' ↔
      ∃ s₁, foldRun step s xs = .ok s₁ ∧ foldRun step s₁ ys = .ok s' := by
  induction xs generalizing s with
  | nil => simp
  | cons x xs ih =>
      simp only [List.cons_append, foldRun_cons_ok, ih]
      constructor
      · rintro ⟨s₁, hx, s₂, hxs, hys⟩
        exact ⟨s₂, ⟨s₁, hx, hxs⟩, hys⟩
      · rintro ⟨s₂, ⟨s₁, hx, hxs⟩, hys⟩
        exact ⟨s₁, hx, s₂, hxs, hys⟩

/-- A successful run passes through the state after each prefix, takes
the next input there, and goes on. -/
theorem foldRun_split {s s' : σ} {pre post : List α} {x : α}
    (h : foldRun step s (pre ++ x :: post) = .ok s') :
    ∃ s₁ s₂, foldRun step s pre = .ok s₁ ∧ step s₁ x = .ok s₂
      ∧ foldRun step s₂ post = .ok s' := by
  obtain ⟨s₁, hpre, hrest⟩ := foldRun_append_ok.mp h
  obtain ⟨s₂, hx, hpost⟩ := foldRun_cons_ok.mp hrest
  exact ⟨s₁, s₂, hpre, hx, hpost⟩

/-! ## Invariants -/

/-- Generalised core of `foldRun_inv`: the run starts after `done`. -/
theorem foldRun_inv_from {I : List α → σ → Prop}
    (hstep : ∀ pre x s s', I pre s → step s x = .ok s' → I (pre ++ [x]) s')
    (xs done : List α) {s s' : σ} (h0 : I done s) (h : foldRun step s xs = .ok s') :
    I (done ++ xs) s' := by
  induction xs generalizing done s with
  | nil =>
      obtain rfl := Except.ok.inj h
      simpa using h0
  | cons x xs ih =>
      obtain ⟨s₁, hx, hxs⟩ := foldRun_cons_ok.mp h
      have hdone : I (done ++ [x]) s₁ := hstep done x s s₁ h0 hx
      simpa using ih (done ++ [x]) hdone hxs

theorem foldRun_inv {I : List α → σ → Prop} {s s' : σ} {xs : List α}
    (h0 : I [] s)
    (hstep : ∀ pre x s s', I pre s → step s x = .ok s' → I (pre ++ [x]) s')
    (h : foldRun step s xs = .ok s') : I xs s' := by
  simpa using foldRun_inv_from hstep xs [] h0 h

/-- When every step succeeds from a state that meets `J`, and keeps
`J`, the run succeeds. -/
theorem foldRun_total {J : σ → Prop}
    (hstep : ∀ x s, J s → ∃ s', step s x = .ok s' ∧ J s') (xs : List α) {s : σ} (h0 : J s) :
    ∃ s', foldRun step s xs = .ok s' ∧ J s' := by
  induction xs generalizing s with
  | nil => exact ⟨s, rfl, h0⟩
  | cons x xs ih =>
      obtain ⟨s₁, hx, h1⟩ := hstep x s h0
      obtain ⟨s', hxs, h'⟩ := ih h1
      exact ⟨s', foldRun_cons_ok.mpr ⟨s₁, hx, hxs⟩, h'⟩

/-! ## Conditions on the steps of a run -/

/-- `C` holds of every input the run gets to, at the state that meets
it. -/
def EachStep (step : σ → α → Except ε σ) (C : σ → α → Prop) (s : σ) (xs : List α) : Prop :=
  ∀ pre x post s₁, xs = pre ++ x :: post → foldRun step s pre = .ok s₁ → C s₁ x

variable {C D : σ → α → Prop}

theorem eachStep_nil (s : σ) : EachStep step C s [] := by
  rintro (_ | _) x post s₁ h
  · cases h
  · cases h

theorem eachStep_cons {s : σ} {x : α} {xs : List α} :
    EachStep step C s (x :: xs) ↔ C s x ∧ ∀ s₁, step s x = .ok s₁ → EachStep step C s₁ xs := by
  constructor
  · intro h
    refine ⟨h [] x xs s rfl rfl, ?_⟩
    intro s₁ hx pre y post s₂ hxs hpre
    exact h (x :: pre) y post s₂ (by rw [hxs]; rfl) (foldRun_cons_ok.mpr ⟨s₁, hx, hpre⟩)
  · rintro ⟨hx, hxs⟩ (_ | ⟨y, pre⟩) z post s₁ hsplit hpre
    · obtain ⟨rfl, rfl⟩ := List.cons.inj hsplit
      obtain rfl := Except.ok.inj hpre
      exact hx
    · obtain ⟨rfl, rfl⟩ := List.cons.inj hsplit
      obtain ⟨s₂, hy, hrest⟩ := foldRun_cons_ok.mp hpre
      exact hxs s₂ hy pre z post s₁ rfl hrest

/-- An invariant that steps keep as long as they meet `C` turns `C` at
every step into what it gives, under the invariant, at every step. -/
theorem EachStep.imp {J : σ → Prop}
    (hstep : ∀ x s s', J s → C s x → step s x = .ok s' → J s')
    (hD : ∀ x s, J s → C s x → D s x) (xs : List α) {s : σ} (hJ : J s)
    (h : EachStep step C s xs) : EachStep step D s xs := by
  induction xs generalizing s with
  | nil => exact eachStep_nil s
  | cons x xs ih =>
      obtain ⟨hx, hxs⟩ := eachStep_cons.mp h
      refine eachStep_cons.mpr ⟨hD x s hJ hx, ?_⟩
      intro s₁ h₁
      exact ih (hstep x s s₁ hJ hx h₁) (hxs s₁ h₁)

/-- Two conditions that are the same under an invariant, on the inputs of
a run. -/
theorem EachStep.congr {J : σ → Prop} {xs : List α}
    (hstep : ∀ x ∈ xs, ∀ s s', J s → C s x → step s x = .ok s' → J s')
    (hiff : ∀ x ∈ xs, ∀ s, J s → (C s x ↔ D s x)) {s : σ} (hJ : J s) :
    EachStep step C s xs ↔ EachStep step D s xs := by
  induction xs generalizing s with
  | nil => exact iff_of_true (eachStep_nil s) (eachStep_nil s)
  | cons x xs ih =>
      have hx : x ∈ x :: xs := List.mem_cons_self
      rw [eachStep_cons, eachStep_cons, ← hiff x hx s hJ]
      refine and_congr_right fun hC => forall_congr' fun s₁ => imp_congr_right fun h₁ => ?_
      exact ih (fun y hy => hstep y (List.mem_cons_of_mem x hy))
        (fun y hy => hiff y (List.mem_cons_of_mem x hy)) (hstep x hx s s₁ hJ hC h₁)

theorem eachStep_concat {s s₁ : σ} {x : α} {xs : List α} (h : foldRun step s xs = .ok s₁) :
    EachStep step C s (xs ++ [x]) ↔ EachStep step C s xs ∧ C s₁ x := by
  induction xs generalizing s with
  | nil =>
      obtain rfl := Except.ok.inj h
      rw [List.nil_append, eachStep_cons]
      exact ⟨fun hx => ⟨eachStep_nil s, hx.1⟩, fun hx => ⟨hx.2, fun s₂ _ => eachStep_nil s₂⟩⟩
  | cons y xs ih =>
      obtain ⟨s₂, hy, hxs⟩ := foldRun_cons_ok.mp h
      rw [List.cons_append, eachStep_cons, eachStep_cons]
      constructor
      · rintro ⟨hC, hrest⟩
        obtain ⟨hxs', hx⟩ := (ih hxs).mp (hrest s₂ hy)
        refine ⟨⟨hC, fun s₃ h₃ => ?_⟩, hx⟩
        obtain rfl := Except.ok.inj (hy.symm.trans h₃)
        exact hxs'
      · rintro ⟨⟨hC, hrest⟩, hx⟩
        refine ⟨hC, fun s₃ h₃ => ?_⟩
        obtain rfl := Except.ok.inj (hy.symm.trans h₃)
        exact (ih hxs).mpr ⟨hrest s₂ hy, hx⟩

/-- `I` is an invariant under which a step keeps `K` exactly if it meets
`C`. -/
theorem foldRun_iff {I K : List α → σ → Prop} {s s' : σ} {xs : List α} (hI : I [] s) (hK : K [] s)
    (hstep : ∀ pre x s₁ s₂, I pre s₁ → step s₁ x = .ok s₂ →
      I (pre ++ [x]) s₂ ∧ (K (pre ++ [x]) s₂ ↔ K pre s₁ ∧ C s₁ x))
    (h : foldRun step s xs = .ok s') : I xs s' ∧ (K xs s' ↔ EachStep step C s xs) := by
  have hall : foldRun step s xs = .ok s' ∧ I xs s' ∧ (K xs s' ↔ EachStep step C s xs) := by
    refine foldRun_inv (I := fun pre s₁ => foldRun step s pre = .ok s₁ ∧ I pre s₁
      ∧ (K pre s₁ ↔ EachStep step C s pre)) ⟨rfl, hI, fun _ => eachStep_nil s, fun _ => hK⟩ ?_ h
    rintro pre x s₁ s₂ ⟨hrun, hinv, hiff⟩ hx
    obtain ⟨hinv', hiff'⟩ := hstep pre x s₁ s₂ hinv hx
    refine ⟨foldRun_append_ok.mpr ⟨s₁, hrun, foldRun_cons_ok.mpr ⟨s₂, hx, rfl⟩⟩, hinv', ?_⟩
    rw [hiff', hiff, eachStep_concat hrun]
  exact hall.2

/-! ## Steps that may have no result -/

section Option

variable {β : Type} {step : σ → α → Option σ} {xs : List α} {s s' : σ}

theorem foldlM_flatMap (step : σ → β → Option σ) (l : α → List β) (s : σ) (xs : List α) :
    (xs.flatMap l).foldlM step s = xs.foldlM (fun s a => (l a).foldlM step s) s := by
  induction xs generalizing s with
  | nil => rfl
  | cons a xs ih => simp only [List.flatMap_cons, List.foldlM_append, List.foldlM_cons, ih]

theorem foldlM_congr {step' : σ → α → Option σ} (h : ∀ x ∈ xs, ∀ s, step s x = step' s x) (s : σ) :
    xs.foldlM step s = xs.foldlM step' s := by
  induction xs generalizing s with
  | nil => rfl
  | cons x xs ih =>
      rw [List.foldlM_cons, List.foldlM_cons, h x (List.mem_cons_self ..)]
      congr 1
      funext s₁
      exact ih (fun y hy => h y (List.mem_cons_of_mem _ hy)) s₁

/-- What each step may change, the run may change. -/
theorem foldlM_rel {R : σ → σ → Prop} (hrefl : ∀ s, R s s)
    (htrans : ∀ a b c, R a b → R b c → R a c)
    (hstep : ∀ x ∈ xs, ∀ s s', step s x = some s' → R s s') (h : xs.foldlM step s = some s') :
    R s s' := by
  induction xs generalizing s with
  | nil =>
      cases h
      exact hrefl _
  | cons x xs ih =>
      rw [List.foldlM_cons] at h
      obtain ⟨s₁, hs₁, hrest⟩ := Option.bind_eq_some_iff.mp h
      exact htrans _ _ _ (hstep x (List.mem_cons_self ..) s s₁ hs₁)
        (ih (fun y hy => hstep y (List.mem_cons_of_mem _ hy)) hrest)

theorem foldlM_total {J : σ → Prop} (hstep : ∀ x ∈ xs, ∀ s, J s → ∃ s', step s x = some s' ∧ J s')
    (h0 : J s) : ∃ s', xs.foldlM step s = some s' ∧ J s' := by
  induction xs generalizing s with
  | nil => exact ⟨s, rfl, h0⟩
  | cons x xs ih =>
      obtain ⟨s₁, hs₁, h1⟩ := hstep x (List.mem_cons_self ..) s h0
      obtain ⟨s', hs', h'⟩ := ih (fun y hy => hstep y (List.mem_cons_of_mem _ hy)) h1
      exact ⟨s', by rw [List.foldlM_cons, hs₁]; exact hs', h'⟩

end Option

/-- A run that another machine can follow step by step, where the first
one has a result. -/
theorem foldRun_sim {τ : Type} {spec : τ → α → Option τ} {R : τ → σ → Prop}
    (hstep : ∀ x a a' s, R a s → spec a x = some a' → ∃ s', step s x = .ok s' ∧ R a' s')
    {xs : List α} {a a' : τ} {s : σ} (h0 : R a s) (h : xs.foldlM spec a = some a') :
    ∃ s', foldRun step s xs = .ok s' ∧ R a' s' := by
  induction xs generalizing a s with
  | nil =>
      cases h
      exact ⟨s, rfl, h0⟩
  | cons x xs ih =>
      rw [List.foldlM_cons] at h
      obtain ⟨a₁, ha₁, hrest⟩ := Option.bind_eq_some_iff.mp h
      obtain ⟨s₁, hs₁, h1⟩ := hstep x a a₁ s h0 ha₁
      obtain ⟨s', hs', h'⟩ := ih h1 hrest
      exact ⟨s', foldRun_cons_ok.mpr ⟨s₁, hs₁, hs'⟩, h'⟩

/-! ## What a history says -/

/-- `P` was the case once, and `Q` ever since. -/
def Since (P Q : α → Prop) (past : List α) : Prop :=
  ∃ before x after, past = before ++ x :: after ∧ P x ∧ ∀ y ∈ after, Q y

@[simp] theorem not_since_nil (P Q : α → Prop) : ¬ Since P Q [] := by
  rintro ⟨before, x, after, h, -⟩
  exact absurd h (by simp)

@[simp] theorem since_concat {P Q : α → Prop} {past : List α} {a : α} :
    Since P Q (past ++ [a]) ↔ P a ∨ Q a ∧ Since P Q past := by
  constructor
  · rintro ⟨before, x, after, h, hx, hafter⟩
    rcases List.eq_nil_or_concat' after with rfl | ⟨after, b, rfl⟩
    · obtain ⟨-, rfl⟩ := List.append_inj' h rfl |>.imp id List.singleton_inj.mp
      exact .inl hx
    · rw [← List.cons_append, ← List.append_assoc] at h
      obtain ⟨rfl, hb⟩ := List.append_inj' h rfl
      obtain rfl := List.singleton_inj.mp hb
      exact .inr ⟨hafter a (by simp), before, x, after, rfl, hx,
        fun y hy => hafter y (List.mem_append_left _ hy)⟩
  · rintro (ha | ⟨ha, before, x, after, rfl, hx, hafter⟩)
    · exact ⟨past, a, [], rfl, ha, fun y hy => nomatch hy⟩
    · refine ⟨before, x, after ++ [a], by simp, hx, fun y hy => ?_⟩
      rcases List.mem_append.mp hy with hy | hy
      · exact hafter y hy
      · obtain rfl := List.mem_singleton.mp hy
        exact ha

end Oat
