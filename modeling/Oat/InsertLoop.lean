import Oat.StepRun

/-!
# Inserting into the list one iterates over

Two nested loops go over the items of the blocks of a function. The body
may insert items immediately before the one the inner iterator is at,
which stays at that item. A block under way is the items before the
iterator and those from it on.

`step_result` is what the loops come to; `ahead_subset` says that what is
still to be visited has always been there from the start.
-/

namespace Oat

namespace InsertLoop

/-- The blocks left behind, the one the outer iterator is at, and those
after it. -/
structure State (α : Type) where
  done : List (List α)
  block : Option (List α × List α)
  later : List (List α)
  changed : Bool

variable {α : Type}

def start (blocks : List (List α)) : State α := ⟨[], none, blocks, false⟩

/-- One turn of a loop. -/
def step (visit : α → Option (List α)) (s : State α) : State α :=
  match s.block with
  | some (before, a :: rest) =>
      match visit a with
      | some new => { s with block := some (before ++ new ++ [a], rest), changed := true }
      | none => { s with block := some (before ++ [a], rest) }
  | some (before, []) => { s with done := s.done ++ [before], block := none }
  | none =>
      match s.later with
      | block :: later => { s with block := some ([], block), later := later }
      | [] => s

/-- Both iterators are at their ends. -/
def State.Finished (s : State α) : Prop := s.block = none ∧ s.later = []

/-- The items still to be visited. -/
def State.ahead (s : State α) : List α := ((s.block.map Prod.snd).getD []) ++ s.later.flatten

variable (visit : α → Option (List α))

/-- Each item with what the body inserts before it. -/
def expand (block : List α) : List α := block.flatMap fun a => (visit a).getD [] ++ [a]

variable {visit}

theorem step_finished {s : State α} (h : s.Finished) : step visit s = s := by
  obtain ⟨done, block, later, changed⟩ := s
  obtain ⟨rfl, rfl⟩ := h
  rfl

/-- The inner loop, from any point of a block. -/
theorem inner_reaches (done later : List (List α)) (before rest : List α) (changed : Bool) :
    Reaches (step visit) ⟨done, some (before, rest), later, changed⟩
      ⟨done ++ [before ++ expand visit rest], none, later,
        changed || rest.any fun a => (visit a).isSome⟩ := by
  induction rest generalizing before changed with
  | nil =>
      have hleave : step visit ⟨done, some (before, []), later, changed⟩ =
          ⟨done ++ [before], none, later, changed⟩ := rfl
      apply Reaches.head
      rw [hleave]
      simpa [expand] using Reaches.refl _
  | cons a rest ih =>
      apply Reaches.head
      cases hvisit : visit a with
      | some new =>
          have hrest := ih (before ++ new ++ [a]) true
          simpa [step, hvisit, expand] using hrest
      | none =>
          have hrest := ih (before ++ [a]) changed
          simpa [step, hvisit, expand] using hrest

theorem outer_reaches (done later : List (List α)) (changed : Bool) :
    Reaches (step visit) ⟨done, none, later, changed⟩
      ⟨done ++ later.map (expand visit), none, [],
        changed || later.any fun block => block.any fun a => (visit a).isSome⟩ := by
  induction later generalizing done changed with
  | nil => simpa using Reaches.refl _
  | cons block later ih =>
      apply Reaches.head
      have hinner : Reaches (step visit) ⟨done, some ([], block), later, changed⟩ _ :=
        inner_reaches done later [] block changed
      have houter := ih (done ++ [expand visit block])
        (changed || block.any fun a => (visit a).isSome)
      have henter : step visit ⟨done, none, block :: later, changed⟩ =
          ⟨done, some ([], block), later, changed⟩ := rfl
      rw [henter]
      simpa [Bool.or_assoc] using hinner.trans houter

/-- The loops end, with each item where it was and the insertions before it. -/
theorem step_result (blocks : List (List α)) :
    Reaches (step visit) (start blocks)
      ⟨blocks.map (expand visit), none, [],
        blocks.any fun block => block.any fun a => (visit a).isSome⟩ := by
  simpa [start] using outer_reaches [] blocks false

theorem ahead_step (s : State α) : (step visit s).ahead ⊆ s.ahead := by
  obtain ⟨done, block, later, changed⟩ := s
  intro a ha
  match block, later with
  | some (before, b :: rest), later =>
      have hahead : (step visit ⟨done, some (before, b :: rest), later, changed⟩).ahead =
          rest ++ later.flatten := by
        unfold step
        dsimp only
        split <;> rfl
      rw [hahead] at ha
      exact List.mem_cons_of_mem _ ha
  | some (before, []), later => exact ha
  | none, block :: later => simpa [step, State.ahead] using ha
  | none, [] => exact ha

/-- What is inserted is never visited. -/
theorem ahead_subset (blocks : List (List α)) (n : Nat) :
    ((step visit)^[n] (start blocks)).ahead ⊆ blocks.flatten :=
  run_inv (I := fun s => s.ahead ⊆ blocks.flatten) (List.Subset.refl _)
    (fun s hs => List.Subset.trans (ahead_step s) hs) n

end InsertLoop

end Oat
