import Mathlib.Data.List.Basic

/-!
# Bracket sequences

Openings and closings that carry a value each, and a relation that says
which closing may close which opening. `Pends` reads a sequence from the
left and keeps the openings that are still pending, the last one first;
whatever it can read is the beginning of a balanced sequence, as long as
every opening has a closing (`Pends.balanced`).
-/

namespace Oat

inductive Bracket (α β : Type*) where
  | opening (a : α)
  | closing (b : β)

namespace Bracket

variable {α β : Type*} (R : α → β → Prop)

inductive Balanced : List (Bracket α β) → Prop where
  | nil : Balanced []
  | wrap {a b xs ys} : R a b → Balanced xs → Balanced ys →
      Balanced (.opening a :: xs ++ .closing b :: ys)

/-- The openings a sequence leaves pending. -/
inductive Pends : List (Bracket α β) → List α → Prop where
  | nil : Pends [] []
  | opening {xs st} (a) : Pends xs st → Pends (xs ++ [.opening a]) (a :: st)
  | closing {xs a b st} : Pends xs (a :: st) → R a b → Pends (xs ++ [.closing b]) st

/-- A sequence that closes pending openings, and is balanced otherwise. -/
inductive Closes : List α → List (Bracket α β) → Prop where
  | nil {ys} : Balanced R ys → Closes [] ys
  | cons {a b st ys zs} : Balanced R ys → R a b → Closes st zs →
      Closes (a :: st) (ys ++ .closing b :: zs)

variable {R}

theorem Balanced.append {xs ys : List (Bracket α β)} (hx : Balanced R xs) (hy : Balanced R ys) :
    Balanced R (xs ++ ys) := by
  induction hx with
  | nil => exact hy
  | wrap hab hxs _ _ ih =>
      rw [List.append_assoc, List.cons_append]
      exact .wrap hab hxs ih

theorem Closes.prepend {st : List α} {xs ys : List (Bracket α β)} (hx : Balanced R xs)
    (h : Closes R st ys) : Closes R st (xs ++ ys) := by
  cases h with
  | nil hy => exact .nil (hx.append hy)
  | cons hy hab hzs =>
      rw [← List.append_assoc]
      exact .cons (hx.append hy) hab hzs

theorem Pends.closes {xs ys : List (Bracket α β)} {st : List α} (h : Pends R xs st)
    (hy : Closes R st ys) : Balanced R (xs ++ ys) := by
  induction h generalizing ys with
  | nil =>
      cases hy with
      | nil hy => exact hy
  | opening a _ ih =>
      cases hy with
      | cons hbal hab hzs =>
          -- the opening is closed by the first closing
          have hpair := Balanced.wrap hab hbal .nil
          have hclose := ih (hzs.prepend hpair)
          simpa using hclose
  | closing _ hab ih =>
      have hclose := ih (.cons .nil hab hy)
      simpa using hclose

/-- What has been read can be completed to a balanced sequence. -/
theorem Pends.balanced {xs : List (Bracket α β)} {st : List α} (h : Pends R xs st)
    (hR : ∀ a, ∃ b, R a b) : ∃ ys, Balanced R (xs ++ ys) := by
  have hcloses : ∀ st : List α, ∃ ys, Closes R st ys := by
    intro st
    induction st with
    | nil => exact ⟨[], .nil .nil⟩
    | cons a st ih =>
        obtain ⟨b, hab⟩ := hR a
        obtain ⟨zs, hzs⟩ := ih
        exact ⟨_, .cons .nil hab hzs⟩
  obtain ⟨ys, hys⟩ := hcloses st
  exact ⟨ys, h.closes hys⟩

end Bracket

end Oat
