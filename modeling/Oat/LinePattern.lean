import Oat.TextLines

/-!
# Patterns of a line

Regular expressions of one shape: classes of bytes one behind the other,
each with how often it comes, one of them a group, up to the end of the
line. `matchLine` searches with backtracking, as `re.match` does, and
returns the group; `Fits` says what it is to match.

`matchLine_iff`: where each repeated class is followed by one that it has
no byte in common with, the two agree.
-/

namespace Oat

namespace LinePattern

/-- `[..]`, `[..]+`, `[..]?` and `([..]{n})`. -/
inductive Piece where
  | one (p : UInt8 → Bool)
  | many (p : UInt8 → Bool)
  | maybe (p : UInt8 → Bool)
  | group (n : Nat) (p : UInt8 → Bool)

/-- The bytes themselves. -/
def literal (bs : List UInt8) : List Piece := bs.map fun b => .one (· == b)

/-! ## The search -/

/-- The longest repetition behind which the rest goes on. -/
def matchMany (p : UInt8 → Bool) (rest : List UInt8 → Option (List UInt8)) :
    List UInt8 → Option (List UInt8)
  | [] => none
  | b :: bs => if p b then (matchMany p rest bs).or (rest bs) else none

/-- `g` is the group so far. -/
def matchFrom : List Piece → List UInt8 → List UInt8 → Option (List UInt8)
  | [], g, bs => if bs = [] ∨ bs = [newline] then some g else none
  | .one p :: ps, g, bs =>
      match bs with
      | [] => none
      | b :: bs => if p b then matchFrom ps g bs else none
  | .many p :: ps, g, bs => matchMany p (matchFrom ps g) bs
  | .maybe p :: ps, g, bs =>
      match bs with
      | [] => matchFrom ps g []
      | b :: rest =>
          if p b then (matchFrom ps g rest).or (matchFrom ps g (b :: rest))
          else matchFrom ps g (b :: rest)
  | .group n p :: ps, _, bs =>
      if n ≤ bs.length ∧ (bs.take n).all p then matchFrom ps (bs.take n) (bs.drop n) else none

/-- `re.match(..).group(1)`. -/
def matchLine (ps : List Piece) (line : List UInt8) : Option (List UInt8) := matchFrom ps [] line

/-! ## What it is to match -/

/-- From the group so far to the group at the end. -/
inductive Fits : List Piece → List UInt8 → List UInt8 → List UInt8 → Prop where
  | done {g : List UInt8} : Fits [] g [] g
  | newline {g : List UInt8} : Fits [] g [newline] g
  | one {p : UInt8 → Bool} {ps : List Piece} {g bs g' : List UInt8} {b : UInt8} (hb : p b = true)
      (h : Fits ps g bs g') : Fits (.one p :: ps) g (b :: bs) g'
  | many {p : UInt8 → Bool} {ps : List Piece} {g bs g' : List UInt8} {b : UInt8} (hb : p b = true)
      (h : Fits (.many p :: ps) g bs g') : Fits (.many p :: ps) g (b :: bs) g'
  | last {p : UInt8 → Bool} {ps : List Piece} {g bs g' : List UInt8} {b : UInt8} (hb : p b = true)
      (h : Fits ps g bs g') : Fits (.many p :: ps) g (b :: bs) g'
  | some {p : UInt8 → Bool} {ps : List Piece} {g bs g' : List UInt8} {b : UInt8} (hb : p b = true)
      (h : Fits ps g bs g') : Fits (.maybe p :: ps) g (b :: bs) g'
  | none {p : UInt8 → Bool} {ps : List Piece} {g bs g' : List UInt8}
      (h : Fits ps g bs g') : Fits (.maybe p :: ps) g bs g'
  | group {p : UInt8 → Bool} {ps : List Piece} {g digits bs g' : List UInt8}
      (hall : ∀ b ∈ digits, p b = true) (h : Fits ps digits bs g') :
      Fits (.group digits.length p :: ps) g (digits ++ bs) g'

/-- What the pattern begins with has no byte of the class. -/
def Apart (p : UInt8 → Bool) : List Piece → Prop
  | [] => p newline = false
  | .one q :: _ | .many q :: _ => ∀ b, p b = true → q b = false
  | .group n q :: _ => 0 < n ∧ ∀ b, p b = true → q b = false
  | .maybe _ :: _ => False

/-- A repetition ends where the next piece begins; what may be there or
not is at the end. -/
def Clear : List Piece → Prop
  | [] => True
  | .one _ :: ps | .group _ _ :: ps => Clear ps
  | .many p :: ps => Apart p ps ∧ Clear ps
  | .maybe _ :: ps => ps = []

/-! ## They agree -/

section Agree

variable {p : UInt8 → Bool} {ps : List Piece} {g g' bs : List UInt8}

theorem matchMany_fits (h : ∀ bs, matchFrom ps g bs = some g' → Fits ps g bs g')
    (hmatch : matchMany p (matchFrom ps g) bs = some g') : Fits (.many p :: ps) g bs g' := by
  induction bs with
  | nil => cases hmatch
  | cons b bs ih =>
      rw [matchMany] at hmatch
      split at hmatch
      · rename_i hb
        rcases Option.or_eq_some_iff.mp hmatch with hmatch | ⟨-, hmatch⟩
        · exact .many hb (ih hmatch)
        · exact .last hb (h bs hmatch)
      · cases hmatch

theorem matchFrom_fits (h : matchFrom ps g bs = some g') : Fits ps g bs g' := by
  induction ps generalizing g bs with
  | nil =>
      rw [matchFrom] at h
      split at h
      · rename_i hend
        cases h
        rcases hend with rfl | rfl
        · exact .done
        · exact .newline
      · cases h
  | cons piece ps ih =>
      cases piece with
      | one p =>
          cases bs with
          | nil => cases h
          | cons b bs =>
              rw [matchFrom] at h
              split at h
              · exact .one ‹_› (ih h)
              · cases h
      | many p => exact matchMany_fits (fun bs hbs => ih hbs) h
      | maybe p =>
          cases bs with
          | nil => exact .none (ih h)
          | cons b bs =>
              rw [matchFrom] at h
              split at h
              · rcases Option.or_eq_some_iff.mp h with h | ⟨-, h⟩
                · exact .some ‹_› (ih h)
                · exact .none (ih h)
              · exact .none (ih h)
      | group n p =>
          rw [matchFrom] at h
          split at h
          · rename_i hok
            obtain ⟨hlen, hall⟩ := hok
            have hfits : Fits (.group (bs.take n).length p :: ps) g (bs.take n ++ bs.drop n) g' :=
              .group (List.all_eq_true.mp hall) (ih h)
            rwa [List.take_append_drop, List.length_take_of_le hlen] at hfits
          · cases h

/-- The rest begins with a byte that the repetition does not go over. -/
theorem Apart.matchMany_none (hapart : Apart p ps) (h : Fits ps g bs g')
    (rest : List UInt8 → Option (List UInt8)) : matchMany p rest bs = none := by
  have hstop : ∀ {b : UInt8} {bs : List UInt8}, p b = false → matchMany p rest (b :: bs) = none := by
    intro b bs hb
    rw [matchMany, hb]
    exact if_neg Bool.false_ne_true
  have hhead : ∀ {q : UInt8 → Bool} {b : UInt8} {bs : List UInt8},
      (∀ b, p b = true → q b = false) → q b = true → matchMany p rest (b :: bs) = none := by
    intro q b bs hq hb
    refine hstop (Bool.eq_false_iff.mpr fun hp => ?_)
    rw [hq b hp] at hb
    cases hb
  cases h with
  | done => rfl
  | newline => exact hstop hapart
  | one hb _ => exact hhead hapart hb
  | many hb _ => exact hhead hapart hb
  | last hb _ => exact hhead hapart hb
  | some _ _ => cases hapart
  | none _ => cases hapart
  | @group _ _ _ digits _ _ hall _ =>
      obtain ⟨hpos, hq⟩ := hapart
      cases digits with
      | nil => cases hpos
      | cons b digits => exact hhead hq (hall b List.mem_cons_self)

theorem fits_nil (h : Fits [] g bs g') : g' = g ∧ (bs = [] ∨ bs = [newline]) := by
  cases h with
  | done => exact ⟨rfl, .inl rfl⟩
  | newline => exact ⟨rfl, .inr rfl⟩

theorem fits_matchFrom (hclear : Clear ps) (h : Fits ps g bs g') : matchFrom ps g bs = some g' := by
  induction h with
  | done => rfl
  | newline => rfl
  | one hb _ ih =>
      rw [matchFrom, if_pos hb]
      exact ih hclear
  | many hb _ ih =>
      have hmore := ih hclear
      rw [matchFrom] at hmore ⊢
      rw [matchMany, if_pos hb, hmore]
      rfl
  | last hb h ih =>
      obtain ⟨hapart, hclear⟩ := hclear
      rw [matchFrom, matchMany, if_pos hb, hapart.matchMany_none h, ih hclear]
      rfl
  | some hb h ih =>
      obtain rfl := hclear
      rw [matchFrom, if_pos hb, ih trivial]
      rfl
  | @none p ps g bs g' h ih =>
      obtain rfl := hclear
      obtain ⟨rfl, rfl | rfl⟩ := fits_nil h
      · rfl
      · rw [matchFrom]
        split
        · rfl
        · rfl
  | @group p ps g digits bs g' hall _ ih =>
      have hlen : digits.length ≤ (digits ++ bs).length := by
        rw [List.length_append]
        exact Nat.le_add_right _ _
      rw [matchFrom, List.take_left, List.drop_left, if_pos ⟨hlen, List.all_eq_true.mpr hall⟩]
      exact ih hclear

end Agree

theorem matchLine_iff {ps : List Piece} (hclear : Clear ps) {line g : List UInt8} :
    matchLine ps line = some g ↔ Fits ps [] line g :=
  ⟨matchFrom_fits, fits_matchFrom hclear⟩

/-- The group has as many bytes as it says, all of its class. -/
theorem matchLine_group {ps qs : List Piece} {n : Nat} {p : UInt8 → Bool} {line g : List UInt8}
    (hqs : ∀ m q, Piece.group m q ∉ qs)
    (h : matchLine (ps ++ .group n p :: qs) line = some g) :
    g.length = n ∧ ∀ b ∈ g, p b = true := by
  have hrest : ∀ {qs : List Piece} {g bs g' : List UInt8}, (∀ m q, Piece.group m q ∉ qs) →
      Fits qs g bs g' → g' = g := by
    intro qs g bs g' hqs hfits
    induction hfits with
    | done | newline => rfl
    | one _ _ ih | last _ _ ih | some _ _ ih | none _ ih =>
        exact ih fun m q hmem => hqs m q (List.mem_cons_of_mem _ hmem)
    | many _ _ ih => exact ih hqs
    | group _ _ _ => exact absurd List.mem_cons_self (hqs _ _)
  have hgroup : ∀ {all : List Piece} {g₀ bs g' : List UInt8}, Fits all g₀ bs g' →
      ∀ ps, all = ps ++ .group n p :: qs → g'.length = n ∧ ∀ b ∈ g', p b = true := by
    intro all g₀ bs g' hfits
    induction hfits with
    | done | newline => exact fun ps heq => absurd heq.symm (by simp)
    | one _ _ ih | last _ _ ih | some _ _ ih | none _ ih =>
        intro ps heq
        cases ps with
        | nil => cases heq
        | cons piece ps => exact ih ps (List.cons.inj heq).2
    | many _ _ ih => exact fun ps heq => ih ps heq
    | group hall h ih =>
        intro ps heq
        cases ps with
        | nil =>
            cases heq
            rw [hrest hqs h]
            exact ⟨rfl, hall⟩
        | cons piece ps => exact ih ps (List.cons.inj heq).2
  exact hgroup (matchFrom_fits h) ps rfl

end LinePattern

end Oat
