import Mathlib.Logic.Function.Basic

/-!
# Tables in two levels

An array of which little is used, kept in pages of `w` cells that are
made when they are first needed. `view` is the array it stands for: a
page that was never made reads as zero, so that making one changes
nothing. `view_write` and `view_copyEach` say what the operations do to
the array, `view_copyCells` the same for cells copied as one block.
-/

namespace Oat

/-- Pages by number; a page that was never needed is not there. -/
structure LazyTable (ε : Type) where
  pages : Nat → Option (Nat → ε)

/-- `n` cells of an array moved as one block. -/
def moved {ε : Type} (f : Nat → ε) (dst src n : Nat) : Nat → ε := fun s =>
  if dst ≤ s ∧ s < dst + n then f (src + (s - dst)) else f s

section Moved

variable {ε : Type} {f : Nat → ε} {dst src n : Nat}

@[simp] theorem moved_zero (f : Nat → ε) (dst src : Nat) : moved f dst src 0 = f := by
  funext s
  exact if_neg (by omega)

theorem moved_of_lt {k : Nat} (hk : k < n) : moved f dst src n (dst + k) = f (src + k) := by
  have hcell : dst + k - dst = k := by omega
  simp only [moved]
  rw [if_pos (by omega), hcell]

theorem moved_of_outside {s : Nat} (hs : s < dst ∨ dst + n ≤ s) : moved f dst src n s = f s :=
  if_neg (by omega)

/-- From low cells to high ones, one by one: what is read has not been
written. -/
theorem moved_succ (h : dst ≤ src ∨ src + n < dst) :
    Function.update (moved f dst src n) (dst + n) (moved f dst src n (src + n)) =
      moved f dst src (n + 1) := by
  have hread : moved f dst src n (src + n) = f (src + n) := moved_of_outside (by omega)
  funext s
  by_cases hs : s = dst + n
  · subst hs
    rw [Function.update_self, hread, moved_of_lt (Nat.lt_succ_self n)]
  · rw [Function.update_of_ne hs]
    simp only [moved]
    by_cases hin : dst ≤ s ∧ s < dst + n
    · rw [if_pos hin, if_pos (by omega)]
    · rw [if_neg hin, if_neg (by omega)]

/-- The array is unchanged exactly when the cells agree already. -/
theorem moved_eq_self_iff : moved f dst src n = f ↔ ∀ k < n, f (dst + k) = f (src + k) := by
  constructor
  · intro h k hk
    have hk' : moved f dst src n (dst + k) = f (src + k) := moved_of_lt hk
    rwa [h] at hk'
  · intro h
    funext s
    by_cases hs : dst ≤ s ∧ s < dst + n
    · obtain ⟨k, rfl⟩ := Nat.exists_eq_add_of_le hs.1
      rw [moved_of_lt (by omega), h k (by omega)]
    · exact if_neg hs

end Moved

namespace LazyTable

variable {ε : Type} [Zero ε]

def empty : LazyTable ε := ⟨fun _ => none⟩

def read (t : LazyTable ε) (i k : Nat) : ε :=
  match t.pages i with
  | none => 0
  | some page => page k

/-- A new page is all zero. -/
def ensure (t : LazyTable ε) (i : Nat) : LazyTable ε :=
  match t.pages i with
  | none => ⟨Function.update t.pages i (some fun _ => 0)⟩
  | some _ => t

def write (t : LazyTable ε) (i k : Nat) (e : ε) : LazyTable ε :=
  ⟨Function.update t.pages i ((t.pages i).map fun page => Function.update page k e)⟩

/-- `n` cells of page `i`, from `k` on, into page `j` from `l` on. -/
def copyCells (t : LazyTable ε) (j l i k n : Nat) : LazyTable ε :=
  ⟨Function.update t.pages j
    ((t.pages j).map fun page x => if l ≤ x ∧ x < l + n then t.read i (k + (x - l)) else page x)⟩

/-- The array a table stands for. -/
def view (w : Nat) (t : LazyTable ε) (s : Nat) : ε := t.read (s / w) (s % w)

@[simp] theorem view_empty (w : Nat) : view w (empty : LazyTable ε) = fun _ => 0 := rfl

theorem ensure_isSome (t : LazyTable ε) (i : Nat) : ((t.ensure i).pages i).isSome := by
  unfold ensure
  split
  · simp
  · rename_i page h
    simp [h]

@[simp] theorem read_ensure (t : LazyTable ε) (i j k : Nat) : (t.ensure i).read j k = t.read j k := by
  unfold ensure
  split
  · rename_i hnone
    by_cases hj : j = i
    · subst hj
      simp [read, hnone]
    · simp [read, Function.update_of_ne hj]
  · rfl

@[simp] theorem view_ensure (w : Nat) (t : LazyTable ε) (i : Nat) : view w (t.ensure i) = view w t := by
  funext s
  exact read_ensure ..

variable {t : LazyTable ε} {w : Nat}

theorem read_write {i : Nat} (hi : (t.pages i).isSome) (k : Nat) (e : ε) (j l : Nat) :
    (t.write i k e).read j l = if j = i ∧ l = k then e else t.read j l := by
  obtain ⟨page, hpage⟩ := Option.isSome_iff_exists.mp hi
  by_cases hj : j = i
  · subst hj
    simp [read, write, hpage, Function.update_apply]
  · simp [read, write, hj]

theorem write_all {P : ε → Prop} (hall : ∀ i k, P (t.read i k)) {e : ε} (he : P e) {i k : Nat} :
    ∀ j l, P ((t.write i k e).read j l) := by
  intro j l
  cases hpage : t.pages i with
  | none =>
      have hsame : t.write i k e = t := by
        rw [write, hpage, Option.map_none, Function.update_eq_self_iff.mpr hpage.symm]
      rw [hsame]
      exact hall j l
  | some page =>
      rw [read_write (by simp [hpage])]
      split
      · exact he
      · exact hall j l

/-- A cell of the array is one of the cells of its page. -/
theorem flat_iff {i k s : Nat} (hk : k < w) : s / w = i ∧ s % w = k ↔ s = i * w + k := by
  constructor
  · rintro ⟨rfl, rfl⟩
    rw [Nat.mul_comm]
    exact (Nat.div_add_mod s w).symm
  · rintro rfl
    have hw : 0 < w := by omega
    rw [Nat.mul_comm]
    exact ⟨by rw [Nat.mul_add_div hw, Nat.div_eq_of_lt hk, Nat.add_zero],
      by rw [Nat.mul_add_mod, Nat.mod_eq_of_lt hk]⟩

theorem view_write {i k : Nat} (hi : (t.pages i).isSome) (hk : k < w) (e : ε) :
    view w (t.write i k e) = Function.update (view w t) (i * w + k) e := by
  funext s
  simp only [view, Function.update_apply, read_write hi, flat_iff hk]

theorem read_copyCells {j : Nat} (hj : (t.pages j).isSome) (l i k n a x : Nat) :
    (t.copyCells j l i k n).read a x =
      if a = j ∧ l ≤ x ∧ x < l + n then t.read i (k + (x - l)) else t.read a x := by
  obtain ⟨page, hpage⟩ := Option.isSome_iff_exists.mp hj
  by_cases ha : a = j
  · subst ha
    simp [read, copyCells, hpage]
  · simp [read, copyCells, ha]

theorem copyCells_all {P : ε → Prop} (hall : ∀ i k, P (t.read i k)) {j l i k n : Nat} :
    ∀ a x, P ((t.copyCells j l i k n).read a x) := by
  intro a x
  cases hpage : t.pages j with
  | none =>
      have hsame : t.copyCells j l i k n = t := by
        rw [copyCells, hpage, Option.map_none, Function.update_eq_self_iff.mpr hpage.symm]
      rw [hsame]
      exact hall a x
  | some page =>
      rw [read_copyCells (by simp [hpage])]
      split
      · exact hall ..
      · exact hall a x

/-- Cells within their pages. -/
theorem view_copyCells {dst src n : Nat} (hto : (t.pages (dst / w)).isSome)
    (hfit : dst % w + n ≤ w) (hfit' : src % w + n ≤ w) :
    view w (t.copyCells (dst / w) (dst % w) (src / w) (src % w) n) = moved (view w t) dst src n := by
  funext s
  simp only [view, read_copyCells hto, moved]
  have hpage : s / w = dst / w ∧ dst % w ≤ s % w ∧ s % w < dst % w + n ↔ dst ≤ s ∧ s < dst + n := by
    have hs := Nat.div_add_mod s w
    have ht := Nat.div_add_mod dst w
    constructor
    · rintro ⟨hdiv, hle, hlt⟩
      rw [hdiv] at hs
      omega
    · rintro ⟨hle, hlt⟩
      obtain ⟨d, rfl⟩ := Nat.exists_eq_add_of_le hle
      have hd : dst % w + d < w := by omega
      have hsplit : dst + d = dst / w * w + (dst % w + d) := by rw [Nat.mul_comm]; omega
      obtain ⟨h1, h2⟩ := (flat_iff hd).mpr hsplit
      exact ⟨h1, by omega, by omega⟩
  by_cases h : dst ≤ s ∧ s < dst + n
  · obtain ⟨-, hle, hlt⟩ := hpage.mpr h
    have hdiv : s / w = dst / w := (hpage.mpr h).1
    have hs := Nat.div_add_mod s w
    have ht := Nat.div_add_mod dst w
    rw [hdiv] at hs
    have hd : s % w - dst % w = s - dst := by omega
    have hlt' : src % w + (s - dst) < w := by omega
    have hsplit : src + (s - dst) = src / w * w + (src % w + (s - dst)) := by
      have := Nat.div_add_mod src w
      rw [Nat.mul_comm]
      omega
    obtain ⟨h1, h2⟩ := (flat_iff hlt').mpr hsplit
    rw [if_pos (hpage.mpr h), if_pos h, hd, h1, h2]
  · rw [if_neg (fun hp => h (hpage.mp hp)), if_neg h]

/-- One cell of the array, with the pages it needs. -/
def copyCell (w : Nat) (t : LazyTable ε) (dst src : Nat) : LazyTable ε :=
  let t := (t.ensure (src / w)).ensure (dst / w)
  t.write (dst / w) (dst % w) (t.read (src / w) (src % w))

/-- Cell by cell, from low to high. -/
def copyEach (w : Nat) (t : LazyTable ε) (dst src n : Nat) : LazyTable ε :=
  (List.range n).foldl (fun t k => t.copyCell w (dst + k) (src + k)) t

theorem view_copyCell (hw : 0 < w) (t : LazyTable ε) (dst src : Nat) :
    view w (t.copyCell w dst src) = Function.update (view w t) dst (view w t src) := by
  have hflat : dst / w * w + dst % w = dst := by
    rw [Nat.mul_comm]
    exact Nat.div_add_mod dst w
  simp only [copyCell]
  rw [view_write (ensure_isSome _ _) (Nat.mod_lt _ hw), hflat]
  simp only [view_ensure, read_ensure]
  rfl

theorem view_copyEach (hw : 0 < w) {dst src n : Nat} (h : dst ≤ src ∨ src + n ≤ dst) :
    view w (t.copyEach w dst src n) = moved (view w t) dst src n := by
  induction n with
  | zero => simp [copyEach]
  | succ n ih =>
      have hprev : view w (t.copyEach w dst src n) = moved (view w t) dst src n := ih (by omega)
      have hstep : t.copyEach w dst src (n + 1) = (t.copyEach w dst src n).copyCell w (dst + n) (src + n) := by
        simp [copyEach, List.range_succ]
      rw [hstep, view_copyCell hw, hprev, moved_succ (by omega)]

end LazyTable

end Oat
