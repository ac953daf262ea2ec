import Mathlib.Data.List.Basic

/-!
# Reading a byte string as text

`readlines` and `strip` of Python 2 byte strings: cutting a file into
its lines, each with its newline, and removing white space (the C
locale's) at both ends.

What is needed of them is how little they touch: a text without
newlines is its only line (`readlines_line`), anything up to the first
newline is inside the first line (`readlines_first`), and `strip` never
removes a byte that is not white space (`mem_strip`).
-/

namespace Oat

def newline : UInt8 := 0x0a

/-- `isspace` in the C locale. -/
def isSpace (b : UInt8) : Bool := b = 0x20 ∨ (0x09 ≤ b ∧ b ≤ 0x0d)

/-- The lines of a text, each with its newline. -/
def readlines : List UInt8 → List (List UInt8)
  | [] => []
  | b :: bs =>
      if b = newline then [b] :: readlines bs
      else
        match readlines bs with
        | [] => [[b]]
        | l :: ls => (b :: l) :: ls

def lstrip (bs : List UInt8) : List UInt8 := bs.dropWhile isSpace

def strip (bs : List UInt8) : List UInt8 := (lstrip (lstrip bs).reverse).reverse

/-! ## Lines -/

theorem readlines_line : ∀ {bs : List UInt8}, bs ≠ [] → newline ∉ bs → readlines bs = [bs]
  | [b], _, h => by
      have hb : b ≠ newline := fun hb => h (by simp [hb])
      simp [readlines, hb]
  | b :: c :: bs, _, h => by
      have hb : b ≠ newline := fun hb => h (by simp [hb])
      have ih := readlines_line (List.cons_ne_nil c bs) fun hmem => h (List.mem_cons_of_mem b hmem)
      rw [readlines, if_neg hb, ih]

/-- What precedes the first newline lies in the first line. -/
theorem readlines_first : ∀ {pre : List UInt8}, pre ≠ [] → newline ∉ pre →
    ∀ rest, ∃ l ls, readlines (pre ++ rest) = l :: ls ∧ ∀ b ∈ pre, b ∈ l
  | [b], _, h, rest => by
      have hb : b ≠ newline := fun hb => h (by simp [hb])
      rw [List.singleton_append, readlines, if_neg hb]
      cases readlines rest with
      | nil => exact ⟨[b], [], rfl, by simp⟩
      | cons l ls => exact ⟨b :: l, ls, rfl, by simp⟩
  | b :: c :: pre, _, h, rest => by
      have hb : b ≠ newline := fun hb => h (by simp [hb])
      obtain ⟨l, ls, hl, hmem⟩ := readlines_first (List.cons_ne_nil c pre)
        (fun hmem => h (List.mem_cons_of_mem b hmem)) rest
      refine ⟨b :: l, ls, ?_, ?_⟩
      · rw [List.cons_append, readlines, if_neg hb, hl]
      · intro d hd
        rcases List.mem_cons.mp hd with rfl | hd
        · exact List.mem_cons_self
        · exact List.mem_cons_of_mem b (hmem d hd)

/-- A line with its newline, in front of a text. -/
theorem readlines_cons : ∀ {line : List UInt8}, newline ∉ line →
    ∀ rest, readlines (line ++ newline :: rest) = (line ++ [newline]) :: readlines rest
  | [], _, rest => by simp [readlines]
  | b :: line, h, rest => by
      have hb : b ≠ newline := fun hb => h (by simp [hb])
      have ih := readlines_cons (fun hmem => h (List.mem_cons_of_mem b hmem)) rest
      rw [List.cons_append, readlines, if_neg hb, ih]
      rfl

/-! ## White space -/

theorem lstrip_of_no_space {bs : List UInt8} (h : ∀ b ∈ bs, isSpace b = false) :
    lstrip bs = bs := by
  cases bs with
  | nil => rfl
  | cons b bs => exact List.dropWhile_cons_of_neg (by simp [h b List.mem_cons_self])

theorem strip_of_no_space {bs : List UInt8} (h : ∀ b ∈ bs, isSpace b = false) :
    strip bs = bs := by
  rw [strip, lstrip_of_no_space h,
    lstrip_of_no_space fun b hb => h b (List.mem_reverse.mp hb), List.reverse_reverse]

theorem mem_lstrip {b : UInt8} (hb : isSpace b = false) {bs : List UInt8} (h : b ∈ bs) :
    b ∈ lstrip bs := by
  induction bs with
  | nil => cases h
  | cons c bs ih =>
      rw [lstrip, List.dropWhile_cons]
      split
      · rename_i hc
        rcases List.mem_cons.mp h with rfl | h
        · simp [hb] at hc
        · exact ih h
      · exact h

theorem mem_strip {b : UInt8} {bs : List UInt8} (hb : isSpace b = false) (h : b ∈ bs) :
    b ∈ strip bs :=
  List.mem_reverse.mpr (mem_lstrip hb (List.mem_reverse.mpr (mem_lstrip hb h)))

end Oat
