import Mathlib.Data.Prod.Lex
import Mathlib.Order.WellFounded
import Oat.StepRun

/-!
# A linear scan that restarts its disassembler

A scan visits the words of a section, four bytes at a time, from `start`
on. Its disassembler ends at the first word that it cannot decode; the
scan then goes on at the last address it was given, if that is past where
it had started, and one word on otherwise. An address that it has just
visited it passes over. The test for the end of the section comes after
the visit.

The scan visits each word of the section that decodes, once and in order,
and sometimes one more (`scanned`, `ScanInv.scanned`). The rule for a
machine that scans is `scan_run`: each step of it is a `ScanStep` of what
it shows of itself, or leaves the scan.
-/

namespace Oat

/-! ## Scans -/

inductive ScanMode where
  | outer
  | scan (g : Int)
  | finished
deriving Repr, DecidableEq

/-- Where a scan is; `last` is the last address it was given. -/
structure Scan where
  current : Int
  prev : Int
  last : Option Int
  mode : ScanMode
deriving Repr, DecidableEq

variable (dec : Int → Bool) (start stop limit : Int)

def Scan.init : Scan := ⟨start, -1, none, .outer⟩

/-- The restart, when `j` is the last address. -/
def Scan.turn (s : Scan) (j : Int) : Scan :=
  let current := if s.current < j then j else s.current + 4
  { s with
    current := current
    mode := if stop ≤ current ∨ limit ≤ current then .finished else .outer }

/-- A step, and the address it visits. Whether a word decodes again, when
the scan comes back to it, is left open. -/
inductive ScanStep : Scan → Option Int → Scan → Prop where
  | enter {s : Scan} (hmode : s.mode = .outer) :
      ScanStep s none { s with mode := .scan s.current }
  | again {s : Scan} (hmode : s.mode = .scan s.prev) :
      ScanStep s none { s with last := some s.prev, mode := .scan (s.prev + 4) }
  | visit {s : Scan} {g : Int} (hmode : s.mode = .scan g) (hnew : g ≠ s.prev)
      (hdec : dec g = true) (hlt : g < stop) :
      ScanStep s (some g) { s with prev := g, last := some g, mode := .scan (g + 4) }
  | leave {s : Scan} {g : Int} (hmode : s.mode = .scan g) (hnew : g ≠ s.prev)
      (hdec : dec g = true) (hend : stop ≤ g) :
      ScanStep s (some g) ({ s with prev := g, last := some g }.turn stop limit g)
  | ends {s : Scan} {g j : Int} (hmode : s.mode = .scan g) (hnone : g ≠ s.prev → dec g = false)
      (hlast : s.last = some j) : ScanStep s none (s.turn stop limit j)

/-! ## What is visited -/

/-- The words among the first `n` that decode. -/
def decodedBelow (n : Nat) : List Int :=
  ((List.range n).map fun k : Nat => start + 4 * (k : Int)).filter dec

/-- The number of words of the section. -/
def sectionWords : Nat := ((stop - start + 3) / 4).toNat

/-- The first word past the section is visited if the disassembler gets to
it. -/
def scanned : List Int :=
  decodedBelow dec start (sectionWords start stop) ++
    if (sectionWords start stop = 0 ∨ dec (start + 4 * sectionWords start stop - 4) = true) ∧
        dec (start + 4 * sectionWords start stop) = true
    then [start + 4 * (sectionWords start stop : Int)] else []

variable {dec start stop limit}

theorem decodedBelow_zero : decodedBelow dec start 0 = [] := rfl

theorem decodedBelow_of_dec {n : Nat} (h : dec (start + 4 * n) = true) :
    decodedBelow dec start (n + 1) = decodedBelow dec start n ++ [start + 4 * (n : Int)] := by
  simp [decodedBelow, List.range_succ, h]

theorem decodedBelow_of_not {n : Nat} (h : dec (start + 4 * n) = false) :
    decodedBelow dec start (n + 1) = decodedBelow dec start n := by
  simp [decodedBelow, List.range_succ, h]

theorem decodedBelow_of_none {n m : Nat} (hnm : n ≤ m)
    (h : ∀ k : Nat, n ≤ k → k < m → dec (start + 4 * k) = false) :
    decodedBelow dec start m = decodedBelow dec start n := by
  induction m, hnm using Nat.le_induction with
  | base => rfl
  | succ m hnm ih =>
      rw [decodedBelow_of_not (h m hnm (Nat.lt_succ_self m)),
        ih fun k hk hkm => h k hk (Nat.lt_succ_of_lt hkm)]

theorem mem_decodedBelow {n : Nat} {a : Int} :
    a ∈ decodedBelow dec start n ↔ ∃ k : Nat, k < n ∧ a = start + 4 * k ∧ dec a = true := by
  simp only [decodedBelow, List.mem_filter, List.mem_map, List.mem_range]
  constructor
  · rintro ⟨⟨k, hk, rfl⟩, hdec⟩
    exact ⟨k, hk, rfl, hdec⟩
  · rintro ⟨k, hk, rfl, hdec⟩
    exact ⟨⟨k, hk, rfl⟩, hdec⟩

theorem decodedBelow_pairwise (n : Nat) :
    (decodedBelow dec start n).Pairwise fun a b => a + 4 ≤ b := by
  refine List.Pairwise.filter _ (List.pairwise_map.mpr ?_)
  exact List.pairwise_lt_range.imp fun h => by omega

/-- What is visited is in the section, or it is the first word past it. -/
theorem mem_scanned {a : Int} (h : a ∈ scanned dec start stop) :
    dec a = true ∧ ((∃ k : Nat, k < sectionWords start stop ∧ a = start + 4 * k) ∨
      ((sectionWords start stop = 0 ∨ dec (a - 4) = true) ∧
        a = start + 4 * (sectionWords start stop : Int))) := by
  rcases List.mem_append.mp h with h | h
  · obtain ⟨k, hk, rfl, hdec⟩ := mem_decodedBelow.mp h
    exact ⟨hdec, .inl ⟨k, hk, rfl⟩⟩
  · split at h
    · rename_i hextra
      obtain rfl := List.mem_singleton.mp h
      exact ⟨hextra.2, .inr ⟨hextra.1, rfl⟩⟩
    · cases h

/-- It is visited in order, and nothing of it twice. -/
theorem scanned_pairwise : (scanned dec start stop).Pairwise fun a b => a + 4 ≤ b := by
  refine List.pairwise_append.mpr ⟨decodedBelow_pairwise _, ?_, fun a ha b hb => ?_⟩
  · split
    · exact List.pairwise_singleton _ _
    · exact List.Pairwise.nil
  · obtain ⟨k, hk, rfl, -⟩ := mem_decodedBelow.mp ha
    split at hb
    · obtain rfl := List.mem_singleton.mp hb
      omega
    · cases hb

theorem lt_stop_iff {k : Nat} : start + 4 * (k : Int) < stop ↔ k < sectionWords start stop := by
  unfold sectionWords
  omega

theorem decodedBelow_filter {n : Nat} (hn : n ≤ sectionWords start stop) :
    (decodedBelow dec start n).filter (fun a => a < stop) = decodedBelow dec start n := by
  refine List.filter_eq_self.mpr fun a ha => ?_
  obtain ⟨k, hk, rfl, -⟩ := mem_decodedBelow.mp ha
  exact decide_eq_true (lt_stop_iff.mpr (Nat.lt_of_lt_of_le hk hn))

/-- Within the section, each word that decodes is visited once, in order. -/
theorem scanned_filter :
    (scanned dec start stop).filter (fun a => a < stop) =
      decodedBelow dec start (sectionWords start stop) := by
  have hpast : ¬ start + 4 * (sectionWords start stop : Int) < stop := fun h =>
    Nat.lt_irrefl _ (lt_stop_iff.mp h)
  rw [scanned, List.filter_append, decodedBelow_filter (Nat.le_refl _)]
  split <;> simp [hpast]

theorem decodedBelow_eq_scanned {n : Nat} (hn : n ≤ sectionWords start stop)
    (hrest : ∀ k : Nat, n ≤ k → k < sectionWords start stop → dec (start + 4 * k) = false)
    (hend : dec (start + 4 * sectionWords start stop) = false ∨
      (sectionWords start stop ≠ 0 ∧ dec (start + 4 * sectionWords start stop - 4) = false)) :
    decodedBelow dec start n = scanned dec start stop := by
  have hextra : ¬ ((sectionWords start stop = 0 ∨
      dec (start + 4 * sectionWords start stop - 4) = true) ∧
      dec (start + 4 * sectionWords start stop) = true) := by
    rintro ⟨hword, hnext⟩
    rcases hend with hend | ⟨hne, hend⟩
    · rw [hend] at hnext
      cases hnext
    · rcases hword with hword | hword
      · exact hne hword
      · rw [hend] at hword
        cases hword
  rw [scanned, if_neg hextra, List.append_nil, decodedBelow_of_none hn hrest]

/-! ## The invariant -/

/-- The disassembler is where it started. -/
theorem Scan.eq_current {s : Scan} (h : s.mode = .outer ∨ s.mode = .scan s.current) {g : Int}
    (hmode : s.mode = .scan g) : g = s.current := by
  rcases h with h | h
  · cases hmode.symm.trans h
  · exact ScanMode.scan.inj (hmode.symm.trans h)

variable (dec start stop) in
/-- How far a scan has come when it has visited `V`: it is about to read a
word for the first time, or one that it has visited before (and ended
after), or it is on a stretch of words that decode. -/
inductive ScanInv (s : Scan) (V : List Int) : Prop where
  | fresh (n : Nat) (hmode : s.mode = .outer ∨ s.mode = .scan s.current)
      (hcur : s.current = start + 4 * n) (hV : V = decodedBelow dec start n)
      (hprev : s.prev < s.current)
      (hlast : (s.last = none ∧ n = 0) ∨ ∃ j, s.last = some j ∧ j < s.current)
      (hn : n = 0 ∨ n < sectionWords start stop)
  | again (n : Nat) (hmode : s.mode = .outer ∨ s.mode = .scan s.current)
      (hcur : s.current = start + 4 * n) (hV : V = decodedBelow dec start (n + 1))
      (hprev : s.prev = s.current) (hlast : s.last = some s.current)
      (hn : n < sectionWords start stop) (hdec : dec s.current = true)
      (hnext : dec (start + 4 * (n + 1 : Nat)) = false)
  | running (n m : Nat) (hmode : s.mode = .scan (start + 4 * m))
      (hcur : s.current = start + 4 * n) (hnm : n < m) (hm : m ≤ sectionWords start stop)
      (hV : V = decodedBelow dec start m) (hprev : s.prev = start + 4 * m - 4)
      (hlast : s.last = some s.prev) (hdec : dec s.prev = true)
      (hall : ∀ k : Nat, n ≤ k → k < m → dec (start + 4 * k) = true)
  | finished (hmode : s.mode = .finished) (hV : V = scanned dec start stop)

namespace ScanInv

variable {s s' : Scan} {V : List Int}

theorem init (hstart : 0 ≤ start) : ScanInv dec start stop (Scan.init start) [] := by
  refine .fresh 0 (.inl rfl) ?_ rfl ?_ (.inl ⟨rfl, rfl⟩) (.inl rfl)
  · simp [Scan.init]
  · have hprev : (-1 : Int) < start := by omega
    exact hprev

theorem scanned (h : ScanInv dec start stop s V) (hmode : s.mode = .finished) :
    V = scanned dec start stop := by
  cases h with
  | fresh n hmode' => rcases hmode' with h | h <;> cases hmode.symm.trans h
  | again n hmode' => rcases hmode' with h | h <;> cases hmode.symm.trans h
  | running n m hmode' => cases hmode.symm.trans hmode'
  | finished _ hV => exact hV

theorem enter (h : ScanInv dec start stop s V) (hmode : s.mode = .outer) :
    ScanInv dec start stop { s with mode := .scan s.current } V := by
  cases h with
  | fresh n _ hcur hV hprev hlast hn => exact .fresh n (.inr rfl) hcur hV hprev hlast hn
  | again n _ hcur hV hprev hlast hn hdec hnext =>
      exact .again n (.inr rfl) hcur hV hprev hlast hn hdec hnext
  | running n m hmode' => cases hmode.symm.trans hmode'
  | finished h => cases hmode.symm.trans h

theorem reread (h : ScanInv dec start stop s V) (hmode : s.mode = .scan s.prev) :
    ScanInv dec start stop { s with last := some s.prev, mode := .scan (s.prev + 4) } V := by
  cases h with
  | fresh n hmode' _ _ hprev =>
      have heq := Scan.eq_current hmode' hmode
      omega
  | again n _ hcur hV hprev _ hn hdec _ =>
      have hall (k : Nat) (hk : n ≤ k) (hkn : k < n + 1) : dec (start + 4 * k) = true := by
        obtain rfl : k = n := by omega
        rwa [← hcur]
      refine .running n (n + 1) ?_ hcur (Nat.lt_succ_self n) hn hV ?_ rfl (hprev ▸ hdec) hall
      · rw [hprev, hcur]
        exact congrArg ScanMode.scan (by omega)
      · show s.prev = _
        omega
  | running n m hmode' _ _ _ _ hprev =>
      have heq := ScanMode.scan.inj (hmode.symm.trans hmode')
      omega
  | finished h => cases hmode.symm.trans h

theorem visit (h : ScanInv dec start stop s V) {g : Int} (hmode : s.mode = .scan g)
    (hnew : g ≠ s.prev) (hdec : dec g = true) (hlt : g < stop) :
    ScanInv dec start stop { s with prev := g, last := some g, mode := .scan (g + 4) }
      (V ++ [g]) := by
  cases h with
  | fresh n hmode' hcur hV =>
      obtain rfl := Scan.eq_current hmode' hmode
      rw [hcur] at hdec hlt ⊢
      refine .running n (n + 1) (congrArg ScanMode.scan ?_) rfl (Nat.lt_succ_self n)
        (lt_stop_iff.mp hlt) (by rw [hV, decodedBelow_of_dec hdec]) ?_ rfl hdec
        fun k hk hkn => ?_
      · omega
      · dsimp only
        omega
      · obtain rfl : k = n := by omega
        exact hdec
  | again n hmode' _ _ hprev =>
      exact absurd ((Scan.eq_current hmode' hmode).trans hprev.symm) hnew
  | running n m hmode' hcur hnm _ hV _ _ _ hall =>
      obtain rfl := ScanMode.scan.inj (hmode.symm.trans hmode')
      refine .running n (m + 1) (congrArg ScanMode.scan ?_) hcur (Nat.lt_succ_of_lt hnm)
        (lt_stop_iff.mp hlt) (by rw [hV, decodedBelow_of_dec hdec]) ?_ rfl hdec
        fun k hk hkm => ?_
      · omega
      · dsimp only
        omega
      · rcases Nat.lt_succ_iff_lt_or_eq.mp hkm with hkm | rfl
        · exact hall k hk hkm
        · exact hdec
  | finished h => cases hmode.symm.trans h

/-- A visit past the end is the last. -/
theorem leave (h : ScanInv dec start stop s V) {g : Int} (hmode : s.mode = .scan g)
    (hnew : g ≠ s.prev) (hdec : dec g = true) (hend : stop ≤ g) :
    ScanInv dec start stop ({ s with prev := g, last := some g }.turn stop limit g)
      (V ++ [g]) := by
  cases h with
  | fresh n hmode' hcur hV _ _ hn =>
      obtain rfl := Scan.eq_current hmode' hmode
      have hnlt : ¬ n < sectionWords start stop := fun hlt => by
        have := lt_stop_iff.mpr hlt
        omega
      obtain rfl : n = 0 := hn.resolve_right hnlt
      have hzero : sectionWords start stop = 0 := by omega
      refine .finished ?_ ?_
      · have hpast : stop ≤ s.current + 4 := by omega
        simp [Scan.turn, hpast]
      · have hstart : s.current = start + 4 * (0 : Nat) := hcur
        rw [hV, Oat.scanned, hzero, decodedBelow_zero, ← hstart, if_pos ⟨.inl rfl, hdec⟩]
  | again n hmode' _ _ hprev =>
      exact absurd ((Scan.eq_current hmode' hmode).trans hprev.symm) hnew
  | running n m hmode' hcur hnm hm hV hprev _ hdec' =>
      obtain rfl := ScanMode.scan.inj (hmode.symm.trans hmode')
      have hmlt : ¬ m < sectionWords start stop := fun hlt => by
        have := lt_stop_iff.mpr hlt
        omega
      obtain rfl : m = sectionWords start stop := by omega
      refine .finished ?_ ?_
      · have hlt : s.current < start + 4 * (sectionWords start stop : Int) := by omega
        simp [Scan.turn, hlt, hend]
      · rw [hV, Oat.scanned, if_pos ⟨.inr (hprev ▸ hdec'), hdec⟩]
  | finished h => cases hmode.symm.trans h

/-- One word on: the scan is about to read a word, or it is over. -/
theorem turn_next (hlimit : ∀ a, dec a = true → a < limit) {n : Nat} {j : Int}
    (hstay : ¬ s.current < j) (hcur : s.current + 4 = start + 4 * (n : Int))
    (hprev : s.prev ≤ s.current) (hlast : s.last = some j) (hn : n ≤ sectionWords start stop)
    (hend : n = sectionWords start stop → dec (start + 4 * sectionWords start stop) = false ∨
      (sectionWords start stop ≠ 0 ∧ dec (start + 4 * sectionWords start stop - 4) = false)) :
    ScanInv dec start stop (s.turn stop limit j) (decodedBelow dec start n) := by
  by_cases hfin : stop ≤ s.current + 4 ∨ limit ≤ s.current + 4
  · refine .finished (by simp [Scan.turn, hstay, hfin]) ?_
    rcases hfin with hstop | hlim
    · have hwords : n = sectionWords start stop := by
        by_contra hne
        have := lt_stop_iff.mpr (Nat.lt_of_le_of_ne hn hne)
        omega
      exact decodedBelow_eq_scanned hn (fun k hk hkn => absurd hkn (by omega)) (hend hwords)
    · have hpast (k : Nat) (hk : n ≤ k) : dec (start + 4 * k) = false := by
        by_contra hdec
        have := hlimit _ (Bool.eq_true_of_not_eq_false hdec)
        omega
      exact decodedBelow_eq_scanned hn (fun k hk _ => hpast k hk) (.inl (hpast _ hn))
  · obtain ⟨hstop, -⟩ := not_or.mp hfin
    have hturn : s.turn stop limit j = { s with current := s.current + 4, mode := .outer } := by
      simp [Scan.turn, hstay, hfin]
    have hprev' : s.prev < s.current + 4 := by omega
    have hj : j < s.current + 4 := by omega
    rw [hturn]
    exact .fresh n (.inl rfl) hcur rfl hprev' (.inr ⟨j, hlast, hj⟩)
      (.inr (lt_stop_iff.mp (by omega)))

/-- The disassembler ends, and starts again. -/
theorem ends (h : ScanInv dec start stop s V) (hfirst : dec start = true)
    (hlimit : ∀ a, dec a = true → a < limit) {g j : Int} (hmode : s.mode = .scan g)
    (hnone : g ≠ s.prev → dec g = false) (hlast : s.last = some j) :
    ScanInv dec start stop (s.turn stop limit j) V := by
  cases h with
  | fresh n hmode' hcur hV hprev hlast' hn =>
      obtain rfl := Scan.eq_current hmode' hmode
      have hundec : dec (start + 4 * (n : Int)) = false := by
        rw [← hcur]
        exact hnone (by omega)
      have hpos : n ≠ 0 := by
        rintro rfl
        rw [Int.ofNat_zero, Int.mul_zero, Int.add_zero, hfirst] at hundec
        cases hundec
      obtain ⟨j', hj', hjlt⟩ := hlast'.resolve_left fun h => hpos h.2
      obtain rfl : j' = j := Option.some.inj (hj'.symm.trans hlast)
      rw [hV, ← decodedBelow_of_not hundec]
      refine turn_next hlimit (by omega) (by omega) (Int.le_of_lt hprev) hlast
        (hn.resolve_left hpos) fun hwords => .inr ⟨by omega, ?_⟩
      rw [← hwords, ← hundec]
      exact congrArg dec (by omega)
  | again n hmode' hcur hV hprev hlast' hn hdec hnext =>
      obtain rfl : s.current = j := Option.some.inj (hlast'.symm.trans hlast)
      rw [hV]
      refine turn_next hlimit (Int.lt_irrefl _) (by omega) (Int.le_of_eq hprev) hlast hn
        fun hwords => .inl ?_
      rw [← hwords]
      exact hnext
  | running n m hmode' hcur hnm hm hV hprev hlast' hdec =>
      obtain rfl := ScanMode.scan.inj (hmode.symm.trans hmode')
      obtain rfl : s.prev = j := Option.some.inj (hlast'.symm.trans hlast)
      have hundec : dec (start + 4 * (m : Int)) = false := hnone (by omega)
      by_cases hback : s.current < s.prev
      · have hstop := lt_stop_iff.mpr (show m - 1 < sectionWords start stop by omega)
        have hlim := hlimit _ hdec
        have hturn : s.turn stop limit s.prev = { s with current := s.prev, mode := .outer } := by
          simp [Scan.turn, hback, show ¬ stop ≤ s.prev by omega, show ¬ limit ≤ s.prev by omega]
        rw [hturn]
        obtain ⟨m, rfl⟩ := Nat.exists_eq_succ_of_ne_zero (Nat.ne_of_gt (Nat.zero_lt_of_lt hnm))
        have hcur' : s.prev = start + 4 * (m : Int) := by omega
        exact .again m (.inl rfl) hcur' hV rfl hlast' hm hdec hundec
      · rw [hV]
        refine turn_next hlimit hback (by omega) (by omega) hlast hm fun hwords => .inl ?_
        rw [← hwords]
        exact hundec
  | finished h => cases hmode.symm.trans h

/-- **Step**: what a step keeps. -/
theorem step (h : ScanInv dec start stop s V) (hfirst : dec start = true)
    (hlimit : ∀ a, dec a = true → a < limit) {seen : Option Int}
    (hstep : ScanStep dec stop limit s seen s') : ScanInv dec start stop s' (V ++ seen.toList) := by
  cases hstep with
  | enter hmode =>
      rw [Option.toList_none, List.append_nil]
      exact h.enter hmode
  | again hmode =>
      rw [Option.toList_none, List.append_nil]
      exact h.reread hmode
  | visit hmode hnew hdec hlt => exact h.visit hmode hnew hdec hlt
  | leave hmode hnew hdec hend => exact h.leave hmode hnew hdec hend
  | ends hmode hnone hlast =>
      rw [Option.toList_none, List.append_nil]
      exact h.ends hfirst hlimit hmode hnone hlast

/-- What has been visited when the disassembler comes to a new word. -/
theorem visited (h : ScanInv dec start stop s V) {g : Int} (hmode : s.mode = .scan g)
    (hnew : g ≠ s.prev) : ∃ k : Nat, k ≤ sectionWords start stop ∧ g = start + 4 * k ∧
      V = decodedBelow dec start k := by
  cases h with
  | fresh n hmode' hcur hV _ _ hn =>
      obtain rfl := Scan.eq_current hmode' hmode
      exact ⟨n, by omega, hcur, hV⟩
  | again n hmode' _ _ hprev =>
      exact absurd ((Scan.eq_current hmode' hmode).trans hprev.symm) hnew
  | running n m hmode' _ _ hm hV =>
      exact ⟨m, hm, ScanMode.scan.inj (hmode.symm.trans hmode'), hV⟩
  | finished h => cases hmode.symm.trans h

/-- The word the disassembler comes back to has decoded. -/
theorem prev_dec (h : ScanInv dec start stop s V) (hmode : s.mode = .scan s.prev) :
    dec s.prev = true := by
  cases h with
  | fresh n hmode' _ _ hprev =>
      have heq := Scan.eq_current hmode' hmode
      omega
  | again n _ _ _ hprev _ _ hdec => rwa [hprev]
  | running n m hmode' _ _ _ _ hprev =>
      have heq := ScanMode.scan.inj (hmode.symm.trans hmode')
      omega
  | finished h => cases hmode.symm.trans h

/-- A scan that has not been given an address is at its first word. -/
theorem last_none (h : ScanInv dec start stop s V) {g : Int} (hmode : s.mode = .scan g)
    (hlast : s.last = none) : g = start ∧ g ≠ s.prev := by
  cases h with
  | fresh n hmode' hcur _ hprev hlast' =>
      obtain rfl := Scan.eq_current hmode' hmode
      rcases hlast' with ⟨-, rfl⟩ | ⟨j, hj, -⟩
      · exact ⟨by omega, by omega⟩
      · cases hlast.symm.trans hj
  | again n _ _ _ _ hlast' => cases hlast.symm.trans hlast'
  | running n m _ _ _ _ _ _ hlast' => cases hlast.symm.trans hlast'
  | finished h => cases hmode.symm.trans h

theorem current_le (h : ScanInv dec start stop s V) {g : Int} (hmode : s.mode = .scan g) :
    s.current ≤ g := by
  cases h with
  | fresh n hmode' =>
      exact Int.le_of_eq (Scan.eq_current hmode' hmode).symm
  | again n hmode' =>
      exact Int.le_of_eq (Scan.eq_current hmode' hmode).symm
  | running n m hmode' hcur hnm =>
      obtain rfl := ScanMode.scan.inj (hmode.symm.trans hmode')
      omega
  | finished h => cases hmode.symm.trans h

theorem start_le (h : ScanInv dec start stop s V) (hgoing : s.mode ≠ .finished) :
    start ≤ s.current := by
  cases h with
  | fresh n _ hcur => omega
  | again n _ hcur => omega
  | running n m _ hcur => omega
  | finished h => exact absurd h hgoing

/-- A scan that is not over is within the section, or at its end. -/
theorem bounds (h : ScanInv dec start stop s V) (hgoing : s.mode ≠ .finished) :
    s.current ≤ start + 4 * (sectionWords start stop : Int) ∧
      ∀ g, s.mode = .scan g → g ≤ start + 4 * (sectionWords start stop : Int) := by
  cases h with
  | fresh n hmode hcur _ _ _ hn =>
      refine ⟨by omega, fun g hg => ?_⟩
      obtain rfl := Scan.eq_current hmode hg
      omega
  | again n hmode hcur _ _ _ hn =>
      refine ⟨by omega, fun g hg => ?_⟩
      obtain rfl := Scan.eq_current hmode hg
      omega
  | running n m hmode hcur hnm hm =>
      refine ⟨by omega, fun g hg => ?_⟩
      obtain rfl := ScanMode.scan.inj (hg.symm.trans hmode)
      omega
  | finished h => exact absurd h hgoing

/-- Of the words before a new one, those that do not decode are behind. -/
theorem behind (h : ScanInv dec start stop s V) {g : Int} (hmode : s.mode = .scan g)
    (hnew : g ≠ s.prev) {j : Nat} (hj : start + 4 * (j : Int) < g)
    (hdec : dec (start + 4 * j) = false) : start + 4 * (j : Int) < s.current := by
  cases h with
  | fresh n hmode' =>
      obtain rfl := Scan.eq_current hmode' hmode
      exact hj
  | again n hmode' _ _ hprev =>
      exact absurd ((Scan.eq_current hmode' hmode).trans hprev.symm) hnew
  | running n m hmode' hcur _ _ _ _ _ _ hall =>
      obtain rfl := ScanMode.scan.inj (hmode.symm.trans hmode')
      by_contra hle
      rw [hall j (by omega) (by omega)] at hdec
      cases hdec
  | finished h => cases hmode.symm.trans h

/-- A step takes the scan past a word that does not decode only from there,
and to the next one. -/
theorem passes (h : ScanInv dec start stop s V) {seen : Option Int}
    (hstep : ScanStep dec stop limit s seen s') {j : Nat} (hdec : dec (start + 4 * j) = false)
    (hbefore : s.current ≤ start + 4 * j) (hafter : start + 4 * (j : Int) < s'.current) :
    s.mode = .scan (start + 4 * j) ∧ s.current = start + 4 * j ∧
      s'.current = start + 4 * j + 4 := by
  have hno {k : Nat} (hk : dec (start + 4 * k) = true) : k ≠ j := by
    rintro rfl
    rw [hdec] at hk
    cases hk
  cases hstep with
  | enter => exact absurd hafter (Int.not_lt.mpr hbefore)
  | again => exact absurd hafter (Int.not_lt.mpr hbefore)
  | visit => exact absurd hafter (Int.not_lt.mpr hbefore)
  | @leave g hmode hnew hdec' =>
      simp only [Scan.turn] at hafter
      cases h with
      | fresh n hmode' hcur =>
          obtain rfl := Scan.eq_current hmode' hmode
          have hne := hno (hcur ▸ hdec')
          split at hafter <;> omega
      | again n hmode' _ _ hprev =>
          exact absurd ((Scan.eq_current hmode' hmode).trans hprev.symm) hnew
      | running n m hmode' hcur hnm _ _ _ _ _ hall =>
          obtain rfl := ScanMode.scan.inj (hmode.symm.trans hmode')
          rw [if_pos (by omega)] at hafter
          exact absurd rfl (hno (hall j (by omega) (by omega)))
      | finished h => cases hmode.symm.trans h
  | @ends g l hmode hnone hlast =>
      simp only [Scan.turn] at hafter ⊢
      cases h with
      | fresh n hmode' hcur _ _ hlast' =>
          obtain rfl := Scan.eq_current hmode' hmode
          have hstay : ¬ s.current < l := by
            rcases hlast' with ⟨hno, -⟩ | ⟨l', hl', hlt⟩
            · cases hno.symm.trans hlast
            · obtain rfl := Option.some.inj (hl'.symm.trans hlast)
              omega
          rw [if_neg hstay] at hafter ⊢
          have heq : s.current = start + 4 * (j : Int) := by omega
          exact ⟨by rw [← heq]; exact hmode, heq, by omega⟩
      | again n _ hcur _ _ hlast' _ hdec' =>
          obtain rfl := Option.some.inj (hlast'.symm.trans hlast)
          have hne := hno (hcur ▸ hdec')
          split at hafter <;> omega
      | running n m _ hcur hnm _ _ hprev hlast' _ hall =>
          obtain rfl := Option.some.inj (hlast'.symm.trans hlast)
          refine absurd rfl (hno (hall j (by omega) ?_))
          split at hafter <;> omega
      | finished h => cases hmode.symm.trans h

end ScanInv

/-- A scan is over past the end of the section, or of what there is. -/
theorem ScanStep.over {s s' : Scan} {seen : Option Int} (h : ScanStep dec stop limit s seen s')
    (hfin : s'.mode = .finished) : stop ≤ s'.current ∨ limit ≤ s'.current := by
  cases h with
  | enter => cases hfin
  | again => cases hfin
  | visit => cases hfin
  | leave =>
      by_contra hgoing
      simp only [Scan.turn] at hfin hgoing
      rw [if_neg hgoing] at hfin
      cases hfin
  | ends =>
      by_contra hgoing
      simp only [Scan.turn] at hfin hgoing
      rw [if_neg hgoing] at hfin
      cases hfin

/-! ## The run -/

variable (start stop) in
/-- How much of the section is left: to the restarts, and within a stretch. -/
def Scan.rank (s : Scan) : Nat × Nat :=
  ((start + 4 * (sectionWords start stop + 1) - s.current).toNat,
    match s.mode with
    | .outer => (start + 4 * (sectionWords start stop + 2) - s.current).toNat
    | .scan g => (start + 4 * (sectionWords start stop + 1) - g).toNat
    | .finished => 0)

variable (stop limit) in
theorem Scan.lt_turn (s : Scan) (j : Int) : s.current < (s.turn stop limit j).current := by
  simp only [Scan.turn]
  split <;> omega

theorem rank_step {s s' : Scan} {seen : Option Int} {V : List Int}
    (h : ScanInv dec start stop s V) (hstep : ScanStep dec stop limit s seen s') :
    Prod.Lex (· < ·) (· < ·) (s'.rank start stop) (s.rank start stop) := by
  have hbounds := h.bounds
  cases hstep with
  | enter hmode =>
      obtain ⟨hcur, -⟩ := hbounds (by simp [hmode])
      simp only [Scan.rank, hmode]
      exact .right _ (by omega)
  | again hmode =>
      have hg := (hbounds (by simp [hmode])).2 _ hmode
      simp only [Scan.rank, hmode]
      exact .right _ (by omega)
  | visit hmode =>
      have hg := (hbounds (by simp [hmode])).2 _ hmode
      simp only [Scan.rank, hmode]
      exact .right _ (by omega)
  | @leave g hmode =>
      obtain ⟨hcur, -⟩ := hbounds (by simp [hmode])
      have hlt := Scan.lt_turn stop limit { s with prev := g, last := some g } g
      exact .left _ _ (by dsimp only at hlt; omega)
  | @ends g j hmode =>
      obtain ⟨hcur, -⟩ := hbounds (by simp [hmode])
      have hlt := Scan.lt_turn stop limit s j
      exact .left _ _ (by omega)

section Run

variable {σ : Type} {step : σ → σ} {view : σ → Scan} {seen : σ → Option Int}

/-- The addresses that the first `n` steps of a run visit. -/
def visits (step : σ → σ) (seen : σ → Option Int) (s : σ) (n : Nat) : List Int :=
  (trail step s n).filterMap seen

theorem filterMap_snoc {α β : Type} (f : α → Option β) (l : List α) (a : α) :
    (l ++ [a]).filterMap f = l.filterMap f ++ (f a).toList := by
  rw [List.filterMap_append]
  cases h : f a <;> simp [h]

theorem visits_succ (s : σ) (n : Nat) :
    visits step seen s (n + 1) = visits step seen s n ++ (seen (step^[n] s)).toList := by
  rw [visits, trail_succ, filterMap_snoc, visits]

theorem mem_visits {s : σ} {n : Nat} {a : Int} :
    a ∈ visits step seen s n ↔ ∃ k < n, seen (step^[k] s) = some a := by
  simp only [visits, trail, List.mem_filterMap, List.mem_map, List.mem_range]
  constructor
  · rintro ⟨_, ⟨k, hk, rfl⟩, hseen⟩
    exact ⟨k, hk, hseen⟩
  · rintro ⟨k, hk, hseen⟩
    exact ⟨_, ⟨k, hk, rfl⟩, hseen⟩

/-- What a run of `n` steps has kept, and done. -/
structure ScanRun (dec : Int → Bool) (start stop limit : Int) (step : σ → σ) (view : σ → Scan)
    (seen : σ → Option Int) (I : σ → List Int → Prop) (s₀ : σ) (n : Nat) : Prop where
  init : view s₀ = Scan.init start
  inv : ∀ k ≤ n, I (step^[k] s₀) (visits step seen s₀ k) ∧
    ScanInv dec start stop (view (step^[k] s₀)) (visits step seen s₀ k)
  steps : ∀ k < n, ScanStep dec stop limit (view (step^[k] s₀)) (seen (step^[k] s₀))
    (view (step^[k + 1] s₀))

variable (view seen) in
/-- **Run**: a machine each step of which is a step of a scan, or leaves
it, comes to the end of the section or to where it leaves. -/
theorem scan_run (hstart : 0 ≤ start) (hfirst : dec start = true)
    (hlimit : ∀ a, dec a = true → a < limit) {I : σ → List Int → Prop} {Q : σ → Prop} {s₀ : σ}
    (hview : view s₀ = Scan.init start) (hI : I s₀ [])
    (hstep : ∀ s V, I s V → ScanInv dec start stop (view s) V → (view s).mode ≠ .finished →
      Q s ∨ (ScanStep dec stop limit (view s) (seen s) (view (step s)) ∧
        I (step s) (V ++ (seen s).toList))) :
    ∃ n, ScanRun dec start stop limit step view seen I s₀ n ∧
      ((view (step^[n] s₀)).mode = .finished ∨ Q (step^[n] s₀)) := by
  have hwf : WellFounded (Prod.Lex (fun m n : Nat => m < n) (fun m n : Nat => m < n)) :=
    WellFounded.prod_lex wellFounded_lt wellFounded_lt
  suffices h : ∀ r n, (view (step^[n] s₀)).rank start stop = r →
      ScanRun dec start stop limit step view seen I s₀ n →
      ∃ n, ScanRun dec start stop limit step view seen I s₀ n ∧
        ((view (step^[n] s₀)).mode = .finished ∨ Q (step^[n] s₀)) by
    refine h _ 0 rfl ⟨hview, fun k hk => ?_, fun k hk => absurd hk (Nat.not_lt_zero k)⟩
    obtain rfl := Nat.le_zero.mp hk
    refine ⟨hI, ?_⟩
    rw [Function.iterate_zero, id_eq, hview]
    exact ScanInv.init hstart
  intro r
  induction r using hwf.induction with
  | _ r ih =>
      rintro n rfl hrun
      obtain ⟨hI, hinv⟩ := hrun.inv n (Nat.le_refl n)
      by_cases hfin : (view (step^[n] s₀)).mode = .finished
      · exact ⟨n, hrun, .inl hfin⟩
      · rcases hstep _ _ hI hinv hfin with hQ | ⟨hscan, hI'⟩
        · exact ⟨n, hrun, .inr hQ⟩
        · have hrank := rank_step hinv hscan
          have hinv' := hinv.step hfirst hlimit hscan
          rw [← visits_succ, ← Function.iterate_succ_apply' step] at hI' hinv'
          rw [← Function.iterate_succ_apply' step] at hrank hscan
          refine ih _ hrank (n + 1) rfl ⟨hview, fun k hk => ?_, fun k hk => ?_⟩
          · rcases Nat.le_succ_iff.mp hk with hk | rfl
            · exact hrun.inv k hk
            · exact ⟨hI', hinv'⟩
          · rcases Nat.lt_succ_iff_lt_or_eq.mp hk with hk | rfl
            · exact hrun.steps k hk
            · exact hscan

/-- The words that a run has left behind and that do not decode it has
passed over one by one. -/
theorem ScanRun.passes {I : σ → List Int → Prop} {s₀ : σ} {n : Nat}
    (h : ScanRun dec start stop limit step view seen I s₀ n) {j : Nat}
    (hdec : dec (start + 4 * j) = false) {m : Nat} (hm : m ≤ n)
    (hpast : start + 4 * (j : Int) < (view (step^[m] s₀)).current) :
    ∃ k < m, (view (step^[k] s₀)).mode = .scan (start + 4 * j) ∧
      (view (step^[k] s₀)).current = start + 4 * j ∧
      (view (step^[k + 1] s₀)).current = start + 4 * j + 4 := by
  induction m with
  | zero =>
      rw [Function.iterate_zero, id_eq, h.init] at hpast
      simp only [Scan.init] at hpast
      omega
  | succ m ih =>
      by_cases hbefore : start + 4 * (j : Int) < (view (step^[m] s₀)).current
      · obtain ⟨k, hk, hpass⟩ := ih (Nat.le_of_succ_le hm) hbefore
        exact ⟨k, Nat.lt_succ_of_lt hk, hpass⟩
      · obtain ⟨-, hinv⟩ := h.inv m (Nat.le_of_succ_le hm)
        exact ⟨m, Nat.lt_succ_self m,
          hinv.passes (h.steps m hm) hdec (Int.not_lt.mp hbefore) hpast⟩

/-- The first `n` steps have visited those of the first `m` words of the
section that decode, each once and in order; the others they have passed
over one by one. -/
structure Handles (dec : Int → Bool) (start stop limit : Int) (step : σ → σ) (view : σ → Scan)
    (seen : σ → Option Int) (s₀ : σ) (n m : Nat) : Prop where
  bound : m ≤ sectionWords start stop
  once : (visits step seen s₀ n).filter (fun a => a < stop) = decodedBelow dec start m
  skips : ∀ j : Nat, j < m → start + 4 * (j : Int) < limit → dec (start + 4 * j) = false →
    ∃ k < n, (view (step^[k] s₀)).mode = .scan (start + 4 * j) ∧
      (view (step^[k] s₀)).current = start + 4 * j ∧
      (view (step^[k + 1] s₀)).current = start + 4 * j + 4

theorem ScanRun.handles {I : σ → List Int → Prop} {s₀ : σ} {n : Nat}
    (h : ScanRun dec start stop limit step view seen I s₀ n)
    (hfin : (view (step^[n] s₀)).mode = .finished) :
    Handles dec start stop limit step view seen s₀ n (sectionWords start stop) where
  bound := Nat.le_refl _
  once := by rw [(h.inv n (Nat.le_refl n)).2.scanned hfin, scanned_filter]
  skips j hj hlt hdec := by
    refine h.passes hdec (Nat.le_refl n) ?_
    have hstop := lt_stop_iff.mpr hj
    cases n with
    | zero =>
        rw [Function.iterate_zero, id_eq, h.init] at hfin
        cases hfin
    | succ n =>
        rcases (h.steps n (Nat.lt_succ_self n)).over hfin with hover | hover <;> omega

/-- Where the scan reads a new word, it has handled those before it. -/
theorem ScanRun.handles_below {I : σ → List Int → Prop} {s₀ : σ} {n : Nat}
    (h : ScanRun dec start stop limit step view seen I s₀ n) {g : Int}
    (hmode : (view (step^[n] s₀)).mode = .scan g) (hnew : g ≠ (view (step^[n] s₀)).prev) :
    ∃ m : Nat, g = start + 4 * m ∧ visits step seen s₀ n = decodedBelow dec start m ∧
      Handles dec start stop limit step view seen s₀ n m := by
  obtain ⟨-, hinv⟩ := h.inv n (Nat.le_refl n)
  obtain ⟨m, hm, hg, hV⟩ := hinv.visited hmode hnew
  refine ⟨m, hg, hV, hm, by rw [hV, decodedBelow_filter hm], fun j hj _ hdec => ?_⟩
  exact h.passes hdec (Nat.le_refl n) (hinv.behind hmode hnew (by omega) hdec)

end Run

end Oat
