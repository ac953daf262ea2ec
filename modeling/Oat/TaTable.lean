import Oat.HeapList
import Oat.TaAttest

/-!
# The def-use map as a table

What the buckets and their chains stand for: `Holds` is the relation
between keys and values they represent, and `TableOk` the invariant
under which `hashmap_lookup` reads it off (`recorded_iff`).

An update of a key that is there writes its node in place, and does to
the table what it should; an update of one that is not leaves every
chain as it was (`stores_iff`). A use check that fails reports the value
of the node after that write (`reportsUse_iff`).
-/

namespace Oat

namespace Ta

/-! ## The invariant -/

def keyAt (nodes : List Node) (q : Nat) : Option UInt64 := (nodes[q]?).map (·.key)

/-- The chain of bucket `i` from `ptr` on: it ends, its keys are congruent
to the index, and each of them is there once. -/
structure ChainOk (nodes : List Node) (p : UInt64) (i : Nat) (ptr : Option Nat)
    (chain : List Nat) : Prop where
  list : ListAt Node.next nodes ptr chain
  residue : ∀ q ∈ chain, ∀ key, keyAt nodes q = some key → (key % p).toNat = i
  distinct : ∀ q ∈ chain, ∀ q' ∈ chain, keyAt nodes q = keyAt nodes q' → q = q'

structure TableOk (nodes : List Node) (hmap : Hashmap) : Prop where
  pos : hmap.p ≠ 0
  chains : ∀ i ptr, hmap.bucket[i]? = some ptr → ∃ chain, ChainOk nodes hmap.p i ptr chain

/-- Some chain has a node with this key and this value. -/
def Holds (nodes : List Node) (hmap : Hashmap) (key value : UInt64) : Prop :=
  ∃ (i : Nat) (ptr : Option Nat) (chain : List Nat) (q : Nat) (n : Node),
    hmap.bucket[i]? = some ptr ∧ ListAt Node.next nodes ptr chain ∧ q ∈ chain ∧
      nodes[q]? = some n ∧ n.key = key ∧ n.value = value

/-- The value of the node `hashmap_lookup` returns, if it returns one. -/
def recorded (nodes : List Node) (hmap : Hashmap) (key : UInt64) : Except Trap (Option UInt64) := do
  let ptr ← hashmapLookup nodes hmap key
  match ptr with
  | none => pure none
  | some q =>
      match nodes[q]? with
      | none => .error .outOfBounds
      | some n => pure (some n.value)

theorem ChainOk.congr {nodes nodes' : List Node} {p : UInt64} {i : Nat} {ptr : Option Nat}
    {chain : List Nat} (h : ChainOk nodes p i ptr chain)
    (hkeys : ∀ q ∈ chain, keyAt nodes' q = keyAt nodes q)
    (hlinks : ∀ q ∈ chain, (nodes'[q]?).map Node.next = (nodes[q]?).map Node.next) :
    ChainOk nodes' p i ptr chain where
  list := h.list.congr hlinks
  residue q hq key hkey := h.residue q hq key (by rw [← hkeys q hq, hkey])
  distinct q hq q' hq' heq := h.distinct q hq q' hq' (by rw [← hkeys q hq, ← hkeys q' hq', heq])

/-! ## The lookup -/

/-- The walk finds the first node with the key. -/
theorem hashmapWalk_list {nodes : List Node} {ptr : Option Nat} {chain : List Nat}
    (h : ListAt Node.next nodes ptr chain) (key : UInt64) {fuel : Nat} (hf : chain.length ≤ fuel) :
    hashmapWalk nodes key fuel ptr = .ok (chain.find? fun q => keyAt nodes q = some key) := by
  induction h generalizing fuel with
  | nil => cases fuel <;> rfl
  | @cons q n chain hget hrest ih =>
      have hkey : keyAt nodes q = some n.key := by rw [keyAt, hget, Option.map_some]
      cases fuel with
      | zero => cases hf
      | succ fuel =>
          rw [hashmapWalk, hget]
          by_cases hn : n.key = key
          · simp [hn, hkey]
          · simp only [hn, ne_eq, not_false_eq_true, if_true, List.find?_cons, hkey,
              Option.some.injEq, decide_false]
            exact ih (Nat.le_of_succ_le_succ hf)

theorem hashmapWalk_key {nodes : List Node} {key : UInt64} {fuel q : Nat} {ptr : Option Nat}
    (h : hashmapWalk nodes key fuel ptr = .ok (some q)) : keyAt nodes q = some key := by
  induction fuel generalizing ptr with
  | zero => cases ptr <;> cases h
  | succ fuel ih =>
      cases ptr with
      | none => cases h
      | some ptr =>
          rw [hashmapWalk] at h
          split at h
          · cases h
          · rename_i n hget
            split at h
            · exact ih h
            · rename_i hkey
              obtain rfl := Option.some.inj (Except.ok.inj h)
              rw [keyAt, hget, Option.map_some, not_not.mp hkey]

/-- The lookup reads the keys and the links only. -/
theorem hashmapLookup_congr {nodes nodes' : List Node} (hlen : nodes'.length = nodes.length)
    (hshape : ∀ q : Nat, (nodes'[q]?).map (fun n => (n.key, n.next)) =
      (nodes[q]?).map fun n => (n.key, n.next)) (hmap : Hashmap) (key : UInt64) :
    hashmapLookup nodes' hmap key = hashmapLookup nodes hmap key := by
  have hwalk : ∀ fuel ptr, hashmapWalk nodes' key fuel ptr = hashmapWalk nodes key fuel ptr := by
    intro fuel
    induction fuel with
    | zero => intro ptr; cases ptr <;> rfl
    | succ fuel ih =>
        intro ptr
        cases ptr with
        | none => rfl
        | some q =>
            have hq := hshape q
            rw [hashmapWalk, hashmapWalk]
            cases hget : nodes[q]? with
            | none =>
                rw [hget, Option.map_none, Option.map_eq_none_iff] at hq
                rw [hq]
            | some n =>
                rw [hget, Option.map_some] at hq
                obtain ⟨n', hget', heq⟩ := Option.map_eq_some_iff.mp hq
                obtain ⟨hk, hn⟩ := Prod.mk.injEq .. |>.mp heq
                simp only [hget', hk, hn, ih]
  simp only [hashmapLookup, hlen, hwalk]

section Lookup

variable {nodes : List Node} {hmap : Hashmap} (h : TableOk nodes hmap) {key : UInt64}

include h

theorem hashmapBucket_eq {ptr : Option Nat} :
    hashmapBucket hmap key = .ok ptr ↔ hmap.bucket[(key % hmap.p).toNat]? = some ptr := by
  rw [hashmapBucket, if_neg h.pos]
  cases hmap.bucket[(key % hmap.p).toNat]? <;> simp

theorem hashmapLookup_chain {ptr : Option Nat} {chain : List Nat}
    (hb : hmap.bucket[(key % hmap.p).toNat]? = some ptr)
    (hlist : ListAt Node.next nodes ptr chain) :
    hashmapLookup nodes hmap key = .ok (chain.find? fun q => keyAt nodes q = some key) := by
  rw [hashmapLookup, (hashmapBucket_eq h).mpr hb]
  exact hashmapWalk_list hlist key hlist.length_le

/-- What the table holds is found. -/
theorem Holds.lookup {value : UInt64} (hh : Holds nodes hmap key value) :
    ∃ q n, hashmapLookup nodes hmap key = .ok (some q) ∧ nodes[q]? = some n ∧ n.key = key ∧
      n.value = value := by
  obtain ⟨i, ptr, chain, q, n, hb, hlist, hq, hget, hkey, hvalue⟩ := hh
  obtain ⟨chain', hchain⟩ := h.chains i ptr hb
  obtain rfl := hlist.unique hchain.list
  have hat : keyAt nodes q = some key := by rw [keyAt, hget, Option.map_some, hkey]
  obtain rfl := hchain.residue q hq key hat
  have hlookup := hashmapLookup_chain h hb hlist
  cases hfind : chain.find? fun q => keyAt nodes q = some key with
  | none => exact absurd (by simpa using hat) (List.find?_eq_none.mp hfind q hq)
  | some q' =>
      have hat' : keyAt nodes q' = some key := by simpa using List.find?_some hfind
      obtain rfl := hchain.distinct q' (List.mem_of_find?_eq_some hfind) q hq (hat'.trans hat.symm)
      exact ⟨q', n, hlookup.trans (congrArg Except.ok hfind), hget, hkey, hvalue⟩

/-- What is found is in the table. -/
theorem holds_of_lookup {q : Nat} (hq : hashmapLookup nodes hmap key = .ok (some q)) :
    ∃ n, nodes[q]? = some n ∧ n.key = key ∧ Holds nodes hmap key n.value := by
  obtain ⟨ptr, hbucket, hwalk⟩ := bind_eq_ok.mp hq
  have hb := (hashmapBucket_eq h).mp hbucket
  obtain ⟨chain, hchain⟩ := h.chains _ ptr hb
  have hfind := Except.ok.inj (hq.symm.trans (hashmapLookup_chain h hb hchain.list))
  obtain ⟨n, hget, hkey⟩ := Option.map_eq_some_iff.mp (hashmapWalk_key hwalk)
  exact ⟨n, hget, hkey, _, ptr, chain, q, n, hb, hchain.list,
    List.mem_of_find?_eq_some hfind.symm, hget, hkey, rfl⟩

theorem recorded_iff {value : UInt64} :
    recorded nodes hmap key = .ok (some value) ↔ Holds nodes hmap key value := by
  constructor
  · intro hrec
    obtain ⟨ptr, hlookup, hrest⟩ := bind_eq_ok.mp hrec
    cases ptr with
    | none => cases hrest
    | some q =>
        obtain ⟨n, hget, -, hholds⟩ := holds_of_lookup h hlookup
        simp only [hget] at hrest
        obtain rfl := Option.some.inj (Except.ok.inj hrest)
        exact hholds
  · intro hh
    obtain ⟨q, n, hlookup, hget, -, rfl⟩ := hh.lookup h
    simp only [recorded, hlookup, bind, Except.bind, hget]
    rfl

end Lookup

/-- The table as `cfa_init` leaves it: each chain is empty. -/
theorem tableOk_unlinked {hmap : Hashmap} (h : hmap.Unlinked) (nodes : List Node) :
    TableOk nodes hmap where
  pos := by
    obtain rfl := h
    exact fun heq => absurd heq (by decide)
  chains i ptr hb := by
    obtain rfl := h
    obtain ⟨-, rfl⟩ := List.mem_replicate.mp (List.mem_of_getElem? hb)
    exact ⟨[], .nil, fun _ hq => absurd hq List.not_mem_nil, fun _ hq => absurd hq List.not_mem_nil⟩

/-! ## The update -/

section Update

variable {s : TaState} {key : UInt64}

/-- The other keys are as they were. -/
def SameBut (key : UInt64) (s s' : TaState) : Prop :=
  ∀ k ≠ key,
    hashmapLookup s'.nodes s'.ctx.secDataHashmap k = hashmapLookup s.nodes s.ctx.secDataHashmap k ∧
    recorded s'.nodes s'.ctx.secDataHashmap k = recorded s.nodes s.ctx.secDataHashmap k

/-- `hashmap_update` as it should be: it keeps the invariant, and what it
changes is the value of the key. -/
def Stores (s : TaState) (key value : UInt64) : Prop :=
  ∃ s', hashmapUpdate s key value = .ok s' ∧ TableOk s'.nodes s'.ctx.secDataHashmap ∧
    recorded s'.nodes s'.ctx.secDataHashmap key = .ok (some value) ∧ SameBut key s s'

/-- `new_node->value = value`. -/
def setValue (nodes : List Node) (q : Nat) (value : UInt64) : List Node :=
  nodes.modify q fun n => { n with value := value }

theorem setValue_shape (nodes : List Node) (q : Nat) (value : UInt64) (j : Nat) :
    ((setValue nodes q value)[j]?).map (fun n => (n.key, n.next)) =
      (nodes[j]?).map fun n => (n.key, n.next) := by
  rw [setValue, List.getElem?_modify]
  cases nodes[j]? with
  | none => rfl
  | some n => split <;> rfl

theorem hashmapLookup_setValue (nodes : List Node) (q : Nat) (value : UInt64) (hmap : Hashmap)
    (k : UInt64) : hashmapLookup (setValue nodes q value) hmap k = hashmapLookup nodes hmap k :=
  hashmapLookup_congr (List.length_modify ..) (setValue_shape nodes q value) hmap k

theorem TableOk.setValue {nodes : List Node} {hmap : Hashmap} (h : TableOk nodes hmap) (q : Nat)
    (value : UInt64) : TableOk (Ta.setValue nodes q value) hmap where
  pos := h.pos
  chains i ptr hb := by
    obtain ⟨chain, hchain⟩ := h.chains i ptr hb
    have hshape := setValue_shape nodes q value
    refine ⟨chain, hchain.congr (fun j _ => ?_) fun j _ => ?_⟩
    · have hfst := congrArg (Option.map Prod.fst) (hshape j)
      rw [keyAt, keyAt]
      simpa [Option.map_map, Function.comp_def] using hfst
    · have hsnd := congrArg (Option.map Prod.snd) (hshape j)
      simpa [Option.map_map, Function.comp_def] using hsnd

/-- The chains do not see a node that nothing points at. -/
theorem TableOk.append {nodes : List Node} {hmap : Hashmap} (h : TableOk nodes hmap) (n : Node) :
    TableOk (nodes ++ [n]) hmap where
  pos := h.pos
  chains i ptr hb := by
    obtain ⟨chain, hchain⟩ := h.chains i ptr hb
    have hold (q : Nat) (hq : q ∈ chain) : (nodes ++ [n])[q]? = nodes[q]? := by
      obtain ⟨cell, hcell⟩ := hchain.list.cell hq
      exact List.getElem?_append_left (List.getElem?_eq_some_iff.mp hcell).1
    exact ⟨chain, hchain.congr (fun q hq => by rw [keyAt, keyAt, hold q hq])
      fun q hq => by rw [hold q hq]⟩

/-- Every update keeps the invariant. -/
theorem hashmapUpdate_tableOk {s' : TaState} {value : UInt64}
    (h : TableOk s.nodes s.ctx.secDataHashmap) (hupd : hashmapUpdate s key value = .ok s') :
    TableOk s'.nodes s'.ctx.secDataHashmap := by
  rcases hashmapUpdate_ok hupd with ⟨q, -, rfl⟩ | ⟨ptr, -, -, -, rfl⟩
  · exact h.setValue q value
  · exact h.append ⟨key, value, ptr⟩

/-- A key that is there has its node written, and nothing else happens. -/
theorem hashmapUpdate_present (h : TableOk s.nodes s.ctx.secDataHashmap) {q : Nat}
    (hq : hashmapLookup s.nodes s.ctx.secDataHashmap key = .ok (some q)) (value : UInt64) :
    hashmapUpdate s key value = .ok { s with nodes := setValue s.nodes q value } ∧
      ((setValue s.nodes q value)[q]?).map (·.value) = some value ∧
      recorded (setValue s.nodes q value) s.ctx.secDataHashmap key = .ok (some value) ∧
      SameBut key s { s with nodes := setValue s.nodes q value } := by
  obtain ⟨n, hget, hkey, -⟩ := holds_of_lookup h hq
  have hself : (setValue s.nodes q value)[q]? = some { n with value := value } := by
    simp [setValue, hget]
  refine ⟨?_, by rw [hself]; rfl, ?_, fun k hk => ⟨hashmapLookup_setValue .., ?_⟩⟩
  · rw [hashmapUpdate, hq]
    rfl
  · simp only [recorded, hashmapLookup_setValue, hq, bind, Except.bind, hself]
    rfl
  · rw [recorded, recorded, hashmapLookup_setValue]
    cases hlookup : hashmapLookup s.nodes s.ctx.secDataHashmap k with
    | error t => rfl
    | ok ptr =>
        cases ptr with
        | none => rfl
        | some q' =>
            obtain ⟨n', hget', hkey', -⟩ := holds_of_lookup h hlookup
            have hne : q ≠ q' := by
              rintro rfl
              rw [hget] at hget'
              obtain rfl := Option.some.inj hget'
              exact hk (hkey'.symm.trans hkey)
            have hother : (setValue s.nodes q value)[q']? = some n' := by
              simp [setValue, hget', hne]
            simp only [bind, Except.bind, hother, hget']

/-- A key that is not there is not there after the update either. -/
theorem hashmapUpdate_absent {s' : TaState} {value : UInt64}
    (h : TableOk s.nodes s.ctx.secDataHashmap)
    (hnone : hashmapLookup s.nodes s.ctx.secDataHashmap key = .ok none)
    (hupd : hashmapUpdate s key value = .ok s') :
    hashmapLookup s'.nodes s'.ctx.secDataHashmap key = .ok none := by
  rcases hashmapUpdate_ok hupd with ⟨q, hq, -⟩ | ⟨ptr, -, hbucket, -, rfl⟩
  · cases hnone.symm.trans hq
  · have hb := (hashmapBucket_eq h).mp hbucket
    obtain ⟨chain, hchain⟩ := h.chains _ ptr hb
    have hfind := Except.ok.inj (hnone.symm.trans (hashmapLookup_chain h hb hchain.list))
    have happ := hashmapLookup_chain (h.append ⟨key, value, ptr⟩) hb (hchain.list.append _)
    refine happ.trans (congrArg Except.ok (List.find?_eq_none.mpr fun q hq => ?_))
    obtain ⟨cell, hcell⟩ := hchain.list.cell hq
    have hold : keyAt (s.nodes ++ [⟨key, value, ptr⟩]) q = keyAt s.nodes q := by
      rw [keyAt, keyAt, List.getElem?_append_left (List.getElem?_eq_some_iff.mp hcell).1]
    rw [hold]
    exact List.find?_eq_none.mp hfind.symm q hq

/-- `hashmap_update` does what it is for exactly on the keys that are
there already. -/
theorem stores_iff (s : TaState) (key value : UInt64)
    (h : TableOk s.nodes s.ctx.secDataHashmap) :
    Stores s key value ↔ ∃ w, Holds s.nodes s.ctx.secDataHashmap key w := by
  constructor
  · rintro ⟨s', hupd, -, hrec, -⟩
    rcases hashmapUpdate_ok hupd with ⟨q, hq, -⟩ | ⟨ptr, hnone, -, -, -⟩
    · obtain ⟨n, -, -, hholds⟩ := holds_of_lookup h hq
      exact ⟨n.value, hholds⟩
    · simp only [recorded, hashmapUpdate_absent h hnone hupd] at hrec
      cases hrec
  · rintro ⟨w, hholds⟩
    obtain ⟨q, n, hq, -, -, -⟩ := hholds.lookup h
    obtain ⟨hupd, -, hrec, hsame⟩ := hashmapUpdate_present h hq value
    exact ⟨_, hupd, h.setValue q value, hrec, hsame⟩

/-- The table as `cfa_init` leaves it does not take a key. -/
theorem hashmapUpdate_lost :
    ¬ ∀ (s : TaState) (key value : UInt64), TableOk s.nodes s.ctx.secDataHashmap →
      Stores s key value := by
  intro h
  have hempty : (cfaInit (TaState.fresh Store.empty fun _ => true)).ctx.secDataHashmap.Unlinked :=
    rfl
  obtain ⟨s', hupd, -, hrec, -⟩ := h _ 1 5 (tableOk_unlinked hempty _)
  rw [(hashmapUpdate_frame hupd).1, recorded, hashmapLookup_unlinked hempty] at hrec
  cases hrec

end Update

/-! ### A bucket with two keys -/

/-- The keys 1 and 4098 collide. -/
def collided : TaState :=
  { TaState.fresh Store.empty fun _ => true with
    nodes := [⟨1, 5, some 1⟩, ⟨4098, 7, none⟩]
    ctx := { CfaCtx.zero with
      secDataHashmap :=
        ⟨(List.replicate hashmapSize none).set 1 (some 0), UInt64.ofNat hashmapSize⟩ } }

theorem collided_list : ListAt Node.next collided.nodes (some 0) [0, 1] :=
  .cons rfl (.cons rfl .nil)

theorem collided_residue {q : Nat} (hq : q ∈ [0, 1]) {key : UInt64}
    (hkey : keyAt collided.nodes q = some key) :
    (key % collided.ctx.secDataHashmap.p).toNat = 1 := by
  rcases List.mem_cons.mp hq with rfl | hq
  · obtain rfl := Option.some.inj hkey
    rfl
  · obtain rfl := List.mem_singleton.mp hq
    obtain rfl := Option.some.inj hkey
    rfl

theorem collided_tableOk : TableOk collided.nodes collided.ctx.secDataHashmap where
  pos heq := absurd heq (by decide)
  chains i ptr hb := by
    have hget : ((List.replicate hashmapSize none).set 1 (some 0))[i]? = some ptr := hb
    rw [List.getElem?_set, List.length_replicate] at hget
    split at hget
    · rename_i hi
      have hsize : 1 < hashmapSize := by
        unfold hashmapSize
        omega
      rw [if_pos hsize] at hget
      obtain rfl := Option.some.inj hget
      obtain rfl := hi
      exact ⟨[0, 1], collided_list, fun _ hq _ hkey => collided_residue hq hkey, by decide⟩
    · obtain ⟨-, rfl⟩ := List.mem_replicate.mp (List.mem_of_getElem? hget)
      exact ⟨[], .nil, fun _ hq => absurd hq List.not_mem_nil,
        fun _ hq => absurd hq List.not_mem_nil⟩

theorem collided_holds : Holds collided.nodes collided.ctx.secDataHashmap 4098 7 :=
  ⟨1, some 0, [0, 1], 1, ⟨4098, 7, none⟩, rfl, collided_list, by decide, rfl, rfl, rfl⟩

theorem stores_iff_collided :
    TableOk collided.nodes collided.ctx.secDataHashmap ∧ Stores collided 4098 9 :=
  ⟨collided_tableOk, (stores_iff collided 4098 9 collided_tableOk).mpr ⟨7, collided_holds⟩⟩

/-! ## The use check -/

/-- A USE event as it should be handled, when its address has `w` on
record: it is reported together with `w` if it carries another value,
which is then on record. -/
def ReportsUse (s : TaState) (evt : CfaEvent) (w : UInt64) : Prop :=
  ∃ s', dataEvent s evt = .ok s' ∧
    s'.dmsg = s.dmsg ++ (if w ≠ evt.b then [.valueNotMatch evt.a evt.b w] else []) ∧
    recorded s'.nodes s'.ctx.secDataHashmap evt.a = .ok (some evt.b) ∧ SameBut evt.a s s'

/-- What comes out: the report has the new value twice. -/
theorem dataEvent_use_present {s : TaState} {evt : CfaEvent} {w : UInt64}
    (h : TableOk s.nodes s.ctx.secDataHashmap) (huse : evt.etype = cfvEventDataUse)
    (hholds : Holds s.nodes s.ctx.secDataHashmap evt.a w) :
    ∃ s', dataEvent s evt = .ok s' ∧
      s'.dmsg = s.dmsg ++ (if w ≠ evt.b then [.valueNotMatch evt.a evt.b evt.b] else []) ∧
      recorded s'.nodes s'.ctx.secDataHashmap evt.a = .ok (some evt.b) ∧ SameBut evt.a s s' := by
  obtain ⟨q, n, hq, hget, -, rfl⟩ := hholds.lookup h
  obtain ⟨hupd, hvalue, hrec, hsame⟩ := hashmapUpdate_present h hq evt.b
  obtain ⟨n', hget', hvalue'⟩ := Option.map_eq_some_iff.mp hvalue
  have hevent : dataEvent s evt = if n.value ≠ evt.b then
      .ok { s with nodes := setValue s.nodes q evt.b,
                   dmsg := s.dmsg ++ [.valueNotMatch evt.a evt.b evt.b] } else .ok s := by
    rw [dataEvent, if_neg (by rw [huse]; exact cfvEventDataUse_ne_def), if_pos huse, hq]
    simp only [bind, Except.bind, hget, hupd, hget', hvalue']
    rfl
  rw [hevent]
  by_cases hw : n.value = evt.b
  · rw [if_neg (not_not.mpr hw)]
    refine ⟨s, rfl, ?_, ?_, fun k _ => ⟨rfl, rfl⟩⟩
    · rw [if_neg (not_not.mpr hw), List.append_nil]
    · rw [← hw]
      exact (recorded_iff h).mpr hholds
  · rw [if_pos hw]
    exact ⟨_, rfl, by rw [if_pos hw], hrec, hsame⟩

/-- The report is right exactly when there is nothing to report. -/
theorem reportsUse_iff (s : TaState) (evt : CfaEvent) (w : UInt64)
    (h : TableOk s.nodes s.ctx.secDataHashmap) (huse : evt.etype = cfvEventDataUse)
    (hholds : Holds s.nodes s.ctx.secDataHashmap evt.a w) : ReportsUse s evt w ↔ w = evt.b := by
  obtain ⟨s₁, hevent, hdmsg, hrec, hsame⟩ := dataEvent_use_present h huse hholds
  constructor
  · rintro ⟨s₂, hevent₂, hdmsg₂, -⟩
    obtain rfl := Except.ok.inj (hevent.symm.trans hevent₂)
    by_contra hw
    rw [hdmsg, if_pos hw, if_pos hw] at hdmsg₂
    simp only [List.append_cancel_left_eq, List.cons.injEq, UseCheckFail.valueNotMatch.injEq,
      true_and, and_true] at hdmsg₂
    exact hw hdmsg₂.symm
  · rintro hw
    refine ⟨s₁, hevent, ?_, hrec, hsame⟩
    rw [hdmsg, if_neg (not_not.mpr hw), if_neg (not_not.mpr hw)]

theorem reportsUse_iff_collided :
    ReportsUse collided ⟨cfvEventDataUse, 4098, 7⟩ 7 ↔ (7 : UInt64) = 7 :=
  reportsUse_iff collided ⟨cfvEventDataUse, 4098, 7⟩ 7 collided_tableOk rfl collided_holds

/-- A use of 9 where 7 is on record: the report says 9 and 9. -/
theorem use_misreported :
    ¬ ∀ (s : TaState) (evt : CfaEvent) (w : UInt64), TableOk s.nodes s.ctx.secDataHashmap →
      evt.etype = cfvEventDataUse → Holds s.nodes s.ctx.secDataHashmap evt.a w →
      ReportsUse s evt w := by
  intro h
  obtain ⟨s₁, hevent₁, hdmsg₁, -⟩ := h collided ⟨cfvEventDataUse, 4098, 9⟩ 7 collided_tableOk rfl
    collided_holds
  have huse : (CfaEvent.mk cfvEventDataUse 4098 9).etype = cfvEventDataUse := rfl
  obtain ⟨s₂, hevent₂, hdmsg₂, -⟩ := dataEvent_use_present collided_tableOk huse collided_holds
  obtain rfl := Except.ok.inj (hevent₁.symm.trans hevent₂)
  have hsame := hdmsg₁.symm.trans hdmsg₂
  revert hsame
  decide

end Ta

end Oat
