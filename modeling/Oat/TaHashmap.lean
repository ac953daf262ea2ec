import Oat.FoldRun
import Oat.TaEvents

/-!
# The def-use map as the TA runs it

`hashmap_update` never links the node it inserts, so a map whose buckets
are all NULL stays that way: `hashmapUpdate_ok` is the inversion lemma,
and no call of it changes the context (`hashmapUpdate_frame`). On such a
map (`Hashmap.Unlinked`) every lookup fails, every update inserts, and
every use check fails (`dataEvent_use_unlinked`).
-/

namespace Oat

namespace Ta

/-! ## What an update can do -/

/-- An update that returns has modified a node in place, or has put a
new one on the heap. -/
theorem hashmapUpdate_ok {s s' : TaState} {key value : UInt64}
    (h : hashmapUpdate s key value = .ok s') :
    (∃ node, hashmapLookup s.nodes s.ctx.secDataHashmap key = .ok (some node)
        ∧ s' = { s with nodes := s.nodes.modify node fun n => { n with value := value } })
      ∨ (∃ ptr, hashmapLookup s.nodes s.ctx.secDataHashmap key = .ok none
        ∧ hashmapBucket s.ctx.secDataHashmap key = .ok ptr
        ∧ s.mallocs 0 = true
        ∧ s' = { (teeMalloc s).2 with nodes := s.nodes ++ [⟨key, value, ptr⟩] }) := by
  obtain ⟨found, hfound, hrest⟩ := bind_eq_ok.mp h
  cases found with
  | some node => exact Or.inl ⟨node, hfound, (Except.ok.inj hrest).symm⟩
  | none =>
      cases hm : s.mallocs 0 with
      | false =>
          simp only [teeMalloc, hm] at hrest
          cases hrest
      | true =>
          simp only [teeMalloc, hm] at hrest
          obtain ⟨ptr, hptr, hret⟩ := bind_eq_ok.mp hrest
          exact Or.inr ⟨ptr, hfound, hptr, rfl, (Except.ok.inj hret).symm⟩

theorem hashmapUpdate_frame {s s' : TaState} {key value : UInt64}
    (h : hashmapUpdate s key value = .ok s') :
    s'.ctx = s.ctx ∧ s'.store = s.store ∧ s'.dmsg = s.dmsg := by
  rcases hashmapUpdate_ok h with ⟨node, -, rfl⟩ | ⟨ptr, -, -, -, rfl⟩ <;> exact ⟨rfl, rfl, rfl⟩

theorem hashmapUpdate_mallocs {s s' : TaState} {key value : UInt64}
    (h : hashmapUpdate s key value = .ok s') (hm : s.MallocsSucceed) : s'.MallocsSucceed := by
  rcases hashmapUpdate_ok h with ⟨node, -, rfl⟩ | ⟨ptr, -, -, -, rfl⟩
  · exact hm
  · exact fun n => hm (n + 1)

/-! ## A map with no linked node -/

/-- The map as `cfa_init` leaves it. -/
def Hashmap.Unlinked (hmap : Hashmap) : Prop :=
  hmap = ⟨List.replicate hashmapSize none, UInt64.ofNat hashmapSize⟩

theorem hashmapBucket_unlinked {hmap : Hashmap} (h : hmap.Unlinked) (key : UInt64) :
    hashmapBucket hmap key = .ok none := by
  obtain rfl := h
  have hp : (UInt64.ofNat hashmapSize).toNat = hashmapSize := rfl
  have hlt : (key % UInt64.ofNat hashmapSize).toNat < hashmapSize := by
    rw [UInt64.toNat_mod, hp]
    exact Nat.mod_lt _ (by decide)
  rw [hashmapBucket, if_neg (by decide), List.getElem?_replicate, if_pos hlt]

theorem hashmapLookup_unlinked {hmap : Hashmap} (h : hmap.Unlinked) (nodes : List Node)
    (key : UInt64) : hashmapLookup nodes hmap key = .ok none := by
  rw [hashmapLookup, hashmapBucket_unlinked h]
  change hashmapWalk nodes key nodes.length none = .ok none
  cases nodes.length <;> rfl

/-- On an unlinked map an update allocates a node, which nothing comes
to point at. -/
theorem hashmapUpdate_unlinked {s : TaState} (h : s.ctx.secDataHashmap.Unlinked)
    (hm : s.mallocs 0 = true) (key value : UInt64) :
    hashmapUpdate s key value
      = .ok { (teeMalloc s).2 with nodes := s.nodes ++ [⟨key, value, none⟩] } := by
  rw [hashmapUpdate, hashmapLookup_unlinked h]
  simp only [bind, Except.bind, teeMalloc, hm, hashmapBucket_unlinked h]
  rfl

theorem hashmapUpdate_unlinked_fail {s : TaState} (h : s.ctx.secDataHashmap.Unlinked)
    (hm : s.mallocs 0 = false) (key value : UInt64) :
    hashmapUpdate s key value = .error .nullPointer := by
  rw [hashmapUpdate, hashmapLookup_unlinked h]
  simp only [bind, Except.bind, teeMalloc, hm]

/-! ## The data events -/

theorem dataEvent_def {s : TaState} {evt : CfaEvent} (h : evt.etype = cfvEventDataDef) :
    dataEvent s evt = hashmapUpdate s evt.a evt.b := by
  rw [dataEvent, if_pos h]

theorem cfvEventDataUse_ne_def : cfvEventDataUse ≠ cfvEventDataDef := by decide

theorem dataEvent_use_unlinked {s : TaState} {evt : CfaEvent} (h : evt.etype = cfvEventDataUse)
    (hmap : s.ctx.secDataHashmap.Unlinked) :
    dataEvent s evt = hashmapUpdate s evt.a evt.b >>= fun s =>
      .ok { s with dmsg := s.dmsg ++ [.noDefineRecord evt.a evt.b] } := by
  rw [dataEvent, if_neg (by rw [h]; exact cfvEventDataUse_ne_def), if_pos h,
    hashmapLookup_unlinked hmap]
  rfl

theorem dataEvent_frame {s s' : TaState} {evt : CfaEvent} (h : dataEvent s evt = .ok s') :
    s'.ctx = s.ctx ∧ s'.store = s.store := by
  unfold dataEvent at h
  split at h
  · obtain ⟨hctx, hstore, -⟩ := hashmapUpdate_frame h
    exact ⟨hctx, hstore⟩
  · split at h
    · obtain ⟨ptr, -, hrest⟩ := bind_eq_ok.mp h
      cases ptr with
      | none =>
          obtain ⟨s₁, hupd, hret⟩ := bind_eq_ok.mp hrest
          obtain ⟨hctx, hstore, -⟩ := hashmapUpdate_frame hupd
          obtain rfl := Except.ok.inj hret
          exact ⟨hctx, hstore⟩
      | some node =>
          simp only at hrest
          split at hrest
          · cases hrest
          · split at hrest
            · obtain ⟨s₁, hupd, hret⟩ := bind_eq_ok.mp hrest
              obtain ⟨hctx, hstore, -⟩ := hashmapUpdate_frame hupd
              split at hret
              · cases hret
              · obtain rfl := Except.ok.inj hret
                exact ⟨hctx, hstore⟩
            · obtain rfl := Except.ok.inj hrest
              exact ⟨rfl, rfl⟩
    · obtain rfl := Except.ok.inj h
      exact ⟨rfl, rfl⟩

/-- On an unlinked map a data event goes through, unless there is no
memory for a node. -/
theorem dataEvent_unlinked {s : TaState} (hmap : s.ctx.secDataHashmap.Unlinked)
    (evt : CfaEvent) :
    (∃ s', dataEvent s evt = .ok s' ∧ (s.MallocsSucceed → s'.MallocsSucceed))
      ∨ (s.mallocs 0 = false ∧ dataEvent s evt = .error .nullPointer) := by
  by_cases hdef : evt.etype = cfvEventDataDef
  · rw [dataEvent_def hdef]
    cases hm : s.mallocs 0 with
    | true =>
        have hupd := hashmapUpdate_unlinked hmap hm evt.a evt.b
        exact Or.inl ⟨_, hupd, hashmapUpdate_mallocs hupd⟩
    | false => exact Or.inr ⟨rfl, hashmapUpdate_unlinked_fail hmap hm evt.a evt.b⟩
  · by_cases huse : evt.etype = cfvEventDataUse
    · rw [dataEvent_use_unlinked huse hmap]
      cases hm : s.mallocs 0 with
      | true =>
          rw [hashmapUpdate_unlinked hmap hm]
          exact Or.inl ⟨_, rfl, fun hall n => hall (n + 1)⟩
      | false =>
          rw [hashmapUpdate_unlinked_fail hmap hm]
          exact Or.inr ⟨rfl, rfl⟩
    · rw [dataEvent, if_neg hdef, if_neg huse]
      exact Or.inl ⟨s, rfl, id⟩

end Ta

end Oat
