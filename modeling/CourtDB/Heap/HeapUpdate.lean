/-
# UpdateRecord of a heap file

An update has three ends.  The page accepts the record and stays a slotted page; or it accepts a
record that it has no room for (`RelocatesBeyond`); or it refuses, and then the heap file deletes
the old record, counts it off, and inserts the new one as it would insert any other.
`Ok.updateRecord` says what is known at each of them.

At the second end little is known of the page any more: the bytes of the new record may have been
written over the directory, or over other records.  What is still known is enough for the chain: the
link of the page is in a header field, and the directory has as many slots as before.

At the third end there are two calls where the caller sees one.  The deletion stays also when the
insertion fails, so a record that fits on no page is lost by an update that is refused.
-/
import CourtDB.Heap.HeapOps
import CourtDB.Storage.PageUpdate

namespace CourtDB

namespace Page

variable {p q : Page} {slotId : UInt16} {r : RecordData}

/-- A page after `UpdateRecord` links where it linked before. -/
theorem updateRecord_next (slotId : UInt16) (r : RecordData) :
    (p.updateRecord slotId r).2.getNextPageId = p.getNextPageId := by
  unfold updateRecord
  split
  · rfl
  · split
    · rfl
    · dsimp only
      split <;> rfl

/-- The directory stays where it is. -/
theorem DirectoryFits.updateRecord (h : p.DirectoryFits) (slotId : UInt16) (r : RecordData) :
    (p.updateRecord slotId r).2.DirectoryFits := by
  unfold Page.updateRecord
  split
  · exact h
  · split
    · exact ⟨(List.length_set ..).trans h.1, h.2⟩
    · dsimp only
      split
      · exact h
      · exact ⟨(List.length_set ..).trans h.1, h.2⟩

/-- Whether an update overruns its page can be read off either of two pages of one content. -/
theorem SameContent.relocatesBeyond_iff (h : p.SameContent q) :
    p.RelocatesBeyond slotId r ↔ q.RelocatesBeyond slotId r := by
  unfold RelocatesBeyond getFreeSpace slot
  rw [h.header, h.slots]

/-- **An accepted update that does not overrun the page** replaces the record. -/
theorem Layout.updateRecord_store (h : p.Layout) (hok : (p.updateRecord slotId r).1 = true)
    (hno : ¬ p.RelocatesBeyond slotId r) :
    (p.updateRecord slotId r).2.Layout ∧ (p.store slotId).isSome ∧
      (p.updateRecord slotId r).2.store = Function.update p.store slotId (some r.bytes) := by
  have hfree := toNat_getFreeSpace h.offset_le
  have hlen := RecordData.toNat_length r
  rcases updateRecord_cases h.slots_length slotId r with ⟨-, heq⟩ | ⟨-, -, -, heq⟩ |
    ⟨s, hs, hle, -⟩ | ⟨s, hs, hlt, hle, -⟩
  · rw [heq] at hok
    exact absurd hok (by simp)
  · rw [heq] at hok
    exact absurd hok (by simp)
  all_goals
    have hroom : p.HasRoomFor slotId r := by
      rw [HasRoomFor, hs.slot_eq]
      first
      | exact Or.inl hle
      | refine Or.inr ?_
        by_contra hbig
        refine hno ?_
        rcases liveAt_or h.slots_length slotId with ⟨-, hdead⟩ | ⟨h1, h2, -⟩
        · exact absurd hs (hdead s)
        · rw [RelocatesBeyond, hs.slot_eq]
          rw [hs.slot_eq] at h2
          refine ⟨h1, h2, UInt16.lt_iff_toNat_lt.mpr (by omega), UInt16.le_iff_toNat_le.mpr ?_,
            UInt16.lt_iff_toNat_lt.mpr (by omega)⟩
          rw [toNat_sub16 (by omega)]
          omega
    obtain ⟨-, hlay, hrec⟩ := h.updateRecord hs hroom
    refine ⟨hlay, ?_, ?_⟩
    · rw [h.store_apply, recordAt_of_liveAt hs]
      rfl
    · funext j
      rw [hlay.store_apply, hrec, update_apply_toNat, h.store_apply]

/-- A record that a page accepts without room for it is no longer than that either. -/
theorem RelocatesBeyond.length_le (h : p.Layout) (hb : p.RelocatesBeyond slotId r) :
    r.bytes.length ≤ 4072 := by
  obtain ⟨h1, h2, h3, h4, -⟩ := hb
  have hlen := RecordData.toNat_length r
  have hfree := toNat_getFreeSpace h.offset_le
  rcases liveAt_or h.slots_length slotId with ⟨hdead, -⟩ | ⟨-, -, hs⟩
  · exact absurd (hdead.resolve_left h1) (by rw [h2]; exact Bool.false_ne_true)
  · have h3' := UInt16.lt_iff_toNat_lt.mp h3
    have h4' := UInt16.le_iff_toNat_le.mp h4
    rw [toNat_sub16 h3'.le] at h4'
    have h5 := h.mem_range _ _ hs
    have h6 := h.offset_eq
    have h7 := h.offset_le
    have h8 := hs.lt
    have h9 := h.slots_length
    simp only [pageSize] at *
    omega

/-- An empty record fits into the place of any other. -/
theorem Layout.updateRecord_empty (h : p.Layout) (hsome : (p.store slotId).isSome)
    (hr : r.bytes.length = 0) : (p.updateRecord slotId r).1 = true := by
  rw [h.store_apply] at hsome
  obtain ⟨s, hs⟩ := recordAt_isSome_iff.mp hsome
  exact (h.updateRecord hs (Or.inl (by omega))).1

end Page

namespace HeapState

open HeapFile PoolM

variable {mode : PoolMode} {n : Nat} {s t : HeapState}

/-- **UpdateRecord**, on a record id with a page of this heap file. -/
theorem Ok.updateRecord (h : s.Ok) (hserve : mode.Serves n 1) {rid : RID}
    (hid : rid.pageId ∈ s.chain) (r : RecordData)
    (hnew : ∀ t, s.Evolves t → mode.Creates n t.pages) {Q : RID × HeapFile → View → Prop}
    (hbeyond : ∀ q v, s.pages rid.pageId = some q → q.RelocatesBeyond rid.slotId r →
      Q (rid, s.heap) v)
    (hplace : ∀ t : HeapState, s.Extends t → t.heap = s.heap → (s.stored rid).isSome →
      t.stored = Function.update s.stored rid (some r.bytes) →
      Q (rid, t.heap) (View.quiet n t.pages))
    (hmove : ∀ (u t : HeapState) (rid' : RID), s.Extends u →
      u.stored = Function.update s.stored rid none →
      u.heap = { s.heap with recordCount := s.heap.recordCount - 1 } →
      ((s.stored rid).isSome → 0 < r.bytes.length) → u.Extends t → u.Inserts t (.data r) rid' →
      u.Searches t (.data r) rid' → Q (rid', t.heap) (View.quiet n t.pages)) :
    (s.heap.updateRecord rid r).wp mode Q (View.quiet n s.pages) := by
  unfold HeapFile.updateRecord
  rw [if_pos (isValid_of_mem h hid rid.slotId), wp, Program.wp_bind]
  refine h.fetch (hserve.mono (Nat.zero_le 1)) hid fun q hq hql => ?_
  simp only [if_true]
  rw [Program.wp_bind]
  refine wp_read_held hq fun p hp => ?_
  have hpl : p.Layout := hp.symm.layout hql
  have hsame : s.stored rid = p.store rid.slotId := by
    rw [stored, if_pos hid, hq, Option.bind_some, hp.store hpl]
  cases hupd : p.updateRecord rid.slotId r with
  | mk ok p' =>
    have hfits := hpl.directoryFits.updateRecord rid.slotId r
    have hnext := Page.updateRecord_next (p := p) rid.slotId r
    rw [hupd] at hfits hnext
    cases ok with
    | true =>
      simp only []
      rw [Program.wp_bind]
      refine wp_write_held hq hfits ?_
      rw [Program.wp_bind]
      refine wp_unpin_held (fun _ => rfl) ?_
      -- accepted, with or without room for it
      by_cases hover : q.RelocatesBeyond rid.slotId r
      · exact hbeyond q _ hq hover
      · obtain ⟨hlay, hsome, hst⟩ := hpl.updateRecord_store (by rw [hupd])
          (fun hb => hover (hp.relocatesBeyond_iff.mp hb))
        rw [hupd] at hlay hst
        rw [hp.store hpl] at hst
        have hev := h.setPage hid hq hlay (hnext.trans hp.getNextPageId)
        exact hplace _ (hev.extends rfl rfl) rfl (hsame ▸ hsome) (stored_setPage hid hq hst)
    | false =>
      -- the record goes, and its page is not listed for it
      obtain ⟨-, -, hlay, hst⟩ := hpl.deleteRecord_store rid.slotId
      have hlink := Page.deleteRecord_next (p := p) rid.slotId
      rw [hp.store hpl] at hst
      simp only []
      rw [Program.wp_bind]
      refine wp_write_held hq hlay.directoryFits ?_
      rw [Program.wp_bind]
      refine wp_unpin_held (fun _ => rfl) ?_
      have hev := h.setPage hid hq hlay (hlink.trans hp.getNextPageId)
      have hev' := hev.ok.withHeap
        { s.heap with recordCount := s.heap.recordCount - 1 } rfl rfl h.listed
      have hu := (hev.trans hev').extends rfl rfl
      refine hu.ok.insertRecord hserve (.data r) (fun t ht => hnew t (hu.toEvolves.trans ht))
        fun rid' t hext hins hsea => hmove _ t rid' hu (stored_setPage hid hq hst) rfl
          (fun hsome => Nat.pos_of_ne_zero fun hz => ?_) hext hins hsea
      -- a record that was there and is replaced by an empty one would have been accepted
      have hok := hpl.updateRecord_empty (hsame ▸ hsome) hz
      rw [hupd] at hok
      exact absurd hok (by simp)

end HeapState

end CourtDB
