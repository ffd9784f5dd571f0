/-
# When UpdateRecord is safe

`UpdateRecord` has two branches with different accounts of space.  A record that does not grow is
overwritten where it is.  One that grows is written anew below the data region, and there it needs
room for all of its bytes; but the check (`new_space_needed > GetFreeSpace()`) asks for the
difference between the two lengths only.

So `updateRecord_safe_iff` is an equivalence.  Everything is as it should be, for every page and
every record, unless the record grows by no more than the free space and is itself longer than that
(`RelocatesBeyond`).  In that case the record is written over the slot directory.

The invariant is here the layout alone (`SlotLayout`), read as sets of bytes: no counter is needed.
-/
import CourtDB.Storage.PageImage

namespace CourtDB

open Bytes

/-- Byte `k` of the page belongs to the record that the entry describes. -/
def SlotEntry.Covers (s : SlotEntry) (k : Nat) : Prop :=
  s.offset.toNat ≤ k ∧ k < s.offset.toNat + s.length.toNat

namespace Page

variable {p q : Page} {slotId : UInt16} {r : RecordData}

/-! ## 1. The layout -/

/-- The directory ends where the header says, below the data region, and the live records are
disjoint sets of bytes of that region. -/
structure SlotLayout (p : Page) : Prop where
  slots_length : p.slots.length = p.header.numSlots.toNat
  offset_eq : 20 + 4 * p.header.numSlots.toNat = p.header.freeSpaceOffset.toNat
  offset_le : p.header.freeSpaceOffset.toNat ≤ p.header.freeSpaceEnd.toNat
  end_le : p.header.freeSpaceEnd.toNat ≤ pageSize
  mem_range : ∀ i s, p.LiveAt i s → ∀ k, s.Covers k →
    p.header.freeSpaceEnd.toNat ≤ k ∧ k < pageSize
  disjoint : ∀ i j s t, i ≠ j → p.LiveAt i s → p.LiveAt j t → ∀ k, s.Covers k → ¬ t.Covers k

/-- Pages that are used through the record operations have it. -/
theorem Layout.slotLayout (h : p.Layout) : p.SlotLayout where
  slots_length := h.slots_length
  offset_eq := h.offset_eq.symm
  offset_le := h.offset_le
  end_le := h.end_le
  mem_range i s hs k hk := by
    obtain ⟨h1, h2⟩ := h.mem_range i s hs
    exact ⟨h1.trans hk.1, lt_of_lt_of_le hk.2 h2⟩
  disjoint i j s t hij hs ht k hk hk' := by
    have hd := h.disjoint i j s t hij hs ht
    unfold SlotEntry.Covers at hk hk'
    omega

namespace SlotLayout

theorem directoryFits (h : p.SlotLayout) : p.DirectoryFits :=
  ⟨h.slots_length, h.offset_eq ▸ h.offset_le.trans h.end_le⟩

/-- The bytes of two pages that are compared for a record. -/
theorem read_congr {s : SlotEntry} {b b' : Buf} (h : ∀ k, s.Covers k → b k = b' k) :
    b.read s.offset.toNat s.length.toNat = b'.read s.offset.toNat s.length.toNat :=
  Buf.read_congr fun k h1 h2 => h k ⟨h1, h2⟩

/-- **A record is replaced**, by one whose bytes lie in the data region and in no other record.
Both branches of `UpdateRecord` do this when they are right. -/
theorem replace (h : p.SlotLayout) {i : Nat} {s e : SlotEntry} {bs : List UInt8}
    (hs : p.LiveAt i s) (he : e.isEmpty = false) (hlen : e.length.toNat = bs.length)
    (hslots : q.slots = p.slots.set i e) (hdata : q.data = p.data.write e.offset.toNat bs)
    (hnum : q.header.numSlots = p.header.numSlots)
    (hoff : q.header.freeSpaceOffset = p.header.freeSpaceOffset)
    (hend : p.header.freeSpaceOffset.toNat ≤ q.header.freeSpaceEnd.toNat ∧
      q.header.freeSpaceEnd.toNat ≤ p.header.freeSpaceEnd.toNat)
    (hnew : ∀ k, e.Covers k → q.header.freeSpaceEnd.toNat ≤ k ∧ k < pageSize ∧
      ∀ j t, j ≠ i → p.LiveAt j t → ¬ t.Covers k) :
    q.SlotLayout ∧ ∀ j, q.recordAt j = if j = i then some bs else p.recordAt j := by
  -- all live slots but one are the old ones
  have hlive := liveAt_of_set hslots hs.lt
  refine ⟨⟨?_, ?_, ?_, hend.2.trans h.end_le, ?_, ?_⟩, fun j => ?_⟩
  · rw [hslots, List.length_set, hnum]
    exact h.slots_length
  · rw [hnum, hoff]
    exact h.offset_eq
  · rw [hoff]
    exact hend.1
  · -- every record lies in the data region
    intro j t ht k hk
    rcases (hlive j t).mp ht with ⟨-, rfl, -⟩ | ⟨-, ht⟩
    · exact ⟨(hnew k hk).1, (hnew k hk).2.1⟩
    · obtain ⟨h1, h2⟩ := h.mem_range j t ht k hk
      exact ⟨hend.2.trans h1, h2⟩
  · -- no two records overlap: the new one by assumption, the others as before
    intro j l t u hjl ht hu k hk hk'
    rcases (hlive j t).mp ht with ⟨hj, rfl, -⟩ | ⟨hj, ht⟩ <;>
      rcases (hlive l u).mp hu with ⟨hl, rfl, -⟩ | ⟨hl, hu⟩
    · exact hjl (hj.trans hl.symm)
    · exact (hnew k hk).2.2 l u hl hu hk'
    · exact (hnew k hk').2.2 j t hj ht hk
    · exact h.disjoint j l t u hjl ht hu k hk hk'
  · -- the slot has the new bytes, and no byte of another record was written
    by_cases hj : j = i
    · rw [if_pos hj, recordAt_of_liveAt ((hlive j e).mpr (Or.inl ⟨hj, rfl, he⟩)), hdata, hlen,
        Buf.read_write_self]
    · rw [if_neg hj]
      refine recordAt_congr (fun t => by rw [hlive]; simp [hj]) fun t ht => ?_
      have ht' : p.LiveAt j t := by simpa [hlive, hj] using ht
      refine read_congr fun k hk => ?_
      rw [hdata]
      refine Buf.write_apply_of_not_mem ?_
      by_contra hin
      exact (hnew k (by unfold SlotEntry.Covers; omega)).2.2 j t hj ht' hk

/-- A record that does not grow stays where it is. -/
theorem overwrite (h : p.SlotLayout) {s : SlotEntry} (hs : p.LiveAt slotId.toNat s)
    (hr : r.bytes.length ≤ s.length.toNat) :
    (p.overwrite slotId r).SlotLayout ∧ ∀ j, (p.overwrite slotId r).recordAt j
      = if j = slotId.toNat then some r.bytes else p.recordAt j := by
  have hlen := RecordData.toNat_length r
  have hslot := hs.slot_eq
  have hsub : ∀ k, (SlotEntry.mk s.offset r.length).Covers k → s.Covers k := by
    intro k hk
    unfold SlotEntry.Covers at *
    dsimp only at hk
    omega
  refine h.replace hs (e := ⟨s.offset, r.length⟩) ?_ hlen ?_ ?_ rfl rfl
    ⟨h.offset_le, le_refl _⟩ fun k hk => ?_
  · -- the entry of a live record starts behind the header, or is empty of bytes
    by_contra hempty
    have ho : s.offset = 0 := by
      simp only [SlotEntry.isEmpty, Bool.not_eq_false, Bool.and_eq_true, beq_iff_eq] at hempty
      exact hempty.1
    by_cases hz : s.length = 0
    · have := hs.2
      rw [SlotEntry.isEmpty, ho, hz] at this
      exact absurd this (by decide)
    · have hpos : s.Covers 0 := by
        refine ⟨by rw [ho]; exact le_refl 0, ?_⟩
        have : 0 < s.length.toNat := Nat.pos_of_ne_zero fun he => hz (UInt16.toNat_inj.mp he)
        omega
      have h1 := (h.mem_range _ s hs 0 hpos).1
      have h2 := h.offset_eq
      have h3 := h.offset_le
      omega
  · rw [Page.overwrite, hslot]
  · rw [Page.overwrite, hslot]
  · obtain ⟨h1, h2⟩ := h.mem_range _ s hs k (hsub k hk)
    exact ⟨h1, h2, fun j t hj ht => h.disjoint _ _ s t (Ne.symm hj) hs ht k (hsub k hk)⟩

/-- A record that grows moves into the free space, if all of it fits there. -/
theorem relocate (h : p.SlotLayout) {s : SlotEntry} (hs : p.LiveAt slotId.toNat s)
    (hgrow : 0 < r.bytes.length)
    (hr : p.header.freeSpaceOffset.toNat + r.bytes.length ≤ p.header.freeSpaceEnd.toNat) :
    (p.relocate slotId r).SlotLayout ∧ ∀ j, (p.relocate slotId r).recordAt j
      = if j = slotId.toNat then some r.bytes else p.recordAt j := by
  have hlen := RecordData.toNat_length r
  have hoff : (p.header.freeSpaceEnd - r.length).toNat
      = p.header.freeSpaceEnd.toNat - r.bytes.length := by rw [toNat_sub16 (by omega), hlen]
  have hend := h.end_le
  refine h.replace hs (e := ⟨p.header.freeSpaceEnd - r.length, r.length⟩) ?_ hlen rfl rfl rfl rfl
    ⟨?_, ?_⟩ fun k hk => ?_
  · refine SlotEntry.isEmpty_of_length_ne fun hz => ?_
    rw [hz] at hlen
    exact absurd hlen (Nat.ne_of_lt hgrow)
  · change _ ≤ (p.header.freeSpaceEnd - r.length).toNat
    omega
  · change (p.header.freeSpaceEnd - r.length).toNat ≤ _
    omega
  · obtain ⟨h1, h2⟩ := hk
    simp only [hlen, hoff] at h1 h2
    refine ⟨?_, by omega, fun j t _ ht hk' => ?_⟩
    · change (p.header.freeSpaceEnd - r.length).toNat ≤ k
      omega
    · have := (h.mem_range j t ht k hk').1
      omega

/-- The passage through the raw bytes keeps the records. -/
theorem reload (h : p.SlotLayout) (frame : Page) (j : UInt16) :
    (frame.loadFrom p.serializeToBuffer.data).getRecord j = p.getRecord j := by
  have hsame := sameContent_loadFrom_serialize frame h.directoryFits
  have hlen := (hsame.symm.directoryFits h.directoryFits).1
  rw [getRecord_eq hlen, getRecord_eq h.slots_length]
  refine recordAt_congr (hsame.liveAt_iff _) fun s hs => read_congr fun k hk => ?_
  obtain ⟨h1, h2⟩ := h.mem_range _ s ((hsame.liveAt_iff _ s).mp hs) k hk
  have h3 := h.offset_eq
  have h4 := h.offset_le
  refine hsame.data k h2 (Or.inr ?_)
  rw [hsame.header]
  omega

end SlotLayout

/-! ## 2. The equivalence -/

/-- What `UpdateRecord` owes its caller, on a page with the layout. -/
structure UpdateSafe (p : Page) (slotId : UInt16) (r : RecordData) : Prop where
  reads : (p.updateRecord slotId r).1 = true →
    (p.updateRecord slotId r).2.getRecord slotId = some r.bytes
  others : (p.updateRecord slotId r).1 = true →
    ∀ j, j ≠ slotId → (p.updateRecord slotId r).2.getRecord j = p.getRecord j
  layout : (p.updateRecord slotId r).1 = true → (p.updateRecord slotId r).2.SlotLayout
  reloads : (p.updateRecord slotId r).1 = true → ∀ (frame : Page) (j : UInt16),
    (frame.loadFrom (p.updateRecord slotId r).2.serializeToBuffer.data).getRecord j
      = (p.updateRecord slotId r).2.getRecord j
  refused : (p.updateRecord slotId r).1 = false → (p.updateRecord slotId r).2 = p

/-- A live record is replaced by a longer one, the difference fits into the free space, and the new
record itself does not. -/
def RelocatesBeyond (p : Page) (slotId : UInt16) (r : RecordData) : Prop :=
  ¬ slotId ≥ p.header.numSlots ∧ (p.slot slotId).isEmpty = false ∧
    (p.slot slotId).length < r.length ∧
    r.length - (p.slot slotId).length ≤ p.getFreeSpace ∧ p.getFreeSpace < r.length

instance (p : Page) (slotId : UInt16) (r : RecordData) : Decidable (p.RelocatesBeyond slotId r) :=
  inferInstanceAs (Decidable (_ ∧ _ ∧ _ ∧ _ ∧ _))

/-- An update that is refused and changes nothing. -/
theorem updateSafe_of_refused (heq : p.updateRecord slotId r = (false, p)) :
    p.UpdateSafe slotId r := by
  have hno : ¬ (p.updateRecord slotId r).1 = true := by rw [heq]; exact Bool.false_ne_true
  exact ⟨fun h => absurd h hno, fun h => absurd h hno, fun h => absurd h hno,
    fun h => absurd h hno, fun _ => by rw [heq]⟩

/-- The slot reads back the new record and the others what they held. -/
theorem SlotLayout.updateSafe (hlay : p.SlotLayout) (hok : (p.updateRecord slotId r).1 = true)
    (h : (p.updateRecord slotId r).2.SlotLayout)
    (hrec : ∀ j, (p.updateRecord slotId r).2.recordAt j
      = if j = slotId.toNat then some r.bytes else p.recordAt j) : p.UpdateSafe slotId r where
  reads _ := by rw [getRecord_eq h.slots_length, hrec, if_pos rfl]
  others _ j hj := by
    rw [getRecord_eq h.slots_length, getRecord_eq hlay.slots_length, hrec,
      if_neg fun he => hj (UInt16.toNat_inj.mp he)]
  layout _ := h
  reloads _ frame j := h.reload frame j
  refused hno := absurd (hok.symm.trans hno) (by decide)

/-- A live record lies within the data region. -/
theorem SlotLayout.length_le (h : p.SlotLayout) {i : Nat} {s : SlotEntry} (hs : p.LiveAt i s)
    (hpos : 0 < s.length.toNat) :
    p.header.freeSpaceEnd.toNat + s.length.toNat ≤ pageSize := by
  have hfirst := h.mem_range i s hs s.offset.toNat ⟨le_refl _, by omega⟩
  have hlast := h.mem_range i s hs (s.offset.toNat + s.length.toNat - 1) ⟨by omega, by omega⟩
  omega

/-- A relocation beyond the free space breaks the layout: the new record starts inside the
directory, or before the page. -/
theorem SlotLayout.not_layout_relocate (h : p.SlotLayout)
    (hbig : p.header.freeSpaceEnd.toNat < p.header.freeSpaceOffset.toNat + r.bytes.length)
    (hlen : r.bytes.length ≤ pageSize) : ¬ (p.relocate slotId r).SlotLayout := by
  intro h'
  have h1 : p.header.freeSpaceOffset.toNat ≤ (p.header.freeSpaceEnd - r.length).toNat :=
    h'.offset_le
  have h2 : (p.header.freeSpaceEnd - r.length).toNat ≤ pageSize := h'.end_le
  have hr := RecordData.toNat_length r
  have h3 := h.offset_eq
  have h4 := p.header.freeSpaceEnd.toNat_lt
  rw [UInt16.toNat_sub, hr] at h1 h2
  simp only [pageSize] at *
  by_cases hle : r.bytes.length ≤ p.header.freeSpaceEnd.toNat
  · rw [show 2 ^ 16 - r.bytes.length + p.header.freeSpaceEnd.toNat
        = p.header.freeSpaceEnd.toNat - r.bytes.length + 2 ^ 16 by omega,
      Nat.add_mod_right, Nat.mod_eq_of_lt (by omega)] at h1
    omega
  · rw [Nat.mod_eq_of_lt (by omega)] at h2
    omega

/-- **UpdateRecord is safe exactly when it does not relocate a record beyond the free space.** -/
theorem updateRecord_safe_iff (h : p.SlotLayout) (slotId : UInt16) (r : RecordData) :
    p.UpdateSafe slotId r ↔ ¬ p.RelocatesBeyond slotId r := by
  have hr := RecordData.toNat_length r
  have hfree := toNat_getFreeSpace h.offset_le
  rcases updateRecord_cases h.slots_length slotId r with ⟨hno, heq⟩ | ⟨s, hs, hbig, heq⟩ |
    ⟨s, hs, hle, heq⟩ | ⟨s, hs, hlt, hle, heq⟩
  · -- the slot is not live
    refine ⟨fun _ hbeyond => ?_, fun _ => ?_⟩
    · rcases liveAt_or h.slots_length slotId with ⟨hdead, -⟩ | ⟨-, -, hlive⟩
      · obtain ⟨h1, h2, -⟩ := hbeyond
        exact hdead.elim h1 fun he => absurd (he.symm.trans h2) (by decide)
      · exact hno _ hlive
    · exact updateSafe_of_refused heq
  · -- it grows by more than the free space
    refine ⟨fun _ ⟨_, _, h3, h4, _⟩ => ?_, fun _ => ?_⟩
    · rw [hs.slot_eq] at h3 h4
      have h3' := UInt16.lt_iff_toNat_lt.mp h3
      have h4' := UInt16.le_iff_toNat_le.mp h4
      rw [toNat_sub16 h3'.le] at h4'
      omega
    · exact updateSafe_of_refused heq
  · -- it does not grow
    refine ⟨fun _ ⟨_, _, h3, _⟩ => ?_, fun _ => ?_⟩
    · rw [hs.slot_eq] at h3
      have h3' := UInt16.lt_iff_toNat_lt.mp h3
      omega
    · obtain ⟨hlay, hrec⟩ := h.overwrite hs hle
      exact h.updateSafe (by rw [heq]) (by rw [heq]; exact hlay) (by rw [heq]; exact hrec)
  · -- it grows, and is relocated
    by_cases hroom : p.header.freeSpaceOffset.toNat + r.bytes.length ≤ p.header.freeSpaceEnd.toNat
    · -- it fits into the free space
      refine ⟨fun _ ⟨_, _, _, _, h5⟩ => ?_, fun _ => ?_⟩
      · have h5' := UInt16.lt_iff_toNat_lt.mp h5
        omega
      · obtain ⟨hlay, hrec⟩ := h.relocate hs (by omega) hroom
        exact h.updateSafe (by rw [heq]) (by rw [heq]; exact hlay) (by rw [heq]; exact hrec)
    · -- it does not, and then it begins inside the slot directory, or before the page
      have hlen : r.bytes.length ≤ pageSize := by
        have hin := h.length_le hs (by omega)
        have h1 := h.offset_le
        omega
      refine ⟨fun hsafe => ?_, fun hno => absurd ?_ hno⟩
      · have hlay := hsafe.layout (by rw [heq])
        rw [heq] at hlay
        exact absurd hlay (h.not_layout_relocate (by omega) hlen)
      · rcases liveAt_or h.slots_length slotId with ⟨-, hdead⟩ | ⟨h1, h2, -⟩
        · exact absurd hs (hdead s)
        · rw [RelocatesBeyond, hs.slot_eq]
          rw [hs.slot_eq] at h2
          refine ⟨h1, h2, UInt16.lt_iff_toNat_lt.mpr (by omega), UInt16.le_iff_toNat_le.mpr ?_,
            UInt16.lt_iff_toNat_lt.mpr (by omega)⟩
          rw [toNat_sub16 (by omega)]
          omega

/-! ## 3. Two updates of one page -/

/-- `n` equal bytes. -/
def recordOfLength (n : Nat) (h : n < 2 ^ 16) : RecordData :=
  ⟨List.replicate n 7, by rw [List.length_replicate]; exact h⟩

/-- A page with 3000 bytes in slot 0, which leaves 1072 bytes free. -/
def largeRecord : Page := (Page.ofId 1).placeRecord (recordOfLength 3000 (by decide))

theorem slotLayout_largeRecord : largeRecord.SlotLayout :=
  ((layout_ofId 1).placeRecord (by decide +kernel) (by decide +kernel)).slotLayout

/-- The record shrinks, or grows beyond the page, or moves into the free space. -/
theorem updateRecord_safe_shrunk : largeRecord.UpdateSafe 0 (recordOfLength 2999 (by decide)) :=
  (updateRecord_safe_iff slotLayout_largeRecord 0 _).mpr (by decide +kernel)

/-- The record grows by 100 bytes, which are free, and all its 3100 bytes are written below the data
region, over the directory. -/
theorem updateRecord_overruns :
    ¬ largeRecord.UpdateSafe 0 (recordOfLength 3100 (by decide)) := by
  intro hsafe
  have heq : largeRecord.updateRecord 0 (recordOfLength 3100 (by decide))
      = (true, largeRecord.relocate 0 (recordOfLength 3100 (by decide))) := by
    rw [updateRecord, if_neg (by decide +kernel), if_neg (by decide +kernel)]
    exact if_neg (by decide +kernel)
  have hlay := hsafe.layout (by rw [heq])
  rw [heq] at hlay
  exact slotLayout_largeRecord.not_layout_relocate (by decide +kernel) (by decide +kernel) hlay

end Page

end CourtDB
