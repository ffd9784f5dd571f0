/-
# Space in a page

Two questions about the free bytes of a slotted page.

`HasSpaceFor` predicts whether `InsertRecord` has room.  Both compare the record with the free
region, the one with a 16-bit total and the other in `int`, so `hasSpaceFor_exact_iff` is an
equivalence: they agree unless the total wraps and what is left of it fits.

`Compact` is complete: after it the free region is all of the page that neither the header, nor
the directory, nor a live record takes (`RecordLayout.compact_getFreeSpace`), and there is
nothing left for a second `Compact` to do.  The latter is a statement about the repacking loop:
`packed` is the list of records as the loop leaves them, and on such a list the loop changes no
slot (`repack_packed`).
-/
import CourtDB.Storage.PageStore

namespace CourtDB

open Bytes

namespace Page

variable {p : Page} {r : RecordData}

/-! ## 1. Predicting an insert

The overhead of an insert is a slot entry, unless there is an empty slot.  The predictor adds it to
the length in 16 bits. -/

/-- An insert of a nonempty record succeeds when there is room. -/
theorem insertRecord_isSome_iff (h0 : r.length ≠ 0) :
    (p.insertRecord (.data r)).1.isSome = true ↔ p.header.freeSpaceOffset.toNat
      + r.bytes.length + p.slotOverhead.toNat ≤ p.header.freeSpaceEnd.toNat := by
  rw [← RecordData.toNat_length, ← fits_iff]
  cases hf : p.fits r.length <;> simp [insertRecord, h0, hf]

/-- `HasSpaceFor`, with the 16-bit total written out. -/
theorem hasSpaceFor_iff (n : UInt16) :
    p.hasSpaceFor n = true ↔
      (n.toNat + p.slotOverhead.toNat) % 2 ^ 16 ≤ p.getFreeSpace.toNat := by
  have htotal : (if p.findEmptySlot.isSome then n else n + slotEntrySize) = n + p.slotOverhead := by
    unfold slotOverhead
    split
    · rw [UInt16.add_zero]
    · rfl
  rw [hasSpaceFor, htotal, decide_eq_true_eq, ge_iff_le, UInt16.le_iff_toNat_le,
    UInt16.toNat_add]

theorem slotOverhead_toNat :
    p.slotOverhead.toNat = if p.findEmptySlot.isSome then 0 else 4 := by
  unfold slotOverhead
  split <;> rfl

/-- **Where `HasSpaceFor` predicts `InsertRecord`**: there is an empty slot, or the record and a
slot entry are less than 2¹⁶ bytes, or what is left of them in 16 bits does not fit either. -/
theorem hasSpaceFor_exact_iff
    (hoffset : 20 + 4 * p.header.numSlots.toNat = p.header.freeSpaceOffset.toNat)
    (hle : p.header.freeSpaceOffset.toNat ≤ p.header.freeSpaceEnd.toNat)
    (hend : p.header.freeSpaceEnd.toNat ≤ pageSize) (h0 : r.length ≠ 0) :
    (p.hasSpaceFor r.length = true ↔ (p.insertRecord (.data r)).1.isSome = true) ↔
      p.findEmptySlot.isSome = true ∨ r.bytes.length + 4 < 2 ^ 16 ∨
        p.header.freeSpaceEnd.toNat
          < p.header.freeSpaceOffset.toNat + (r.bytes.length + 4 - 2 ^ 16) := by
  have hlt := r.lt
  have hsize : pageSize = 4096 := rfl
  rw [hasSpaceFor_iff, insertRecord_isSome_iff h0, toNat_getFreeSpace hle, slotOverhead_toNat,
    RecordData.toNat_length]
  cases hempty : p.findEmptySlot.isSome with
  | true =>
    -- the total is the length alone
    simp only [if_true, Nat.add_zero, Nat.mod_eq_of_lt hlt, true_or, iff_true]
    omega
  | false =>
    simp only [Bool.false_eq_true, if_false, false_or]
    by_cases hwrap : r.bytes.length + 4 < 2 ^ 16
    · simp only [Nat.mod_eq_of_lt hwrap, hwrap, true_or, iff_true]
      omega
    · have hmod : (r.bytes.length + 4) % 2 ^ 16 = r.bytes.length + 4 - 2 ^ 16 := by omega
      rw [hmod]
      omega

/-- A page with two records, one of them deleted, takes another one in the slot that became empty.
-/
theorem hasSpaceFor_exact_reused :
    let r : RecordData := ⟨[7, 8, 9], by decide⟩
    let p := (((Page.ofId 1).insertRecord (.data r)).2.insertRecord (.data ⟨[4], by decide⟩)).2
    let q := (p.deleteRecord 0).2
    q.hasSpaceFor r.length = true ↔ (q.insertRecord (.data r)).1.isSome = true := by
  intro r p q
  have hslots : 20 + 4 * q.header.numSlots.toNat
    = q.header.freeSpaceOffset.toNat := by decide +kernel
  have hempty : q.findEmptySlot.isSome = true := by decide +kernel
  exact (hasSpaceFor_exact_iff hslots (by decide +kernel) (by decide +kernel) (by decide)).mpr
    (.inl hempty)

/-- A new page has space for a record of 65532 bytes, and does not take it. -/
theorem hasSpaceFor_not_exact :
    ¬ ∀ (p : Page) (r : RecordData),
      20 + 4 * p.header.numSlots.toNat = p.header.freeSpaceOffset.toNat →
      p.header.freeSpaceOffset.toNat ≤ p.header.freeSpaceEnd.toNat →
      p.header.freeSpaceEnd.toNat ≤ pageSize → r.length ≠ 0 →
      (p.hasSpaceFor r.length = true ↔ (p.insertRecord (.data r)).1.isSome = true) := by
  intro h
  obtain ⟨r, hr⟩ : ∃ r : RecordData, r.bytes.length = 65532 :=
    ⟨⟨List.replicate 65532 0, by rw [List.length_replicate]; decide⟩, List.length_replicate⟩
  have hlength : r.length = 65532 := by rw [RecordData.length, hr]; rfl
  have h0 : r.length ≠ 0 := by rw [hlength]; decide
  have hagree := h (Page.ofId 1) r rfl (by decide) (le_refl _) h0
  rw [insertRecord_isSome_iff h0, hr, hlength] at hagree
  exact absurd (hagree.mp (by decide)) (by decide)

/-! ## 2. The records as `Compact` leaves them

`packed` is computed from the lengths alone.  Compacting what was packed gives the same list. -/

/-- The records of the repacking loop, with the offsets that it gives them. -/
def packed : List LiveRecord → UInt16 → List LiveRecord
  | [], _ => []
  | r :: rest, writePos =>
    { r with originalOffset := writePos - r.length } :: packed rest (writePos - r.length)

theorem packed_packed : ∀ (l : List LiveRecord) (w : UInt16), packed (packed l w) w = packed l w
  | [], _ => rfl
  | r :: l, w => by simp only [packed, packed_packed l]

theorem map_slotId_packed : ∀ (l : List LiveRecord) (w : UInt16),
    (packed l w).map LiveRecord.slotId = l.map LiveRecord.slotId
  | [], _ => rfl
  | r :: l, w => by simp only [packed, List.map_cons, map_slotId_packed l]

theorem map_length_packed : ∀ (l : List LiveRecord) (w : UInt16),
    (packed l w).map LiveRecord.length = l.map LiveRecord.length
  | [], _ => rfl
  | r :: l, w => by simp only [packed, List.map_cons, map_length_packed l]

/-- A record keeps its slot and its length. -/
theorem exists_mem_packed : ∀ {l : List LiveRecord} {w : UInt16} {r : LiveRecord}, r ∈ l →
    ∃ t ∈ packed l w, t.slotId = r.slotId ∧ t.length = r.length
  | t :: l, w, r, hr => by
    rcases List.mem_cons.mp hr with rfl | hr
    · exact ⟨_, List.mem_cons_self, rfl, rfl⟩
    · obtain ⟨u, hu, hsame⟩ := exists_mem_packed (w := w - t.length) hr
      exact ⟨u, List.mem_cons_of_mem _ hu, hsame⟩

theorem exists_mem_of_mem_packed : ∀ {l : List LiveRecord} {w : UInt16} {t : LiveRecord},
    t ∈ packed l w → ∃ r ∈ l, t.slotId = r.slotId ∧ t.length = r.length
  | r :: l, w, t, ht => by
    rcases List.mem_cons.mp ht with rfl | ht
    · exact ⟨r, List.mem_cons_self, rfl, rfl⟩
    · obtain ⟨u, hu, hsame⟩ := exists_mem_of_mem_packed ht
      exact ⟨u, List.mem_cons_of_mem _ hu, hsame⟩

/-- The records lie one below the other. -/
theorem packed_sorted : ∀ {l : List LiveRecord} {w : UInt16},
    (l.map fun r => r.length.toNat).sum ≤ w.toNat →
    (∀ t ∈ packed l w, t.originalOffset.toNat ≤ w.toNat) ∧
      (packed l w).Pairwise LiveRecord.before
  | [], w, _ => ⟨by simp [packed], List.Pairwise.nil⟩
  | r :: l, w, hsum => by
    rw [List.map_cons, List.sum_cons] at hsum
    have hw : (w - r.length).toNat = w.toNat - r.length.toNat := toNat_sub16 (by omega)
    obtain ⟨hbelow, hsorted⟩ := @packed_sorted l (w - r.length) (by omega)
    constructor
    · intro t ht
      rcases List.mem_cons.mp ht with rfl | ht
      · simp only [hw]
        omega
      · exact (hbelow t ht).trans (by omega)
    · exact List.pairwise_cons.mpr
        ⟨fun t ht => UInt16.le_iff_toNat_le.mpr (hbelow t ht), hsorted⟩

/-- The directory describes the records of the list. -/
def Describes (slots : List SlotEntry) (l : List LiveRecord) : Prop :=
  ∀ r ∈ l, slots[r.slotId]? = some ⟨r.originalOffset, r.length⟩

/-- The loop changes only the slots of its records, and these it makes describe `packed`. -/
theorem repack_slots (temp : Buf) : ∀ (l : List LiveRecord) (data : Buf)
    (slots : List SlotEntry) (w : UInt16), (l.map LiveRecord.slotId).Nodup →
    (∀ r ∈ l, ∃ o, slots[r.slotId]? = some ⟨o, r.length⟩) →
    (∀ j, j ∉ l.map LiveRecord.slotId → (repack temp l data slots w).2.1[j]? = slots[j]?) ∧
      Describes (repack temp l data slots w).2.1 (packed l w)
  | [], data, slots, w, _, _ => ⟨fun _ _ => rfl, by simp [Describes, packed]⟩
  | r :: l, data, slots, w, hnd, hslots => by
    obtain ⟨hnotin, hnd⟩ := List.nodup_cons.mp hnd
    obtain ⟨o₀, ho₀⟩ := hslots r List.mem_cons_self
    have hmod : ∀ j, (slots.modify r.slotId fun s => { s with offset := w - r.length })[j]?
        = if r.slotId = j then some ⟨w - r.length, r.length⟩ else slots[j]? := by
      intro j
      rw [List.getElem?_modify]
      by_cases hj : r.slotId = j
      · subst hj; simp [ho₀]
      · simp [hj]
    obtain ⟨hother, hrest⟩ := repack_slots temp l
      (data.write (w - r.length).toNat (temp.read r.originalOffset.toNat r.length.toNat)) _
      (w - r.length) hnd fun t ht => by
        obtain ⟨o, ho⟩ := hslots t (List.mem_cons_of_mem _ ht)
        have hne : r.slotId ≠ t.slotId := fun he => hnotin (List.mem_map.mpr ⟨t, ht, he.symm⟩)
        exact ⟨o, by rw [hmod, if_neg hne]; exact ho⟩
    constructor
    · intro j hj
      rw [List.map_cons, List.mem_cons, not_or] at hj
      exact (hother j hj.2).trans (by rw [hmod, if_neg (Ne.symm hj.1)])
    · intro t ht
      rcases List.mem_cons.mp ht with rfl | ht
      · exact (hother r.slotId hnotin).trans (by rw [hmod, if_pos rfl])
      · exact hrest t ht

/-- **The loop changes no slot of records that it left.** -/
theorem repack_packed {temp data : Buf} {l : List LiveRecord} {slots : List SlotEntry}
    {w : UInt16} (hnd : (l.map LiveRecord.slotId).Nodup) (hpacked : packed l w = l)
    (hslots : Describes slots l) : (repack temp l data slots w).2.1 = slots := by
  obtain ⟨hother, hrecords⟩ := repack_slots temp l data slots w hnd fun r hr => ⟨_, hslots r hr⟩
  rw [hpacked] at hrecords
  refine List.ext_getElem? fun j => ?_
  by_cases hj : j ∈ l.map LiveRecord.slotId
  · obtain ⟨r, hr, rfl⟩ := List.mem_map.mp hj
    rw [hrecords r hr, hslots r hr]
  · exact hother j hj

/-! ## 3. Compaction is complete

A live record of length zero would have an offset but no bytes; `RecordLayout` leaves such records
out, as `InsertRecord` does. -/

/-- The slotted layout of a page whose live records are not empty. -/
structure RecordLayout (p : Page) : Prop extends p.Slotted where
  length_pos : ∀ i s, p.LiveAt i s → 1 ≤ s.length.toNat

/-- The bytes of the live records. -/
def liveBytes (p : Page) : ℕ :=
  (p.liveRecords.map fun r => r.length.toNat).sum

/-- The live records in the order in which `Compact` takes them. -/
def sortedRecords (p : Page) : List LiveRecord :=
  p.liveRecords.insertionSort LiveRecord.before

namespace Slotted

theorem mem_sortedRecords (h : p.Slotted) {r : LiveRecord} :
    r ∈ p.sortedRecords ↔ p.LiveAt r.slotId ⟨r.originalOffset, r.length⟩ := by
  rw [sortedRecords, (List.perm_insertionSort LiveRecord.before p.liveRecords).mem_iff,
    mem_liveRecords h.slots_length]

theorem sortedRecords_nodup : (p.sortedRecords.map LiveRecord.slotId).Nodup :=
  ((List.perm_insertionSort LiveRecord.before p.liveRecords).map _).nodup_iff.mpr
    p.liveRecords_nodup

theorem sum_sortedRecords :
    (p.sortedRecords.map fun r => r.length.toNat).sum = p.liveBytes :=
  ((List.perm_insertionSort LiveRecord.before p.liveRecords).map _).sum_nat

/-- What the free region of the compacted page is. -/
theorem compact_freeSpaceEnd (h : p.Slotted) :
    p.compact.header.freeSpaceEnd.toNat + p.liveBytes = pageSize :=
  h.compact_spec.2.1

theorem describes_compact (h : p.Slotted) :
    Describes p.compact.slots (packed p.sortedRecords (UInt16.ofNat pageSize)) :=
  (repack_slots p.data p.sortedRecords p.data p.slots (UInt16.ofNat pageSize)
    sortedRecords_nodup fun _ hr => ⟨_, (h.mem_sortedRecords.mp hr).1⟩).2

/-- The live records of the compacted page. -/
theorem mem_sortedRecords_compact (h : p.Slotted) {r : LiveRecord} :
    r ∈ p.compact.sortedRecords ↔ r ∈ packed p.sortedRecords (UInt16.ofNat pageSize) := by
  rw [h.compact.mem_sortedRecords, h.compact_liveAt]
  constructor
  · rintro ⟨hget, s, hs, hlength⟩
    obtain ⟨t, ht, hslot, hlen⟩ := exists_mem_packed (w := UInt16.ofNat pageSize)
      ((h.mem_sortedRecords (r := ⟨r.slotId, s.offset, s.length⟩)).mpr hs)
    have hentry := h.describes_compact t ht
    rw [hslot, hget, Option.some.injEq, SlotEntry.mk.injEq] at hentry
    obtain ⟨tSlot, tOffset, tLength⟩ := t
    obtain ⟨rSlot, rOffset, rLength⟩ := r
    obtain ⟨rfl, rfl⟩ := hentry
    obtain rfl : tSlot = rSlot := hslot
    exact ht
  · intro ht
    obtain ⟨t, ht', hslot, hlen⟩ := exists_mem_of_mem_packed ht
    exact ⟨h.describes_compact r ht, ⟨t.originalOffset, t.length⟩,
      hslot ▸ h.mem_sortedRecords.mp ht', hlen⟩

end Slotted

namespace RecordLayout

/-- No two live records start at the same byte. -/
theorem before_antisymm (h : p.RecordLayout) {a b : LiveRecord} (ha : a ∈ p.sortedRecords)
    (hb : b ∈ p.sortedRecords) (hab : a.before b) (hba : b.before a) : a = b := by
  have ha := h.mem_sortedRecords.mp ha
  have hb := h.mem_sortedRecords.mp hb
  have hoffset : a.originalOffset = b.originalOffset :=
    UInt16.le_antisymm hba hab
  by_cases hslot : a.slotId = b.slotId
  · have hentry := ha.unique (hslot ▸ hb)
    obtain ⟨aSlot, aOffset, aLength⟩ := a
    obtain ⟨bSlot, bOffset, bLength⟩ := b
    simp only [SlotEntry.mk.injEq] at hentry hslot
    rw [hslot, hentry.1, hentry.2]
  · have hdisjoint := h.disjoint _ _ _ _ hslot ha hb
    have hposA := h.length_pos _ _ ha
    have hposB := h.length_pos _ _ hb
    simp only [hoffset] at hdisjoint hposA hposB
    omega

/-- **Compaction keeps the layout**, with records of the same lengths. -/
theorem compact (h : p.RecordLayout) : p.compact.RecordLayout where
  toSlotted := h.toSlotted.compact
  length_pos i e he := by
    obtain ⟨-, s, hs, hlength⟩ := (h.toSlotted.compact_liveAt i e).mp he
    exact hlength ▸ h.length_pos i s hs

/-- `Compact` takes the records of a compacted page in the order in which they were packed. -/
theorem sortedRecords_compact (h : p.RecordLayout) :
    p.compact.sortedRecords = packed p.sortedRecords (UInt16.ofNat pageSize) := by
  have hroom : (p.sortedRecords.map fun r => r.length.toNat).sum
      ≤ (UInt16.ofNat pageSize).toNat := by
    rw [Slotted.sum_sortedRecords]
    exact (Nat.le_add_left _ _).trans h.compact_freeSpaceEnd.le
  have hperm : p.compact.sortedRecords.Perm (packed p.sortedRecords (UInt16.ofNat pageSize)) := by
    refine (List.perm_ext_iff_of_nodup ?_ ?_).mpr fun r => h.mem_sortedRecords_compact
    · exact List.Nodup.of_map _ Slotted.sortedRecords_nodup
    · refine List.Nodup.of_map LiveRecord.slotId ?_
      rw [map_slotId_packed]
      exact Slotted.sortedRecords_nodup
  have hanti : ∀ a b : LiveRecord, a ∈ p.compact.sortedRecords →
      b ∈ packed p.sortedRecords (UInt16.ofNat pageSize) → a.before b → b.before a → a = b :=
    fun a b ha hb => h.compact.before_antisymm ha (h.mem_sortedRecords_compact.mpr hb)
  exact hperm.eq_of_pairwise hanti (List.pairwise_insertionSort LiveRecord.before _)
    (packed_sorted hroom).2

theorem liveBytes_compact (h : p.RecordLayout) : p.compact.liveBytes = p.liveBytes := by
  have hlengths := congrArg (fun l => (l.map UInt16.toNat).sum)
    (map_length_packed p.sortedRecords (UInt16.ofNat pageSize))
  rw [← h.sortedRecords_compact] at hlengths
  simp only [List.map_map] at hlengths
  rw [← Slotted.sum_sortedRecords, ← Slotted.sum_sortedRecords]
  exact hlengths

/-- **A second compaction leaves the slots and the header.** -/
theorem compact_compact (h : p.RecordLayout) :
    p.compact.compact.slots = p.compact.slots ∧ p.compact.compact.header = p.compact.header := by
  constructor
  · change (repack p.compact.data p.compact.sortedRecords p.compact.data p.compact.slots
      (UInt16.ofNat pageSize)).2.1 = _
    rw [h.sortedRecords_compact]
    refine repack_packed ?_ (packed_packed _ _) h.describes_compact
    rw [map_slotId_packed]
    exact Slotted.sortedRecords_nodup
  · have hfirst := h.compact_freeSpaceEnd
    have hsecond := h.compact.compact_freeSpaceEnd
    rw [h.liveBytes_compact] at hsecond
    have hend : p.compact.compact.header.freeSpaceEnd = p.compact.header.freeSpaceEnd :=
      UInt16.toNat_inj.mp (by omega)
    change { p.compact.header with freeSpaceEnd := p.compact.compact.header.freeSpaceEnd } = _
    rw [hend]

/-- Compaction fills no slot and empties none. -/
theorem findEmptySlot_compact (h : p.RecordLayout) :
    p.compact.findEmptySlot = p.findEmptySlot := by
  have hid : ∀ l : List SlotEntry,
      l.findIdx? SlotEntry.isEmpty = (l.map SlotEntry.isEmpty).findIdx? id := fun l => by
    rw [List.findIdx?_map]
    rfl
  rw [findEmptySlot_eq h.compact.slots_length, findEmptySlot_eq h.slots_length, hid, hid,
    h.compact_isEmpty]

/-- The free region of the compacted page is what the header, the directory and the live records
leave. -/
theorem compact_getFreeSpace (h : p.RecordLayout) :
    p.compact.getFreeSpace.toNat = 4096 - 20 - 4 * p.header.numSlots.toNat - p.liveBytes := by
  have hend : p.compact.header.freeSpaceEnd.toNat + p.liveBytes = 4096 := h.compact_freeSpaceEnd
  have hoffset : p.compact.header.freeSpaceOffset.toNat = 20 + 4 * p.header.numSlots.toNat :=
    h.compact.offset_eq
  rw [toNat_getFreeSpace h.compact.offset_le]
  omega

/-- **Compaction is complete.** -/
theorem compact_complete (h : p.RecordLayout) :
    (∀ slotId, p.compact.getRecord slotId = p.getRecord slotId) ∧ p.compact.RecordLayout ∧
      p.compact.getFreeSpace.toNat = 4096 - 20 - 4 * p.header.numSlots.toNat - p.liveBytes ∧
      (∀ r : RecordData, 1 ≤ r.bytes.length →
        ((p.compact.insertRecord (.data r)).1.isSome = true ↔
          r.bytes.length + (if p.findEmptySlot.isSome then 0 else 4)
            ≤ 4096 - 20 - 4 * p.header.numSlots.toNat - p.liveBytes)) ∧
      p.compact.compact.slots = p.compact.slots ∧
      p.compact.compact.header = p.compact.header ∧
      ∀ slotId, p.compact.compact.getRecord slotId = p.compact.getRecord slotId := by
  have hrecord : ∀ {q : Page}, q.RecordLayout → ∀ slotId,
      q.compact.getRecord slotId = q.getRecord slotId := fun hq slotId => by
    rw [getRecord_eq hq.compact.slots_length, getRecord_eq hq.slots_length, hq.compact_recordAt]
  refine ⟨hrecord h, h.compact, h.compact_getFreeSpace, fun r hr => ?_, h.compact_compact.1,
    h.compact_compact.2, hrecord h.compact⟩
  have h0 : r.length ≠ 0 := fun h0 => by
    rw [← RecordData.toNat_length, h0] at hr
    exact absurd hr (by decide)
  have hfree := h.compact_getFreeSpace
  have hle := h.compact.offset_le
  rw [toNat_getFreeSpace hle] at hfree
  rw [insertRecord_isSome_iff h0, slotOverhead_toNat, h.findEmptySlot_compact]
  omega

/-- Three records, the second of them deleted. -/
def threeRecords : Page :=
  (StoreRun.run 1 [.insert (.data ⟨[1, 2, 3], by decide⟩), .insert (.data ⟨[4], by decide⟩),
    .insert (.data ⟨[5, 6], by decide⟩), .delete 1]).page

theorem recordLayout_threeRecords : threeRecords.RecordLayout where
  toSlotted := (StoreRun.inv_run 1 _).1.slotted
  length_pos i s hs := by
    have hpos : ∀ s ∈ threeRecords.slots, s.isEmpty = false → 1 ≤ s.length.toNat := by decide
    exact hpos s (List.mem_of_getElem? hs.1) hs.2

theorem compact_complete_threeRecords :
    threeRecords.compact.getRecord 2 = some [5, 6] ∧
      threeRecords.compact.getFreeSpace.toNat = 4096 - 20 - 12 - 5 ∧
      threeRecords.compact.compact.slots = threeRecords.compact.slots := by
  obtain ⟨hrecord, -, hfree, -, hslots, -⟩ := recordLayout_threeRecords.compact_complete
  refine ⟨(hrecord 2).trans (by decide), hfree.trans (by decide), hslots⟩

end RecordLayout

end Page

end CourtDB
