/-
# The slotted layout

`Layout` is the invariant of a page that is used through the record operations: the directory ends
where the header says, the live records lie in pairwise disjoint ranges of the data region, and the
record counter is the number of live slots.  This file shows what each operation does to a page with
this layout, and that it keeps the layout.

The directory is read through `LiveAt` (slot `i` holds the record described by an entry), and the
contents through `recordAt`, which is `getRecord` on a page whose directory has the length its
header says (`getRecord_eq`).  An operation is then one of three changes to a directory: a new
entry, an empty entry in the place of a live one, or a live entry in the place of a live one; and
the bytes that it writes lie outside the ranges of all records but the one it is about.

All numbers in the source have 16 bits, and it subtracts before it compares.  On a page with the
layout nothing wraps: a page has at most 1019 slots, and the free space is what lies between the
directory and the lowest record.  What is not covered by the layout is an update that moves a record
which does not fit into the free space: the source checks the growth of the record and then uses
room for all of it (`HasRoomFor` says when it is safe).
-/
import CourtDB.Storage.Page

namespace CourtDB

open Bytes

/-! ## 1. 16-bit arithmetic that does not wrap

The few sums and differences that occur, as equations between naturals. -/

theorem toNat_sub16 {a b : UInt16} (h : b.toNat ≤ a.toNat) :
    (a - b).toNat = a.toNat - b.toNat :=
  UInt16.toNat_sub_of_le a b (UInt16.le_iff_toNat_le.mpr h)

theorem toNat_add16 {a b : UInt16} (h : a.toNat + b.toNat < 2 ^ 16) :
    (a + b).toNat = a.toNat + b.toNat := by
  rw [UInt16.toNat_add, Nat.mod_eq_of_lt h]

theorem toNat_succ16 {a : UInt16} (h : a.toNat + 1 < 2 ^ 16) : (a + 1).toNat = a.toNat + 1 :=
  toNat_add16 (b := 1) h

@[simp] theorem toNat_headerSize : headerSize.toNat = 20 := rfl

@[simp] theorem toNat_slotEntrySize : slotEntrySize.toNat = 4 := rfl

/-- An entry of nonzero length is not empty. -/
theorem SlotEntry.isEmpty_of_length_ne {o l : UInt16} (h : l ≠ 0) :
    (SlotEntry.mk o l).isEmpty = false := by
  simp [SlotEntry.isEmpty, h]

@[simp] theorem SlotEntry.isEmpty_default : (({} : SlotEntry)).isEmpty = true := rfl

namespace Page

/-! ## 2. Live slots and their records

A slot is empty if its offset and its length are zero.  A record of length zero is live: its offset
is never zero. -/

/-- Slot `i` of the directory holds the record that `s` describes. -/
def LiveAt (p : Page) (i : Nat) (s : SlotEntry) : Prop :=
  p.slots[i]? = some s ∧ s.isEmpty = false

/-- The bytes a slot entry describes. -/
def entryRecord (data : Buf) (s : SlotEntry) : Option (List UInt8) :=
  if s.isEmpty then none else some (data.read s.offset.toNat s.length.toNat)

/-- The record of slot `i`, read off the directory. -/
def recordAt (p : Page) (i : Nat) : Option (List UInt8) :=
  (p.slots[i]?).bind (entryRecord p.data)

theorem getRecord_eq {p : Page} (hlen : p.slots.length = p.header.numSlots.toNat)
    (slotId : UInt16) : p.getRecord slotId = p.recordAt slotId.toNat := by
  unfold getRecord recordAt entryRecord slot
  by_cases h : slotId ≥ p.header.numSlots
  · have hge : p.slots.length ≤ slotId.toNat := by rw [hlen]; exact UInt16.le_iff_toNat_le.mp h
    rw [if_pos h, List.getElem?_eq_none hge, Option.bind_none]
  · have hlt : slotId.toNat < p.slots.length := by
      rw [hlen]; exact Nat.lt_of_not_le fun hle => h (UInt16.le_iff_toNat_le.mpr hle)
    rw [if_neg h, List.getD_eq_getElem?_getD, List.getElem?_eq_getElem hlt, Option.getD_some,
      Option.bind_some]

theorem LiveAt.lt {p : Page} {i : Nat} {s : SlotEntry} (h : p.LiveAt i s) :
    i < p.slots.length := (List.getElem?_eq_some_iff.mp h.1).1

theorem LiveAt.unique {p : Page} {i : Nat} {s t : SlotEntry} (hs : p.LiveAt i s)
    (ht : p.LiveAt i t) : s = t := Option.some.inj (hs.1.symm.trans ht.1)

theorem recordAt_of_liveAt {p : Page} {i : Nat} {s : SlotEntry} (h : p.LiveAt i s) :
    p.recordAt i = some (p.data.read s.offset.toNat s.length.toNat) := by
  simp [recordAt, entryRecord, h.1, h.2]

theorem recordAt_eq_none_iff {p : Page} {i : Nat} :
    p.recordAt i = none ↔ ∀ s, ¬ p.LiveAt i s := by
  unfold recordAt entryRecord
  constructor
  · intro h s hs
    simp [hs.1, hs.2] at h
  · intro h
    cases hi : p.slots[i]? with
    | none => rfl
    | some s =>
      rw [Option.bind_some]
      cases he : s.isEmpty with
      | true => rfl
      | false => exact absurd ⟨hi, he⟩ (h s)

theorem recordAt_isSome_iff {p : Page} {i : Nat} :
    (p.recordAt i).isSome ↔ ∃ s, p.LiveAt i s := by
  rw [← Option.ne_none_iff_isSome, Ne, recordAt_eq_none_iff]
  exact not_forall_not

/-- Two pages with the same live entries, whose bytes agree on those entries' ranges, hold the
same records. -/
theorem recordAt_congr {p q : Page} {i : Nat} (h : ∀ s, p.LiveAt i s ↔ q.LiveAt i s)
    (hd : ∀ s, p.LiveAt i s → p.data.read s.offset.toNat s.length.toNat
      = q.data.read s.offset.toNat s.length.toNat) : p.recordAt i = q.recordAt i := by
  by_cases hp : ∃ s, p.LiveAt i s
  · obtain ⟨s, hs⟩ := hp
    rw [recordAt_of_liveAt hs, recordAt_of_liveAt ((h s).mp hs), hd s hs]
  · rw [not_exists] at hp
    rw [recordAt_eq_none_iff.mpr hp, recordAt_eq_none_iff.mpr fun s hs => hp s ((h s).mpr hs)]

/-! ## 3. The layout invariant

Disjointness is asked of live slots only; the bytes of deleted records are nobody's. -/

/-- The slotted layout of a page. -/
structure Layout (p : Page) : Prop where
  slots_length : p.slots.length = p.header.numSlots.toNat
  offset_eq : p.header.freeSpaceOffset.toNat = 20 + 4 * p.header.numSlots.toNat
  offset_le : p.header.freeSpaceOffset.toNat ≤ p.header.freeSpaceEnd.toNat
  end_le : p.header.freeSpaceEnd.toNat ≤ pageSize
  mem_range : ∀ i s, p.LiveAt i s →
    p.header.freeSpaceEnd.toNat ≤ s.offset.toNat ∧ s.offset.toNat + s.length.toNat ≤ pageSize
  disjoint : ∀ i j s t, i ≠ j → p.LiveAt i s → p.LiveAt j t →
    s.offset.toNat + s.length.toNat ≤ t.offset.toNat ∨
      t.offset.toNat + t.length.toNat ≤ s.offset.toNat
  count : p.header.numRecords.toNat = p.slots.countP fun s => !s.isEmpty

theorem layout_ofId (id : PageId) : (Page.ofId id).Layout where
  slots_length := rfl
  offset_eq := rfl
  offset_le := show (20 : Nat) ≤ 4096 by decide
  end_le := le_refl 4096
  mem_range _ _ h := by simp [LiveAt, ofId] at h
  disjoint _ _ _ _ _ h := by simp [LiveAt, ofId] at h
  count := rfl

/-- A page with the layout has at most 1019 slots, so no 16-bit counter is near its limit. -/
theorem Layout.numSlots_le {p : Page} (h : p.Layout) : p.header.numSlots.toNat ≤ 1019 := by
  have h1 := h.offset_eq
  have h2 := h.offset_le
  have h3 := h.end_le
  simp only [pageSize] at h3
  omega

theorem Layout.numRecords_le {p : Page} (h : p.Layout) :
    p.header.numRecords.toNat ≤ p.header.numSlots.toNat := by
  rw [h.count, ← h.slots_length]
  exact List.countP_le_length

/-! ## 4. The slot an insert uses

The first slot that holds nothing: an empty one of the directory, or a new one behind it.  Which of
the two it is also decides how much room the insert needs. -/

theorem findEmptySlot_eq {p : Page} (hlen : p.slots.length = p.header.numSlots.toNat) :
    p.findEmptySlot = (p.slots.findIdx? SlotEntry.isEmpty).map UInt16.ofNat := by
  rw [findEmptySlot, ← hlen, List.take_length]

/-- `FindEmptySlot` gives the first empty slot: it is empty, and every slot before it is
live. -/
theorem findEmptySlot_some {p : Page} (hlen : p.slots.length = p.header.numSlots.toNat)
    {s : UInt16} (h : p.findEmptySlot = some s) :
    (∃ e, p.slots[s.toNat]? = some e ∧ e.isEmpty = true) ∧
      ∀ j < s.toNat, ∃ e, p.LiveAt j e := by
  rw [findEmptySlot_eq hlen, Option.map_eq_some_iff] at h
  obtain ⟨i, hi, rfl⟩ := h
  obtain ⟨hlt, hemp, hbefore⟩ := List.findIdx?_eq_some_iff_getElem.mp hi
  have hnat : (UInt16.ofNat i).toNat = i :=
    UInt16.toNat_ofNat_of_lt' (lt_trans (hlen ▸ hlt) p.header.numSlots.toNat_lt)
  rw [hnat]
  refine ⟨⟨_, List.getElem?_eq_getElem hlt, hemp⟩, fun j hj => ?_⟩
  exact ⟨_, List.getElem?_eq_getElem (hj.trans hlt), by simpa using hbefore j hj⟩

/-- When there is no empty slot, every slot is live. -/
theorem findEmptySlot_none {p : Page} (hlen : p.slots.length = p.header.numSlots.toNat)
    (h : p.findEmptySlot = none) : ∀ j < p.slots.length, ∃ e, p.LiveAt j e := by
  rw [findEmptySlot_eq hlen, Option.map_eq_none_iff, List.findIdx?_eq_none_iff] at h
  exact fun j hj => ⟨_, List.getElem?_eq_getElem hj, h _ (List.getElem_mem hj)⟩

/-- The slot of an insert is not live, and every slot before it is: it is the first slot id
that no record occupies. -/
theorem insertSlot_spec {p : Page} (hlen : p.slots.length = p.header.numSlots.toNat) :
    (∀ e, ¬ p.LiveAt p.insertSlot.toNat e) ∧ (∀ j < p.insertSlot.toNat, ∃ e, p.LiveAt j e) ∧
      p.insertSlot.toNat ≤ p.slots.length := by
  unfold insertSlot
  cases h : p.findEmptySlot with
  | none =>
    rw [Option.getD_none, ← hlen]
    exact ⟨fun _ he => absurd he.lt (lt_irrefl _), findEmptySlot_none hlen h, le_refl _⟩
  | some s =>
    obtain ⟨⟨e, he, hemp⟩, hbefore⟩ := findEmptySlot_some hlen h
    refine ⟨fun e' he' => ?_, hbefore, (List.getElem?_eq_some_iff.mp he).1.le⟩
    have hee : e = e' := Option.some.inj (he.symm.trans he'.1)
    exact absurd he'.2 (by rw [← hee, hemp]; decide)

theorem fits_iff {p : Page} {n : UInt16} :
    p.fits n = true ↔ p.header.freeSpaceOffset.toNat + n.toNat + p.slotOverhead.toNat
      ≤ p.header.freeSpaceEnd.toNat := by
  simp only [fits, decide_eq_true_eq]
  omega

/-- What `InsertRecord` can do: reject and change nothing, or place a nonempty record that
fits at `insertSlot`. -/
theorem insertRecord_cases (p : Page) (a : RecordArg) :
    p.insertRecord a = (none, p) ∨
      ∃ r, a = .data r ∧ r.length ≠ 0 ∧ p.fits r.length = true ∧
        p.insertRecord a = (some p.insertSlot, p.placeRecord r) := by
  cases a with
  | null n => exact .inl rfl
  | data r =>
    by_cases h0 : r.length = 0
    · exact .inl (by simp [insertRecord, h0])
    · cases hf : p.fits r.length with
      | false => exact .inl (by simp [insertRecord, h0, hf])
      | true => exact .inr ⟨r, rfl, h0, hf, by simp [insertRecord, h0, hf]⟩

/-! ## 5. Placing a record

The record goes below the lowest one, so its range is disjoint from all others by the way the free
space ends. -/

section Place

variable {p : Page} {r : RecordData}

/-- The entry `InsertRecord` writes. -/
def newEntry (p : Page) (r : RecordData) : SlotEntry := ⟨p.header.freeSpaceEnd - r.length, r.length⟩

theorem placeRecord_data :
    (p.placeRecord r).data = p.data.write (p.newEntry r).offset.toNat r.bytes := by
  unfold placeRecord newEntry
  cases p.findEmptySlot <;> rfl

theorem placeRecord_freeSpaceEnd :
    (p.placeRecord r).header.freeSpaceEnd = (p.newEntry r).offset := by
  unfold placeRecord newEntry
  cases p.findEmptySlot <;> rfl

theorem placeRecord_numRecords :
    (p.placeRecord r).header.numRecords = p.header.numRecords + 1 := by
  unfold placeRecord
  cases p.findEmptySlot <;> rfl

/-- Placing a record keeps what is outside the directory fields of the header. -/
theorem placeRecord_links :
    (p.placeRecord r).header.pageId = p.header.pageId ∧
      (p.placeRecord r).header.nextPageId = p.header.nextPageId ∧
        (p.placeRecord r).header.flags = p.header.flags := by
  unfold placeRecord
  cases p.findEmptySlot <;> exact ⟨rfl, rfl, rfl⟩

/-- The directory after the insert: the new entry at the insert's slot, the rest as before. -/
theorem placeRecord_getElem? (hlen : p.slots.length = p.header.numSlots.toNat) (j : Nat) :
    (p.placeRecord r).slots[j]?
      = if j = p.insertSlot.toNat then some (p.newEntry r) else p.slots[j]? := by
  unfold placeRecord insertSlot newEntry
  cases h : p.findEmptySlot with
  | some s =>
    obtain ⟨⟨e, he, -⟩, -⟩ := findEmptySlot_some hlen h
    have hlt : s.toNat < p.slots.length := (List.getElem?_eq_some_iff.mp he).1
    by_cases hj : j = s.toNat
    · simp [hj, hlt]
    · simp [hj, Ne.symm hj]
  | none =>
    simp only [Option.getD_none, ← hlen, List.getElem?_append]
    by_cases hj : j < p.slots.length
    · simp [hj, hj.ne]
    · by_cases hj' : j = p.slots.length
      · simp [hj']
      · have h1 : ¬ (j - p.slots.length = 0) := by omega
        rw [if_neg hj, if_neg hj', List.getElem?_eq_none (by simp; omega),
          List.getElem?_eq_none (by omega)]

theorem placeRecord_liveAt (hlen : p.slots.length = p.header.numSlots.toNat)
    (h0 : r.length ≠ 0) (j : Nat) (s : SlotEntry) :
    (p.placeRecord r).LiveAt j s ↔
      (j = p.insertSlot.toNat ∧ s = p.newEntry r) ∨ (j ≠ p.insertSlot.toNat ∧ p.LiveAt j s) := by
  have hne : (p.newEntry r).isEmpty = false := SlotEntry.isEmpty_of_length_ne h0
  unfold LiveAt
  rw [placeRecord_getElem? hlen]
  by_cases hj : j = p.insertSlot.toNat
  · simp only [hj, if_true, Option.some.injEq, true_and, ne_eq, not_true_eq_false, false_and,
      or_false]
    exact ⟨fun h => h.1.symm, fun h => ⟨h.symm, h ▸ hne⟩⟩
  · simp [hj]

theorem placeRecord_slots_length (h : p.Layout) :
    (p.placeRecord r).slots.length = (p.placeRecord r).header.numSlots.toNat := by
  have hle := h.numSlots_le
  unfold placeRecord
  cases p.findEmptySlot with
  | some s => simpa using h.slots_length
  | none =>
    simp only [List.length_append, List.length_singleton, h.slots_length]
    exact (toNat_succ16 (by omega)).symm

/-- The free-space offset moves only when the directory grows. -/
theorem placeRecord_freeSpaceOffset (h : p.Layout) :
    (p.placeRecord r).header.freeSpaceOffset.toNat
        = p.header.freeSpaceOffset.toNat + p.slotOverhead.toNat ∧
      (p.placeRecord r).header.freeSpaceOffset.toNat
        = 20 + 4 * (p.placeRecord r).header.numSlots.toNat := by
  have hle := h.numSlots_le
  have hoff := h.offset_eq
  unfold placeRecord slotOverhead
  cases p.findEmptySlot with
  | some s => exact ⟨rfl, hoff⟩
  | none =>
    have h1 : (p.header.freeSpaceOffset + slotEntrySize).toNat
        = p.header.freeSpaceOffset.toNat + 4 := toNat_add16 (by simp; omega)
    have h2 : (p.header.numSlots + 1).toNat = p.header.numSlots.toNat + 1 :=
      toNat_succ16 (by omega)
    refine ⟨h1, ?_⟩
    simp only [h1, h2]
    omega

theorem placeRecord_count (h : p.Layout) (h0 : r.length ≠ 0) :
    (p.placeRecord r).header.numRecords.toNat
      = (p.placeRecord r).slots.countP fun s => !s.isEmpty := by
  have hle := h.numSlots_le
  have hrec := h.numRecords_le
  have hne : (p.newEntry r).isEmpty = false := SlotEntry.isEmpty_of_length_ne h0
  rw [placeRecord_numRecords, toNat_succ16 (by omega), h.count]
  unfold placeRecord
  cases hf : p.findEmptySlot with
  | some s =>
    obtain ⟨⟨e, he, hemp⟩, -⟩ := findEmptySlot_some h.slots_length hf
    obtain ⟨hlt, rfl⟩ := List.getElem?_eq_some_iff.mp he
    change _ = (p.slots.set s.toNat (p.newEntry r)).countP _
    rw [List.countP_set hlt]
    simp [hemp, hne]
  | none =>
    change _ = (p.slots ++ [p.newEntry r]).countP _
    simp [hne]

/-- The new record starts where the free space used to end, minus its length. -/
theorem newEntry_offset (hf : p.fits r.length = true) :
    (p.newEntry r).offset.toNat + r.bytes.length = p.header.freeSpaceEnd.toNat ∧
      p.header.freeSpaceOffset.toNat + p.slotOverhead.toNat ≤ (p.newEntry r).offset.toNat := by
  have hfit := fits_iff.mp hf
  rw [RecordData.toNat_length] at hfit
  have h : (p.newEntry r).offset.toNat = p.header.freeSpaceEnd.toNat - r.bytes.length := by
    unfold newEntry
    rw [toNat_sub16 (by rw [RecordData.toNat_length]; omega), RecordData.toNat_length]
  omega

/-- **Inserting keeps the layout.** -/
theorem Layout.placeRecord (h : p.Layout) (h0 : r.length ≠ 0) (hf : p.fits r.length = true) :
    (p.placeRecord r).Layout := by
  obtain ⟨hoff, hfree⟩ := newEntry_offset hf
  obtain ⟨hfso, hdir⟩ := placeRecord_freeSpaceOffset (r := r) h
  have hend := h.end_le
  have hlive := placeRecord_liveAt h.slots_length h0
  have hlen : (p.newEntry r).length.toNat = r.bytes.length := RecordData.toNat_length r
  constructor
  · exact placeRecord_slots_length h
  · exact hdir
  · rw [placeRecord_freeSpaceEnd]; omega
  · rw [placeRecord_freeSpaceEnd]; omega
  · intro i s hs
    rw [placeRecord_freeSpaceEnd]
    rcases (hlive i s).mp hs with ⟨-, rfl⟩ | ⟨-, hs⟩
    · omega
    · have := h.mem_range i s hs
      omega
  · intro i j s t hij hs ht
    rcases (hlive i s).mp hs with ⟨hi, rfl⟩ | ⟨-, hs⟩ <;>
      rcases (hlive j t).mp ht with ⟨hj, rfl⟩ | ⟨-, ht⟩
    · exact absurd (hi.trans hj.symm) hij
    · have := h.mem_range j t ht
      exact .inl (by omega)
    · have := h.mem_range i s hs
      exact .inr (by omega)
    · exact h.disjoint i j s t hij hs ht
  · exact placeRecord_count h h0

/-- The inserted record reads back, and every other slot keeps its record. -/
theorem Layout.placeRecord_recordAt (h : p.Layout) (h0 : r.length ≠ 0)
    (hf : p.fits r.length = true) (j : Nat) :
    (p.placeRecord r).recordAt j
      = if j = p.insertSlot.toNat then some r.bytes else p.recordAt j := by
  obtain ⟨hoff, -⟩ := newEntry_offset hf
  have hlive := placeRecord_liveAt h.slots_length h0
  have hlen : (p.newEntry r).length.toNat = r.bytes.length := RecordData.toNat_length r
  by_cases hj : j = p.insertSlot.toNat
  · rw [if_pos hj, recordAt_of_liveAt ((hlive j _).mpr (.inl ⟨hj, rfl⟩)), placeRecord_data, hlen,
      Buf.read_write_self]
  · rw [if_neg hj]
    refine recordAt_congr (fun s => ?_) fun s hs => ?_
    · rw [hlive]; simp [hj]
    · have hs' : p.LiveAt j s := by simpa [hlive, hj] using hs
      have := h.mem_range j s hs'
      rw [placeRecord_data, Buf.read_write_of_disjoint (.inr (by omega))]

end Place

/-! ## 6. Changing one slot

Deletion, overwriting in place and relocation.  Deletion gives no room back: the free space ends
where it did, until the page is compacted. -/

section SetSlot

variable {p q : Page} {i : Nat} {e : SlotEntry}

/-- A page whose directory differs from `p`'s in the entry at `i` only. -/
theorem liveAt_of_set (hq : q.slots = p.slots.set i e) (hi : i < p.slots.length) (j : Nat)
    (s : SlotEntry) :
    q.LiveAt j s ↔ (j = i ∧ s = e ∧ e.isEmpty = false) ∨ (j ≠ i ∧ p.LiveAt j s) := by
  unfold LiveAt
  rw [hq, List.getElem?_set]
  by_cases hj : i = j
  · subst hj
    simp only [if_true, hi, Option.some.injEq, true_and, ne_eq, not_true_eq_false, false_and,
      or_false]
    exact ⟨fun h => ⟨h.1.symm, h.1 ▸ h.2⟩, fun h => ⟨h.1.symm, h.1 ▸ h.2⟩⟩
  · simp [hj, Ne.symm hj]

/-- A live slot's entry, as the accessor reads it. -/
theorem LiveAt.slot_eq {slotId : UInt16} {s : SlotEntry} (h : p.LiveAt slotId.toNat s) :
    p.slot slotId = s := by
  rw [slot, List.getD_eq_getElem?_getD, h.1, Option.getD_some]

/-- The checks of `DeleteRecord` and `UpdateRecord` tell whether the slot is live. -/
theorem liveAt_or (hlen : p.slots.length = p.header.numSlots.toNat) (slotId : UInt16) :
    ((slotId ≥ p.header.numSlots ∨ (p.slot slotId).isEmpty = true) ∧
        ∀ s, ¬ p.LiveAt slotId.toNat s) ∨
      (¬ slotId ≥ p.header.numSlots ∧ (p.slot slotId).isEmpty = false ∧
        p.LiveAt slotId.toNat (p.slot slotId)) := by
  by_cases h : slotId ≥ p.header.numSlots
  · refine .inl ⟨.inl h, fun s hs => ?_⟩
    have := hs.lt
    rw [hlen] at this
    exact absurd this (Nat.not_lt.mpr (UInt16.le_iff_toNat_le.mp h))
  · have hlt : slotId.toNat < p.slots.length := by
      rw [hlen]; exact Nat.lt_of_not_le fun hle => h (UInt16.le_iff_toNat_le.mpr hle)
    have hget : p.slots[slotId.toNat]? = some (p.slot slotId) := by
      rw [slot, List.getD_eq_getElem?_getD, List.getElem?_eq_getElem hlt, Option.getD_some]
    cases he : (p.slot slotId).isEmpty with
    | true =>
      refine .inl ⟨.inr rfl, fun s hs => ?_⟩
      have hs' : p.slot slotId = s := Option.some.inj (hget.symm.trans hs.1)
      rw [← hs', LiveAt, he] at hs
      exact absurd hs.2 (by decide)
    | false => exact .inr ⟨h, rfl, hget, he⟩

/-- What `DeleteRecord` can do: refuse a slot that is not live, or turn it into a tombstone. -/
theorem deleteRecord_cases (hlen : p.slots.length = p.header.numSlots.toNat)
    (slotId : UInt16) :
    ((∀ s, ¬ p.LiveAt slotId.toNat s) ∧ p.deleteRecord slotId = (false, p)) ∨
      ∃ s, p.LiveAt slotId.toNat s ∧ p.deleteRecord slotId = (true, p.tombstone slotId) := by
  rcases liveAt_or hlen slotId with ⟨h, hno⟩ | ⟨h1, h2, hs⟩
  · refine .inl ⟨hno, ?_⟩
    rcases h with h | h
    · simp [deleteRecord, h]
    · simp [deleteRecord, h]
  · exact .inr ⟨_, hs, by simp [deleteRecord, h1, h2]⟩

/-- **Deleting keeps the layout.** -/
theorem Layout.tombstone (h : p.Layout) {slotId : UInt16} {s : SlotEntry}
    (hs : p.LiveAt slotId.toNat s) : (p.tombstone slotId).Layout := by
  have hlive := liveAt_of_set (p := p) (q := p.tombstone slotId) (e := {}) rfl hs.lt
  have hsub : ∀ j t, (p.tombstone slotId).LiveAt j t → p.LiveAt j t := by
    intro j t ht
    rcases (hlive j t).mp ht with ⟨-, -, he⟩ | ⟨-, ht⟩
    · exact absurd he (by decide)
    · exact ht
  have hget := List.getElem_of_getElem? hs.1
  constructor
  · simpa [Page.tombstone] using h.slots_length
  · exact h.offset_eq
  · exact h.offset_le
  · exact h.end_le
  · exact fun i t ht => h.mem_range i t (hsub i t ht)
  · exact fun i j t u hij ht hu => h.disjoint i j t u hij (hsub i t ht) (hsub j u hu)
  · obtain ⟨hlt, rfl⟩ := hget
    have hpos : 0 < p.slots.countP fun s => !s.isEmpty :=
      List.countP_pos_iff.mpr ⟨_, List.getElem_mem hlt, by simp [hs.2]⟩
    change (p.header.numRecords - 1).toNat = (p.slots.set slotId.toNat {}).countP _
    have hge : (1 : UInt16).toNat ≤ p.header.numRecords.toNat := by rw [h.count]; exact hpos
    rw [List.countP_set hlt, toNat_sub16 hge, h.count]
    simp [hs.2]

/-- The deleted slot is empty afterwards, and every other slot keeps its record. -/
theorem tombstone_recordAt {slotId : UInt16} {s : SlotEntry} (hs : p.LiveAt slotId.toNat s)
    (j : Nat) :
    (p.tombstone slotId).recordAt j = if j = slotId.toNat then none else p.recordAt j := by
  have hlive := liveAt_of_set (p := p) (q := p.tombstone slotId) (e := {}) rfl hs.lt
  by_cases hj : j = slotId.toNat
  · rw [if_pos hj, recordAt_eq_none_iff]
    intro t ht
    rcases (hlive j t).mp ht with ⟨-, -, he⟩ | ⟨hne, -⟩
    · exact absurd he (by decide)
    · exact hne hj
  · rw [if_neg hj]
    exact recordAt_congr (fun t => by rw [hlive]; simp [hj]) fun _ _ => rfl

/-- The record of `slotId` is replaced by one that is not longer, or that fits whole into the
free space: the case in which `UpdateRecord` stays inside the layout. -/
def HasRoomFor (p : Page) (slotId : UInt16) (r : RecordData) : Prop :=
  r.bytes.length ≤ (p.slot slotId).length.toNat ∨
    p.header.freeSpaceOffset.toNat + r.bytes.length ≤ p.header.freeSpaceEnd.toNat

instance (p : Page) (slotId : UInt16) (r : RecordData) : Decidable (p.HasRoomFor slotId r) :=
  inferInstanceAs (Decidable (_ ∨ _))

theorem toNat_getFreeSpace (hle : p.header.freeSpaceOffset.toNat ≤ p.header.freeSpaceEnd.toNat) :
    p.getFreeSpace.toNat = p.header.freeSpaceEnd.toNat - p.header.freeSpaceOffset.toNat := by
  unfold getFreeSpace
  split
  · rename_i h
    have := UInt16.le_iff_toNat_le.mp h
    simp; omega
  · exact toNat_sub16 hle

/-- What `UpdateRecord` can do: refuse a slot that is not live, refuse a growth beyond the free
space, overwrite in place, or relocate. -/
theorem updateRecord_cases (hlen : p.slots.length = p.header.numSlots.toNat)
    (slotId : UInt16) (r : RecordData) :
    ((∀ s, ¬ p.LiveAt slotId.toNat s) ∧ p.updateRecord slotId r = (false, p)) ∨
      (∃ s, p.LiveAt slotId.toNat s ∧ s.length.toNat + p.getFreeSpace.toNat < r.bytes.length ∧
        p.updateRecord slotId r = (false, p)) ∨
      (∃ s, p.LiveAt slotId.toNat s ∧ r.bytes.length ≤ s.length.toNat ∧
        p.updateRecord slotId r = (true, p.overwrite slotId r)) ∨
      ∃ s, p.LiveAt slotId.toNat s ∧ s.length.toNat < r.bytes.length ∧
        r.bytes.length ≤ s.length.toNat + p.getFreeSpace.toNat ∧
        p.updateRecord slotId r = (true, p.relocate slotId r) := by
  have hr := RecordData.toNat_length r
  rcases liveAt_or hlen slotId with ⟨h, hno⟩ | ⟨h1, h2, hs⟩
  · refine .inl ⟨hno, ?_⟩
    rcases h with h | h
    · simp [updateRecord, h]
    · simp [updateRecord, h]
  · right
    by_cases hle : r.length ≤ (p.slot slotId).length
    · have hle' := UInt16.le_iff_toNat_le.mp hle
      exact .inr (.inl ⟨_, hs, by omega, by simp [updateRecord, h1, h2, hle]⟩)
    · have hlt : (p.slot slotId).length.toNat < r.length.toNat :=
        Nat.lt_of_not_le fun h => hle (UInt16.le_iff_toNat_le.mpr h)
      have hsub := toNat_sub16 hlt.le
      by_cases hbig : r.length - (p.slot slotId).length > p.getFreeSpace
      · have hbig' := UInt16.lt_iff_toNat_lt.mp hbig
        exact .inl ⟨_, hs, by omega, by simp [updateRecord, h1, h2, hle, hbig]⟩
      · have hbig' : ¬ p.getFreeSpace.toNat < (r.length - (p.slot slotId).length).toNat :=
          fun h => hbig (UInt16.lt_iff_toNat_lt.mpr h)
        exact .inr (.inr ⟨_, hs, by omega, by omega, by simp [updateRecord, h1, h2, hle, hbig]⟩)

/-- A live record does not start inside the header, so its entry is not empty at any length. -/
theorem Layout.offset_pos (h : p.Layout) {j : Nat} {s : SlotEntry} (hs : p.LiveAt j s) :
    20 ≤ s.offset.toNat := by
  have h1 := h.mem_range j s hs
  have h2 := h.offset_eq
  have h3 := h.offset_le
  omega

theorem SlotEntry_isEmpty_of_offset {o l : UInt16} (h : 20 ≤ o.toNat) :
    (SlotEntry.mk o l).isEmpty = false := by
  have ho : o ≠ 0 := fun h0 => by rw [h0] at h; exact absurd h (by decide)
  simp [SlotEntry.isEmpty, ho]

/-- Replacing a live entry by a live one keeps the number of live slots. -/
theorem countP_set_live {l : List SlotEntry} {s : SlotEntry} (hi : l[i]? = some s)
    (hs : s.isEmpty = false) (he : e.isEmpty = false) :
    (l.set i e).countP (fun s => !s.isEmpty) = l.countP fun s => !s.isEmpty := by
  obtain ⟨hlt, rfl⟩ := List.getElem?_eq_some_iff.mp hi
  have hpos : 0 < l.countP fun s => !s.isEmpty :=
    List.countP_pos_iff.mpr ⟨_, List.getElem_mem hlt, by simp [hs]⟩
  rw [List.countP_set hlt]
  simp only [hs, he, Bool.not_false, if_true]
  omega

/-- **Overwriting in place keeps the layout.** -/
theorem Layout.overwrite (h : p.Layout) {slotId : UInt16} {s : SlotEntry} {r : RecordData}
    (hs : p.LiveAt slotId.toNat s) (hr : r.bytes.length ≤ s.length.toNat) :
    (p.overwrite slotId r).Layout := by
  have hslot := hs.slot_eq
  have hne : (SlotEntry.mk s.offset r.length).isEmpty = false :=
    SlotEntry_isEmpty_of_offset (h.offset_pos hs)
  have hslots : (p.overwrite slotId r).slots
      = p.slots.set slotId.toNat ⟨s.offset, r.length⟩ := by rw [Page.overwrite, hslot]
  have hlive := liveAt_of_set hslots hs.lt
  have hlen := RecordData.toNat_length r
  have hrange := h.mem_range _ _ hs
  constructor
  · rw [hslots, List.length_set]; exact h.slots_length
  · exact h.offset_eq
  · exact h.offset_le
  · exact h.end_le
  · -- the record lies where it did, and is not longer
    intro j t ht
    rcases (hlive j t).mp ht with ⟨-, rfl, -⟩ | ⟨-, ht⟩
    · exact ⟨hrange.1, by simp only [hlen]; omega⟩
    · exact h.mem_range j t ht
  · -- it overlaps with no other record, as it did not before
    intro j k t u hjk ht hu
    rcases (hlive j t).mp ht with ⟨hj, rfl, -⟩ | ⟨hj, ht⟩ <;>
      rcases (hlive k u).mp hu with ⟨hk, rfl, -⟩ | ⟨hk, hu⟩
    · exact absurd (hj.trans hk.symm) hjk
    · have := h.disjoint _ _ s u (Ne.symm hk) hs hu
      simp only [hlen]
      omega
    · have := h.disjoint _ _ t s hj ht hs
      simp only [hlen]
      omega
    · exact h.disjoint j k t u hjk ht hu
  · -- the slot was live, and is
    change p.header.numRecords.toNat = _
    rw [hslots, countP_set_live hs.1 hs.2 hne, h.count]

theorem Layout.overwrite_recordAt (h : p.Layout) {slotId : UInt16} {s : SlotEntry}
    {r : RecordData} (hs : p.LiveAt slotId.toNat s) (hr : r.bytes.length ≤ s.length.toNat)
    (j : Nat) :
    (p.overwrite slotId r).recordAt j
      = if j = slotId.toNat then some r.bytes else p.recordAt j := by
  have hslot := hs.slot_eq
  have hne : (SlotEntry.mk s.offset r.length).isEmpty = false :=
    SlotEntry_isEmpty_of_offset (h.offset_pos hs)
  have hslots : (p.overwrite slotId r).slots
      = p.slots.set slotId.toNat ⟨s.offset, r.length⟩ := by rw [Page.overwrite, hslot]
  have hdata : (p.overwrite slotId r).data = p.data.write s.offset.toNat r.bytes := by
    rw [Page.overwrite, hslot]
  have hlive := liveAt_of_set hslots hs.lt
  -- the slot has the new bytes, and the others are not overwritten
  by_cases hj : j = slotId.toNat
  · rw [if_pos hj, recordAt_of_liveAt ((hlive j _).mpr (.inl ⟨hj, rfl, hne⟩)), hdata,
      RecordData.toNat_length, Buf.read_write_self]
  · rw [if_neg hj]
    refine recordAt_congr (fun t => by rw [hlive]; simp [hj]) fun t ht => ?_
    have ht' : p.LiveAt j t := by simpa [hlive, hj] using ht
    have := h.disjoint _ _ t s hj ht' hs
    rw [hdata, Buf.read_write_of_disjoint (by omega)]

/-- **Relocating into free space keeps the layout.** -/
theorem Layout.relocate (h : p.Layout) {slotId : UInt16} {s : SlotEntry} {r : RecordData}
    (hs : p.LiveAt slotId.toNat s)
    (hr : p.header.freeSpaceOffset.toNat + r.bytes.length ≤ p.header.freeSpaceEnd.toNat) :
    (p.relocate slotId r).Layout ∧ ∀ j, (p.relocate slotId r).recordAt j
      = if j = slotId.toNat then some r.bytes else p.recordAt j := by
  -- the record goes against the end of the free space
  have hlen := RecordData.toNat_length r
  have hoff : (p.header.freeSpaceEnd - r.length).toNat
      = p.header.freeSpaceEnd.toNat - r.bytes.length := by rw [toNat_sub16 (by omega), hlen]
  have hend := h.end_le
  have heq := h.offset_eq
  have hne : (SlotEntry.mk (p.header.freeSpaceEnd - r.length) r.length).isEmpty = false :=
    SlotEntry_isEmpty_of_offset (by omega)
  have hlive := liveAt_of_set (p := p) (q := p.relocate slotId r)
    (e := ⟨p.header.freeSpaceEnd - r.length, r.length⟩) rfl hs.lt
  refine ⟨⟨?_, h.offset_eq, ?_, ?_, ?_, ?_, ?_⟩, fun j => ?_⟩
  · simpa [Page.relocate] using h.slots_length
  · change p.header.freeSpaceOffset.toNat ≤ (p.header.freeSpaceEnd - r.length).toNat
    omega
  · change (p.header.freeSpaceEnd - r.length).toNat ≤ pageSize
    omega
  · -- the new record lies in what was free, the others above it
    intro j t ht
    change (p.header.freeSpaceEnd - r.length).toNat ≤ t.offset.toNat ∧ _
    rcases (hlive j t).mp ht with ⟨-, rfl, -⟩ | ⟨-, ht⟩
    · simp only [hlen]; omega
    · have := h.mem_range j t ht
      omega
  · -- so it overlaps with none
    intro j k t u hjk ht hu
    rcases (hlive j t).mp ht with ⟨hj, rfl, -⟩ | ⟨hj, ht⟩ <;>
      rcases (hlive k u).mp hu with ⟨hk, rfl, -⟩ | ⟨hk, hu⟩
    · exact absurd (hj.trans hk.symm) hjk
    · have := h.mem_range k u hu
      exact .inl (by simp only [hlen]; omega)
    · have := h.mem_range j t ht
      exact .inr (by simp only [hlen]; omega)
    · exact h.disjoint j k t u hjk ht hu
  · -- the slot was live, and is
    change p.header.numRecords.toNat = _
    rw [Page.relocate, countP_set_live hs.1 hs.2 hne, h.count]
  · -- the slot has the new bytes, and nothing else was written where a record is
    by_cases hj : j = slotId.toNat
    · rw [if_pos hj, recordAt_of_liveAt ((hlive j _).mpr (.inl ⟨hj, rfl, hne⟩)), Page.relocate,
        hlen, Buf.read_write_self]
    · rw [if_neg hj]
      refine recordAt_congr (fun t => by rw [hlive]; simp [hj]) fun t ht => ?_
      have ht' : p.LiveAt j t := by simpa [hlive, hj] using ht
      have := h.mem_range j t ht'
      rw [Page.relocate, Buf.read_write_of_disjoint (.inr (by omega))]

/-- **A successful update that has room keeps the layout**: the slot then holds the new record
and every other slot the record it had. -/
theorem Layout.updateRecord (h : p.Layout) {slotId : UInt16} {s : SlotEntry} {r : RecordData}
    (hs : p.LiveAt slotId.toNat s) (hr : p.HasRoomFor slotId r) :
    (p.updateRecord slotId r).1 = true ∧ (p.updateRecord slotId r).2.Layout ∧
      ∀ j, (p.updateRecord slotId r).2.recordAt j
        = if j = slotId.toNat then some r.bytes else p.recordAt j := by
  unfold HasRoomFor at hr
  rw [hs.slot_eq] at hr
  rcases updateRecord_cases h.slots_length slotId r with
    ⟨hno, -⟩ | ⟨t, ht, hbig, -⟩ | ⟨t, ht, hle, heq⟩ | ⟨t, ht, hlt, -, heq⟩
  · exact absurd hs (hno s)
  · obtain rfl := ht.unique hs
    rw [toNat_getFreeSpace h.offset_le] at hbig
    omega
  · rw [heq]
    exact ⟨rfl, h.overwrite ht hle, h.overwrite_recordAt ht hle⟩
  · obtain rfl := ht.unique hs
    rw [heq]
    exact ⟨rfl, h.relocate ht (by omega)⟩

end SetSlot

end Page

end CourtDB
