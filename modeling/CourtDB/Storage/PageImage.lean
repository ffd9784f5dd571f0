/-
# Pages and their raw images

A page has two representations, and `serializeToBuffer`/`deserializeFromBuffer` move between
them.  Serializing overwrites the header bytes and the directory bytes and nothing else, so
what the round trip through the raw 4096 bytes preserves is `SameContent`: the decoded header,
the decoded slots, and every byte outside the two serialized areas
(`sameContent_loadFrom_serialize`).

The record operations look at the header and the slots only, and a record of a page with the
layout lies outside the serialized areas.  So pages of the same content stay so under every
operation (`SameContent.insertRecord` and its siblings), and hold the same records.
-/
import CourtDB.Storage.PageCompact

namespace CourtDB

open Bytes

namespace Page

/-! ## 1. The header codec -/

theorem putHeader_apply {b : Buf} {h : PageHeader} {i : Nat} (hi : 18 ≤ i) :
    putHeader b h i = b i := by
  unfold putHeader
  iterate 7 rw [Buf.put_apply_of_not_mem (by simp; omega)]

theorem getHeader_congr {b b' : Buf} (h : ∀ i < 18, b i = b' i) : getHeader b = getHeader b' := by
  unfold getHeader
  congr 1 <;> exact Buf.get_congr fun i _ h2 => h i (lt_of_lt_of_le h2 (by decide))

theorem getHeader_putHeader (b : Buf) (h : PageHeader) : getHeader (putHeader b h) = h := by
  unfold getHeader putHeader
  congr 1 <;>
    simp only [Buf.get_put_self, Buf.get_put_of_disjoint, size_uint16, size_uint32, Nat.reduceAdd,
      Nat.reduceLeDiff, or_false]

/-! ## 2. The serialized areas -/

/-- The slot directory agrees with the header and lies inside the page. -/
def DirectoryFits (p : Page) : Prop :=
  p.slots.length = p.header.numSlots.toNat ∧ 20 + 4 * p.header.numSlots.toNat ≤ pageSize

/-- Offset `i` lies outside the serialized header and a directory of `n` slots. -/
def Outside (n i : Nat) : Prop := (18 ≤ i ∧ i < 20) ∨ 20 + 4 * n ≤ i

theorem Layout.directoryFits {p : Page} (h : p.Layout) : p.DirectoryFits :=
  ⟨h.slots_length, h.offset_eq ▸ h.offset_le.trans h.end_le⟩

theorem directoryFits_ofId (id : PageId) : (Page.ofId id).DirectoryFits :=
  (layout_ofId id).directoryFits

theorem serializeToBuffer_data {p : Page} (h : p.DirectoryFits) :
    p.serializeToBuffer.data = (putHeader p.data p.header).putAll 20 p.slots := by
  unfold serializeToBuffer
  rw [← h.1, List.take_length]
  rfl

/-- Serializing leaves every byte outside the serialized areas alone. -/
theorem serializeToBuffer_apply {p : Page} (h : p.DirectoryFits) {i : Nat}
    (hi : Outside p.header.numSlots.toNat i) : p.serializeToBuffer.data i = p.data i := by
  rw [serializeToBuffer_data h]
  rcases hi with hi | hi
  · rw [Buf.putAll_apply_of_not_mem (by omega), putHeader_apply hi.1]
  · rw [Buf.putAll_apply_of_not_mem (by simp [h.1]; omega), putHeader_apply (by omega)]

theorem getHeader_serialize {p : Page} (h : p.DirectoryFits) :
    getHeader p.serializeToBuffer.data = p.header := by
  rw [serializeToBuffer_data h]
  have hout : getHeader ((putHeader p.data p.header).putAll 20 p.slots)
      = getHeader (putHeader p.data p.header) :=
    getHeader_congr fun i hi => Buf.putAll_apply_of_not_mem (.inl (by omega))
  rw [hout, getHeader_putHeader]

theorem getAll_serialize {p : Page} (h : p.DirectoryFits) :
    p.serializeToBuffer.data.getAll SlotEntry 20 p.header.numSlots.toNat = p.slots := by
  rw [serializeToBuffer_data h]
  exact Buf.getAll_putAll h.1

/-! ## 3. Reading an image into a frame -/

theorem loadFrom_header (q : Page) (b : Buf) : (q.loadFrom b).header = getHeader b :=
  getHeader_congr fun _ hi => Buf.fill_apply_of_lt (hi.trans (by decide))

theorem loadFrom_apply (q : Page) (b : Buf) {i : Nat} (hi : i < pageSize) :
    (q.loadFrom b).data i = b i := Buf.fill_apply_of_lt hi

theorem loadFrom_slots_length (q : Page) (b : Buf) :
    (q.loadFrom b).slots.length = (q.loadFrom b).header.numSlots.toNat :=
  Buf.length_getAll _ _ _

theorem loadFrom_slots (q : Page) {b : Buf} (h : 20 + 4 * (getHeader b).numSlots.toNat ≤ pageSize) :
    (q.loadFrom b).slots = b.getAll SlotEntry 20 (getHeader b).numSlots.toNat := by
  have hh := loadFrom_header q b
  change Buf.getAll SlotEntry _ 20 (q.loadFrom b).header.numSlots.toNat = _
  rw [hh]
  refine Buf.getAll_congr fun i _ h2 => Buf.fill_apply_of_lt ?_
  simp only [size_slotEntry] at h2
  omega

/-! ## 4. Pages of the same content -/

/-- Equal header, equal slots, and equal bytes outside the serialized header and directory. -/
structure SameContent (p q : Page) : Prop where
  header : p.header = q.header
  slots : p.slots = q.slots
  data : ∀ i < pageSize, Outside p.header.numSlots.toNat i → p.data i = q.data i

namespace SameContent

variable {p q r : Page}

theorem refl (p : Page) : SameContent p p := ⟨rfl, rfl, fun _ _ _ => rfl⟩

theorem symm (h : SameContent p q) : SameContent q p :=
  ⟨h.header.symm, h.slots.symm, fun i hi ho => (h.data i hi (h.header ▸ ho)).symm⟩

theorem trans (h : SameContent p q) (h' : SameContent q r) : SameContent p r :=
  ⟨h.header.trans h'.header, h.slots.trans h'.slots, fun i hi ho =>
    (h.data i hi ho).trans (h'.data i hi (h.header ▸ ho))⟩

theorem directoryFits (h : SameContent p q) (hp : p.DirectoryFits) : q.DirectoryFits := by
  unfold DirectoryFits at *
  rwa [← h.header, ← h.slots]

theorem liveAt_iff (h : SameContent p q) (j : Nat) (s : SlotEntry) :
    p.LiveAt j s ↔ q.LiveAt j s := by
  unfold LiveAt
  rw [h.slots]

theorem layout (h : SameContent p q) (hp : p.Layout) : q.Layout where
  slots_length := h.header ▸ h.slots ▸ hp.slots_length
  offset_eq := h.header ▸ hp.offset_eq
  offset_le := h.header ▸ hp.offset_le
  end_le := h.header ▸ hp.end_le
  mem_range i s hs := h.header ▸ hp.mem_range i s ((h.liveAt_iff i s).mpr hs)
  disjoint i j s t hij hs ht :=
    hp.disjoint i j s t hij ((h.liveAt_iff i s).mpr hs) ((h.liveAt_iff j t).mpr ht)
  count := h.header ▸ h.slots ▸ hp.count

/-- **Pages of the same content hold the same records.** -/
theorem recordAt (h : SameContent p q) (hp : p.Layout) (j : Nat) :
    p.recordAt j = q.recordAt j := by
  refine recordAt_congr (h.liveAt_iff j) fun s hs => Buf.read_congr fun i h1 h2 => ?_
  have h3 := hp.mem_range j s hs
  have h4 := hp.offset_eq
  have h5 := hp.offset_le
  exact h.data i (by omega) (.inr (by omega))

theorem getRecord (h : SameContent p q) (hp : p.Layout) (slotId : UInt16) :
    p.getRecord slotId = q.getRecord slotId := by
  rw [getRecord_eq hp.slots_length, getRecord_eq (h.layout hp).slots_length, h.recordAt hp]

end SameContent

/-! ## 5. The round trip -/

theorem sameContent_serialize {p : Page} (h : p.DirectoryFits) :
    SameContent p.serializeToBuffer p :=
  ⟨rfl, rfl, fun _ _ ho => serializeToBuffer_apply h ho⟩

/-- Two frames that read the same image hold the same content. -/
theorem sameContent_loadFrom (q q' : Page) {b : Buf}
    (h : 20 + 4 * (getHeader b).numSlots.toNat ≤ pageSize) :
    SameContent (q.loadFrom b) (q'.loadFrom b) :=
  ⟨by rw [loadFrom_header, loadFrom_header], by rw [loadFrom_slots q h, loadFrom_slots q' h],
    fun i hi _ => by rw [loadFrom_apply q b hi, loadFrom_apply q' b hi]⟩

/-- **The round trip through the raw bytes.**  Serializing a page and reading the 4096 bytes
into any frame gives a page of the same content. -/
theorem sameContent_loadFrom_serialize (q : Page) {p : Page} (h : p.DirectoryFits) :
    SameContent (q.loadFrom p.serializeToBuffer.data) p := by
  have hh := getHeader_serialize h
  have hfit : 20 + 4 * (getHeader p.serializeToBuffer.data).numSlots.toNat ≤ pageSize := by
    rw [hh]; exact h.2
  refine ⟨by rw [loadFrom_header, hh], ?_, fun i hi ho => ?_⟩
  · rw [loadFrom_slots q hfit, hh, getAll_serialize h]
  · rw [loadFrom_header, hh] at ho
    rw [loadFrom_apply q _ hi, serializeToBuffer_apply h ho]

/-- An image depends on its 4096 bytes only. -/
theorem loadFrom_congr (q : Page) {b b' : Buf} (h : ∀ i < pageSize, b i = b' i) :
    q.loadFrom b = q.loadFrom b' := by
  have hfill : q.data.fill pageSize b = q.data.fill pageSize b' := by
    funext i
    unfold Buf.fill
    split
    · rename_i hi; exact h i hi
    · rfl
  unfold loadFrom
  rw [hfill]

end Page

end CourtDB
