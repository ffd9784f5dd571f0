/-
# What a buffer pool represents

The pool is a cache over the disk, so what it stands for is a map from page ids to pages:
`Represents b m pending` says that the pool `b`, with its disk, holds the pages of `m`.  A resident
page is the one in its frame; a page that is not resident is the one its image decodes to; and the
image of a clean frame is current, unless a client has changed the page in place and not said so yet
(`pending`).  Such a page is pinned, so it cannot be evicted.

Each operation of the pool has one specification here and in the module after: what it does to the
represented map.  `WellFormed` is the bookkeeping underneath: the page table and the frames' page
ids are inverse to each other, free frames are unoccupied, and the replacer holds occupied frames
with no pins.

Pages are compared by their content (`SameContent`), not as they lie in a frame: a page that was
written and read again has the same header, directory and records, and may differ in bytes that
nobody looks at.  An image is decoded into whatever the frame held before, as
`DeserializeFromBuffer` does, so "the image holds the page" is said for every old content of a frame
(`Page.StoredIn`).
-/
import CourtDB.Buffer.BufferPool

namespace CourtDB

open Bytes

/-! ## 1. Images -/

/-- The image `b` decodes, in whatever frame, to a page of the content of `q`. -/
def Page.StoredIn (q : Page) (b : Buf) : Prop := ∀ frame : Page, (frame.loadFrom b).SameContent q

theorem storedIn_fill_serialize {p q : Page} (b : Buf) (h : p.SameContent q)
    (hq : q.DirectoryFits) : q.StoredIn (b.fill pageSize p.serializeToBuffer.data) := by
  intro frame
  rw [Page.loadFrom_congr frame fun i hi => Buf.fill_apply_of_lt hi]
  exact (Page.sameContent_loadFrom_serialize frame (h.symm.directoryFits hq)).trans h

namespace BufferPoolManager

/-! ## 2. Reading the updates of the state -/

section Updates

variable (b : BufferPoolManager) (f : FrameId) (p : Page) (m : FrameMetadata)

theorem setPage_pages (g : FrameId) : (b.setPage f p).pages g = if g = f then p else b.pages g :=
  Function.update_apply _ _ _ _

theorem setMeta_metadata (g : FrameId) :
    (b.setMeta f m).metadata g = if g = f then m else b.metadata g := Function.update_apply _ _ _ _

theorem writeBack_metadata (id : PageId) (g : FrameId) :
    (b.writeBack f id).metadata g
      = if g = f then { b.metadata f with isDirty := false } else b.metadata g :=
  Function.update_apply _ _ _ _

theorem writeBack_pages (id : PageId) (g : FrameId) :
    (b.writeBack f id).pages g = if g = f then (b.pages f).serializeToBuffer else b.pages g :=
  Function.update_apply _ _ _ _

@[simp] theorem writeBack_disk (id : PageId) :
    (b.writeBack f id).disk = (b.disk.writePage id (b.pages f).serializeToBuffer.data).2 := rfl

@[simp] theorem writeBack_pageTable (id : PageId) :
    (b.writeBack f id).pageTable = b.pageTable := rfl

@[simp] theorem writeBack_freeList (id : PageId) :
    (b.writeBack f id).freeList = b.freeList := rfl

@[simp] theorem writeBack_replacer (id : PageId) :
    (b.writeBack f id).replacer = b.replacer := rfl

@[simp] theorem writeBack_poolSize (id : PageId) :
    (b.writeBack f id).poolSize = b.poolSize := rfl

end Updates

/-! ## 3. The bookkeeping

What is needed of the tables and lists to speak of the frame of a page. -/

/-- The page table, the frames' metadata, the free list and the replacer agree. -/
structure WellFormed (b : BufferPoolManager) : Prop where
  table_iff : ∀ id f, b.pageTable id = some f ↔ (b.metadata f).pageId = id ∧ id ≠ invalidPageId
  frame_lt : ∀ id f, b.pageTable id = some f → f < b.poolSize
  resident_lt : ∀ id f, b.pageTable id = some f → id < b.disk.header.pageCount
  free_lt : ∀ f ∈ b.freeList, f < b.poolSize ∧ (b.metadata f).pageId = invalidPageId
  free_nodup : b.freeList.Nodup
  evictable : ∀ f ∈ b.replacer.lruList,
    (∃ id, b.pageTable id = some f) ∧ (b.metadata f).pinCount = 0
  lru_nodup : b.replacer.lruList.Nodup
  growing : b.disk.Growing

theorem wellFormed_create (n : Nat) {d : DiskManager} (h : d.Growing) :
    (create n d).WellFormed where
  table_iff id f := by
    constructor
    · intro hf; exact absurd hf (by simp [create])
    · rintro ⟨rfl, hne⟩; exact absurd rfl hne
  frame_lt _ _ hf := absurd hf (by simp [create])
  resident_lt _ _ hf := absurd hf (by simp [create])
  free_lt f hf := ⟨List.mem_range.mp hf, rfl⟩
  free_nodup := List.nodup_range
  evictable _ hf := absurd hf List.not_mem_nil
  lru_nodup := List.nodup_nil
  growing := h

namespace WellFormed

variable {b : BufferPoolManager}

/-- Two resident pages are in different frames. -/
theorem frame_inj (h : b.WellFormed) {id id' : PageId} {f : FrameId}
    (h1 : b.pageTable id = some f) (h2 : b.pageTable id' = some f) : id = id' :=
  ((h.table_iff id f).mp h1).1.symm.trans ((h.table_iff id' f).mp h2).1

theorem frame_ne (h : b.WellFormed) {id id' : PageId} {f g : FrameId}
    (h1 : b.pageTable id = some f) (h2 : b.pageTable id' = some g) (hne : id' ≠ id) : g ≠ f :=
  fun he => hne (h.frame_inj h2 (he ▸ h1))

/-- An unoccupied frame is nobody's frame. -/
theorem not_resident (h : b.WellFormed) {f : FrameId}
    (hf : (b.metadata f).pageId = invalidPageId) (id : PageId) : b.pageTable id ≠ some f :=
  fun he => by
    obtain ⟨h1, h2⟩ := (h.table_iff id f).mp he
    exact h2 (h1.symm.trans hf)

/-- A write back keeps the bookkeeping. -/
theorem writeBack (h : b.WellFormed) (f : FrameId) (id : PageId) :
    (b.writeBack f id).WellFormed := by
  have hid : ∀ g, ((b.writeBack f id).metadata g).pageId = (b.metadata g).pageId := by
    intro g
    rw [writeBack_metadata]
    split
    · rename_i hg; rw [hg]
    · rfl
  have hpin : ∀ g, ((b.writeBack f id).metadata g).pinCount = (b.metadata g).pinCount := by
    intro g
    rw [writeBack_metadata]
    split
    · rename_i hg; rw [hg]
    · rfl
  constructor
  · intro id' g; rw [hid]; exact h.table_iff id' g
  · exact h.frame_lt
  · intro id' g hg
    rw [writeBack_disk, DiskManager.writePage_header]
    exact h.resident_lt id' g hg
  · intro g hg; rw [hid]; exact h.free_lt g hg
  · exact h.free_nodup
  · intro g hg; rw [hpin]; exact h.evictable g hg
  · exact h.lru_nodup
  · exact h.growing.writePage _ _

end WellFormed

/-! ## 4. The represented map

`HoldsPage` is about one page and its two places, the frame and the image. -/

/-- The pool and its disk hold `q` under `id`; `pending` says whether the frame may have been
changed without the pool knowing. -/
structure HoldsPage (b : BufferPoolManager) (pending : Prop) (id : PageId) (q : Page) :
    Prop where
  fits : q.DirectoryFits
  ne_zero : id ≠ 0
  lt : id < b.disk.header.pageCount
  absent : b.pageTable id = none → q.StoredIn (b.disk.file id)
  present : ∀ f, b.pageTable id = some f → (b.pages f).SameContent q ∧
    ((b.metadata f).isDirty = false → ¬ pending → q.StoredIn (b.disk.file id))

/-- The pool `b` represents the pages of `m`, with undeclared changes at `pending`. -/
structure Represents (b : BufferPoolManager) (m : PageId → Option Page) (pending : PageId → Prop) :
    Prop where
  wf : b.WellFormed
  pinned : ∀ id, pending id → ∃ f, b.pageTable id = some f ∧ f ∉ b.replacer.lruList
  holds : ∀ id q, m id = some q → b.HoldsPage (pending id) id q

section Specs

variable {b b' : BufferPoolManager} {m : PageId → Option Page} {pending : PageId → Prop}

theorem Represents.of_iff (h : b.Represents m pending) {pending' : PageId → Prop}
    (hp : ∀ i, pending' i ↔ pending i) : b.Represents m pending' := by
  rwa [funext fun i => propext (hp i)]

/-- A page is held as before when its frame, its dirty bit and its image are as before. -/
theorem HoldsPage.congr {P : Prop} {id : PageId} {q : Page} (h : b.HoldsPage P id q)
    (hlt : b.disk.header.pageCount ≤ b'.disk.header.pageCount)
    (htab : b'.pageTable id = b.pageTable id)
    (hpage : ∀ f, b.pageTable id = some f → b'.pages f = b.pages f ∧
      (b'.metadata f).isDirty = (b.metadata f).isDirty)
    (hfile : b'.disk.file id = b.disk.file id) : b'.HoldsPage P id q where
  fits := h.fits
  ne_zero := h.ne_zero
  lt := UInt32.lt_of_lt_of_le h.lt hlt
  absent hf := by rw [hfile]; exact h.absent (htab ▸ hf)
  present f hf := by
    rw [htab] at hf
    rw [hfile, (hpage f hf).1, (hpage f hf).2]
    exact h.present f hf

/-- A write back of the page of frame `f` changes nothing that the pool represents. -/
theorem Represents.writeBack (h : b.Represents m pending) {f : FrameId} {id : PageId}
    (hf : b.pageTable id = some f) : (b.writeBack f id).Represents m pending where
  wf := h.wf.writeBack f id
  pinned := h.pinned
  holds := by
    intro id' q hq
    have hold := h.holds id' q hq
    by_cases hid : id' = id
    · subst hid
      have hsame := (hold.present f hf).1
      refine ⟨hold.fits, hold.ne_zero, ?_, fun hno => ?_, fun g hg => ?_⟩
      · rw [writeBack_disk, DiskManager.writePage_header]; exact hold.lt
      · exact absurd (hno.symm.trans hf) (by simp)
      · obtain rfl := Option.some.inj (hg.symm.trans hf)
        rw [writeBack_pages, if_pos rfl, writeBack_disk,
          DiskManager.writePage_file_self _ _ _ hold.lt]
        have hfits := hsame.symm.directoryFits hold.fits
        exact ⟨(Page.sameContent_serialize hfits).trans hsame,
          fun _ _ => storedIn_fill_serialize _ hsame hold.fits⟩
    · refine hold.congr (by simp) rfl (fun g hg => ?_) ?_
      · have hne := h.wf.frame_ne hf hg hid
        rw [writeBack_pages, writeBack_metadata, if_neg hne, if_neg hne]
        exact ⟨rfl, rfl⟩
      · rw [writeBack_disk]
        exact DiskManager.writePage_file_of_ne _ _ hid

/-! ### Freeing a frame -/

/-- Frame `f` holds no page, and is not on the free list either: it is the caller's. -/
def Vacant (b : BufferPoolManager) (f : FrameId) : Prop :=
  f < b.poolSize ∧ (b.metadata f).pageId = invalidPageId ∧ f ∉ b.freeList

/-- The last two steps of `EvictFrame`. -/
def vacate (b : BufferPoolManager) (f : FrameId) (id : PageId) : BufferPoolManager :=
  { b with pageTable := Function.update b.pageTable id none }.setMeta f {}

theorem vacate_pageTable (b : BufferPoolManager) (f : FrameId) (id id' : PageId) :
    (b.vacate f id).pageTable id' = if id' = id then none else b.pageTable id' :=
  Function.update_apply _ _ _ _

theorem vacate_metadata (b : BufferPoolManager) (f : FrameId) (id : PageId) (g : FrameId) :
    (b.vacate f id).metadata g = if g = f then {} else b.metadata g :=
  Function.update_apply _ _ _ _

theorem WellFormed.vacate (h : b.WellFormed) {f : FrameId} {id : PageId}
    (hf : b.pageTable id = some f) (hlru : f ∉ b.replacer.lruList) :
    (b.vacate f id).WellFormed := by
  have hmeta := (h.table_iff id f).mp hf
  -- the page table has lost one entry and got none
  have hsub : ∀ id' g, (b.vacate f id).pageTable id' = some g → b.pageTable id' = some g := by
    intro id' g hg
    rw [vacate_pageTable] at hg
    split at hg
    · exact absurd hg (by simp)
    · exact hg
  constructor
  · -- the page table and the frames
    intro id' g
    rw [vacate_pageTable, vacate_metadata]
    by_cases hg : g = f
    · subst hg
      rw [if_pos rfl]
      refine ⟨fun ht => ?_, fun ht => absurd ht.1.symm ht.2⟩
      split at ht
      · exact absurd ht (by simp)
      · rename_i hne; exact absurd (h.frame_inj ht hf) hne
    · rw [if_neg hg]
      by_cases hid : id' = id
      · subst hid
        refine ⟨fun ht => absurd ht (by simp), fun ht => ?_⟩
        exact absurd (Option.some.inj (((h.table_iff _ g).mpr ht).symm.trans hf)) hg
      · rw [if_neg hid]; exact h.table_iff id' g
  · -- frames are frames of the pool, and pages pages of the file
    exact fun id' g hg => h.frame_lt id' g (hsub id' g hg)
  · exact fun id' g hg => h.resident_lt id' g (hsub id' g hg)
  · -- free frames are unoccupied, and so is the one that was vacated
    intro g hg
    rw [vacate_metadata]
    refine ⟨(h.free_lt g hg).1, ?_⟩
    split
    · rfl
    · exact (h.free_lt g hg).2
  · exact h.free_nodup
  · -- what can be evicted is in other frames
    intro g hg
    have hne : g ≠ f := fun he => hlru (he ▸ hg)
    obtain ⟨⟨id', hid'⟩, hpin⟩ := h.evictable g hg
    rw [vacate_metadata, if_neg hne]
    refine ⟨⟨id', ?_⟩, hpin⟩
    rw [vacate_pageTable, if_neg, hid']
    rintro rfl
    exact hne (Option.some.inj (hid'.symm.trans hf))
  · exact h.lru_nodup
  · exact h.growing

theorem Represents.vacate (h : b.Represents m pending) {f : FrameId} {id : PageId}
    (hf : b.pageTable id = some f) (hlru : f ∉ b.replacer.lruList) (hp : ¬ pending id)
    (hclean : (b.metadata f).isDirty = false) :
    (b.vacate f id).Represents m pending ∧ (b.vacate f id).Vacant f := by
  refine ⟨⟨h.wf.vacate hf hlru, fun id' hid' => ?_, fun id' q hq => ?_⟩, ?_, ?_, fun hfree => ?_⟩
  · have hne : id' ≠ id := fun he => hp (he ▸ hid')
    rw [vacate_pageTable, if_neg hne]
    exact h.pinned id' hid'
  · have hold := h.holds id' q hq
    by_cases hid : id' = id
    · subst hid
      refine ⟨hold.fits, hold.ne_zero, hold.lt, fun _ => (hold.present f hf).2 hclean hp, ?_⟩
      intro g hg
      rw [vacate_pageTable, if_pos rfl] at hg
      exact absurd hg (by simp)
    · refine hold.congr (UInt32.le_refl _) (by rw [vacate_pageTable, if_neg hid]) ?_ rfl
      intro g hg
      rw [vacate_metadata, if_neg (h.wf.frame_ne hf hg hid)]
      exact ⟨rfl, rfl⟩
  · exact h.wf.frame_lt id f hf
  · rw [vacate_metadata, if_pos rfl]
  · have hunocc := (h.wf.free_lt f hfree).2
    exact h.wf.not_resident hunocc id hf

theorem evictFrame_pageTable (b : BufferPoolManager) (f : FrameId) (id : PageId) :
    (b.evictFrame f).pageTable id
      = if id = (b.metadata f).pageId then none else b.pageTable id := by
  unfold BufferPoolManager.evictFrame
  rw [← Function.update_apply b.pageTable]
  simp only []
  split <;> rfl

/-- **EvictFrame** frees the frame and changes nothing that the pool represents. -/
theorem Represents.evictFrame (h : b.Represents m pending) {f : FrameId} {id : PageId}
    (hf : b.pageTable id = some f) (hlru : f ∉ b.replacer.lruList) (hp : ¬ pending id) :
    (b.evictFrame f).Represents m pending ∧ (b.evictFrame f).Vacant f := by
  have hid := ((h.wf.table_iff id f).mp hf).1
  cases hd : (b.metadata f).isDirty with
  | false =>
    have heq : b.evictFrame f = b.vacate f id := by
      simp only [BufferPoolManager.evictFrame, hd, hid, Bool.false_eq_true, if_false]; rfl
    rw [heq]
    exact h.vacate hf hlru hp hd
  | true =>
    have heq : b.evictFrame f = (b.writeBack f id).vacate f id := by
      simp only [BufferPoolManager.evictFrame, hd, hid, if_true]; rfl
    rw [heq]
    exact (h.writeBack hf).vacate hf hlru hp (by rw [writeBack_metadata, if_pos rfl])

/-- A smaller replacer: fewer frames are evictable. -/
theorem Represents.shrinkReplacer (h : b.Represents m pending) {r : LRUReplacer}
    (hr : r.lruList.Sublist b.replacer.lruList) :
    ({ b with replacer := r } : BufferPoolManager).Represents m pending where
  wf := { h.wf with
    evictable := fun f hf => h.wf.evictable f (hr.subset hf)
    lru_nodup := hr.nodup h.wf.lru_nodup }
  pinned id hid := by
    obtain ⟨f, hf, hno⟩ := h.pinned id hid
    exact ⟨f, hf, fun hmem => hno (hr.subset hmem)⟩
  holds := fun id q hq => (h.holds id q hq).congr (UInt32.le_refl _) rfl (fun _ _ => ⟨rfl, rfl⟩) rfl

/-- A shorter free list. -/
theorem Represents.dropFree (h : b.Represents m pending) {f : FrameId} {rest : List FrameId}
    (hfree : b.freeList = f :: rest) :
    ({ b with freeList := rest } : BufferPoolManager).Represents m pending ∧
      ({ b with freeList := rest } : BufferPoolManager).Vacant f := by
  have hf := h.wf.free_lt f (hfree ▸ List.mem_cons_self)
  have hnd := List.nodup_cons.mp (hfree ▸ h.wf.free_nodup)
  refine ⟨⟨{ h.wf with
    free_lt := fun g hg => h.wf.free_lt g (hfree ▸ List.mem_cons_of_mem _ hg)
    free_nodup := hnd.2 }, h.pinned, ?_⟩, hf.1, hf.2, hnd.1⟩
  exact fun id q hq => (h.holds id q hq).congr (UInt32.le_refl _) rfl (fun _ _ => ⟨rfl, rfl⟩) rfl

/-- **FindFreeFrame** hands out a vacant frame and changes nothing that the pool represents.
What is resident afterwards was resident before, in the same frame. -/
theorem Represents.findFreeFrame (h : b.Represents m pending) {r : Option FrameId}
    (hr : b.findFreeFrame = (r, b')) :
    b'.Represents m pending ∧ (∀ f, r = some f → b'.Vacant f) ∧ (r = none → b' = b) ∧
      ∀ id, b.pageTable id = none → b'.pageTable id = none := by
  unfold BufferPoolManager.findFreeFrame at hr
  split at hr
  · rename_i f rest hfree
    obtain ⟨rfl, rfl⟩ := Prod.mk.inj hr
    obtain ⟨h1, h2⟩ := h.dropFree hfree
    exact ⟨h1, fun g hg => Option.some.inj hg ▸ h2, fun hn => absurd hn (by simp),
      fun _ hid => hid⟩
  · cases hlast : b.replacer.lruList.getLast? with
    | none =>
      simp only [LRUReplacer.evict, hlast, Prod.mk.injEq] at hr
      obtain ⟨rfl, rfl⟩ := hr
      exact ⟨h, fun g hg => absurd hg (by simp), fun _ => rfl, fun _ hid => hid⟩
    | some victim =>
      simp only [LRUReplacer.evict, hlast, Prod.mk.injEq] at hr
      obtain ⟨rfl, rfl⟩ := hr
      have hsplit : b.replacer.lruList = b.replacer.lruList.dropLast ++ [victim] :=
        (List.dropLast_append_getLast? _ hlast).symm
      have hmem : victim ∈ b.replacer.lruList := List.mem_of_getLast? hlast
      have hnot : victim ∉ b.replacer.lruList.dropLast := by
        have hnd := h.wf.lru_nodup
        rw [hsplit, List.nodup_append] at hnd
        exact fun hin => hnd.2.2 _ hin _ List.mem_cons_self rfl
      obtain ⟨⟨id, hid⟩, -⟩ := h.wf.evictable victim hmem
      -- a page with an undeclared change is pinned, so it is not the victim's
      have hp : ¬ pending id := fun hp => by
        obtain ⟨f, hf, hno⟩ := h.pinned id hp
        exact hno (Option.some.inj (hf.symm.trans hid) ▸ hmem)
      have hshrunk := h.shrinkReplacer (r := ⟨b.replacer.lruList.dropLast⟩)
        (List.dropLast_sublist _)
      obtain ⟨h1, h2⟩ := hshrunk.evictFrame hid hnot hp
      refine ⟨h1, fun g hg => Option.some.inj hg ▸ h2, fun hn => absurd hn (by simp), ?_⟩
      intro id' hid'
      rw [evictFrame_pageTable]
      split
      · rfl
      · exact hid'

end Specs

end BufferPoolManager

end CourtDB
