/-
# The pool's operations, on what the pool represents

One theorem for each operation of `BufferPoolManager`: fetching, unpinning and flushing leave the
represented map alone, `NewPage` adds the empty page, and a change that a client makes through its
pointer changes the one page.  The only condition is the unpin that makes a frame evictable: the
page's last change must have been declared by then.

The map that a pool represents is that of the pages as clients see them: a resident page is what is
in its frame, and any other page what is on the disk.  `WellFormed` is what holds the two together:
the page table and the frames agree, the free frames are vacant, and a clean page without pins is
the same in its frame and on the disk.

So an eviction changes the pool and not the map, whether the page is written back or dropped.  It
would change the map if a page was changed and given back as clean, which is why the unpin asks for
the declaration, and not the write itself: a page may be declared dirty by any of its clients, and
only when the last one gives it back does it matter.
-/
import CourtDB.Buffer.PoolInvariant
import CourtDB.Lib.Run

namespace CourtDB

open Bytes

namespace BufferPoolManager

section Specs

variable {b b' : BufferPoolManager} {m : PageId → Option Page} {pending : PageId → Prop}

/-! ## 1. Pins

Pins and dirty bits are in the metadata only; the frame keeps its page. -/

/-- New pins and a new dirty bit for the frame of a resident page. -/
theorem WellFormed.setFrame (h : b.WellFormed) {f : FrameId} {mt : FrameMetadata}
    {r : LRUReplacer} (hid : mt.pageId = (b.metadata f).pageId) (hnd : r.lruList.Nodup)
    (hr : ∀ g ∈ r.lruList, g ≠ f → g ∈ b.replacer.lruList)
    (hf : f ∈ r.lruList → (∃ id, b.pageTable id = some f) ∧ mt.pinCount = 0) :
    ({ b with replacer := r }.setMeta f mt).WellFormed := by
  have hpage : ∀ g, (({ b with replacer := r }.setMeta f mt).metadata g).pageId
      = (b.metadata g).pageId := by
    intro g
    rw [setMeta_metadata]
    split
    · rename_i hg; rw [hg, hid]
    · rfl
  constructor
  · intro id g; rw [hpage]; exact h.table_iff id g
  · exact h.frame_lt
  · exact h.resident_lt
  · intro g hg; rw [hpage]; exact h.free_lt g hg
  · exact h.free_nodup
  · intro g hg
    rw [setMeta_metadata]
    by_cases hgf : g = f
    · subst hgf; rw [if_pos rfl]; exact hf hg
    · rw [if_neg hgf]; exact h.evictable g (hr g hg hgf)
  · exact hnd
  · exact h.growing

theorem Represents.setFrame (h : b.Represents m pending) {pending' : PageId → Prop} {f : FrameId}
    {id : PageId} {mt : FrameMetadata} {r : LRUReplacer} (hf : b.pageTable id = some f)
    (hid : mt.pageId = (b.metadata f).pageId) (hnd : r.lruList.Nodup)
    (hr : ∀ g ∈ r.lruList, g ≠ f → g ∈ b.replacer.lruList)
    (hpin : f ∈ r.lruList → mt.pinCount = 0 ∧ ¬ pending' id)
    (hp : ∀ i, pending' i → pending i) (hp' : ∀ i, i ≠ id → pending i → pending' i)
    (hd : mt.isDirty = false → ¬ pending' id → (b.metadata f).isDirty = false ∧ ¬ pending id) :
    ({ b with replacer := r }.setMeta f mt).Represents m pending' := by
  refine ⟨h.wf.setFrame hid hnd hr fun hmem => ⟨⟨id, hf⟩, (hpin hmem).1⟩, ?_, ?_⟩
  · intro i hi
    obtain ⟨g, hg, hno⟩ := h.pinned i (hp i hi)
    refine ⟨g, hg, fun hmem => ?_⟩
    by_cases hgf : g = f
    · subst hgf
      exact (hpin hmem).2 (h.wf.frame_inj hg hf ▸ hi)
    · exact hno (hr g hmem hgf)
  · intro i q hq
    have hold := h.holds i q hq
    refine ⟨hold.fits, hold.ne_zero, hold.lt, hold.absent, fun g hg => ?_⟩
    obtain ⟨hsame, himage⟩ := hold.present g hg
    refine ⟨hsame, fun hclean hnp => ?_⟩
    rw [setMeta_metadata] at hclean
    by_cases hi : i = id
    · subst hi
      obtain rfl := Option.some.inj (hg.symm.trans hf)
      rw [if_pos rfl] at hclean
      exact himage (hd hclean hnp).1 (hd hclean hnp).2
    · rw [if_neg (h.wf.frame_ne hf hg hi)] at hclean
      exact himage hclean fun hpi => hnp (hp' i hi hpi)

theorem Represents.pinFrame (h : b.Represents m pending) {f : FrameId} {id : PageId}
    (hf : b.pageTable id = some f) : (b.pinFrame f).Represents m pending := by
  have hnd := h.wf.lru_nodup
  unfold BufferPoolManager.pinFrame
  refine h.setFrame hf rfl ?_ ?_ ?_ (fun _ hi => hi) (fun _ _ hi => hi) (fun h1 h2 => ⟨h1, h2⟩)
  · split
    · exact hnd.erase f
    · exact hnd
  · intro g hg _
    split at hg
    · exact List.mem_of_mem_erase hg
    · exact hg
  · -- an evictable frame had no pins, so the first pin takes it out of the replacer
    intro hmem
    split at hmem
    · exact absurd hmem (fun hin => (hnd.mem_erase_iff.mp hin).1 rfl)
    · rename_i hne
      exact absurd (by rw [(h.wf.evictable f hmem).2]; rfl) hne

/-- Is this the unpin after which nobody holds the page? -/
def IsLastPin (b : BufferPoolManager) (id : PageId) : Prop :=
  ∃ f, b.pageTable id = some f ∧ (b.metadata f).pinCount = 1

/-- **UnpinPage**, the last one of a page only after its change was declared. -/
theorem Represents.unpinPage (h : b.Represents m pending) {id : PageId} {isDirty : Bool}
    (hlast : b.IsLastPin id → pending id → isDirty = true) :
    (b.unpinPage id isDirty).2.Represents m
      fun i => pending i ∧ ¬ (i = id ∧ (b.unpinPage id isDirty).1 = true ∧ isDirty = true) := by
  unfold BufferPoolManager.unpinPage
  cases hf : b.pageTable id with
  | none => simpa using h
  | some f =>
    by_cases h0 : (b.metadata f).pinCount = 0
    · simpa only [h0, if_true, Bool.false_eq_true, false_and, and_false, not_false_eq_true,
        and_true] using h
    · simp only [h0, if_false, true_and]
      refine h.setFrame hf rfl ?_ ?_ ?_ (fun _ hi => hi.1) (fun i hne hi => ⟨hi, by simp [hne]⟩) ?_
      · split
        · exact List.nodup_cons.mpr
            ⟨fun hin => (h.wf.lru_nodup.mem_erase_iff.mp hin).1 rfl, h.wf.lru_nodup.erase f⟩
        · exact h.wf.lru_nodup
      · intro g hg hne
        split at hg
        · rcases List.mem_cons.mp hg with hg | hg
          · exact absurd hg hne
          · exact List.mem_of_mem_erase hg
        · exact hg
      · intro hmem
        split at hmem
        · rename_i hz
          refine ⟨hz, fun hp => hp.2 ⟨rfl, hlast ⟨f, hf, ?_⟩ hp.1⟩⟩
          exact (UInt32.sub_eq_iff_eq_add.mp hz).trans (by simp)
        · exact absurd (h.wf.evictable f hmem).2 h0
      · intro hd hnp
        rw [Bool.or_eq_false_iff] at hd
        exact ⟨hd.1, fun hp => hnp ⟨hp, by simp [hd.2]⟩⟩

/-! ## 2. Filling a frame

Both `FetchPage` and `NewPage` first take a frame, from the free list or from the replacer, and then
occupy it.  Between the two the pool has a frame that is in no list (`Vacant`). -/

theorem occupy_pageTable (f : FrameId) (id : PageId) (page : Page) (d : Bool) (i : PageId) :
    (b.occupy f id page d).pageTable i = if i = id then some f else b.pageTable i :=
  Function.update_apply _ _ _ _

theorem occupy_metadata (f : FrameId) (id : PageId) (page : Page) (d : Bool) (g : FrameId) :
    (b.occupy f id page d).metadata g
      = if g = f then { pageId := id, pinCount := 1, isDirty := d } else b.metadata g :=
  Function.update_apply _ _ _ _

theorem occupy_pages (f : FrameId) (id : PageId) (page : Page) (d : Bool) (g : FrameId) :
    (b.occupy f id page d).pages g = if g = f then page else b.pages g :=
  Function.update_apply _ _ _ _

theorem ne_invalid_of_lt {id : PageId} {n : UInt32} (h : id < n) : id ≠ invalidPageId := by
  rintro rfl
  have h1 := UInt32.lt_iff_toNat_lt.mp h
  have h2 := n.toNat_lt
  have h3 : invalidPageId.toNat = 2 ^ 32 - 1 := rfl
  omega

theorem WellFormed.occupy (h : b.WellFormed) {f : FrameId} {id : PageId} (page : Page) (d : Bool)
    (hv : b.Vacant f) (hno : b.pageTable id = none) (hlt : id < b.disk.header.pageCount) :
    (b.occupy f id page d).WellFormed := by
  have hne := ne_invalid_of_lt hlt
  have hunocc := h.not_resident hv.2.1
  constructor
  · intro i g
    rw [occupy_pageTable, occupy_metadata]
    by_cases hi : i = id <;> by_cases hg : g = f
    · subst hi hg; simp [hne]
    · subst hi
      rw [if_pos rfl, if_neg hg]
      refine ⟨fun he => absurd (Option.some.inj he).symm hg, fun he => ?_⟩
      exact absurd (((h.table_iff _ g).mpr he).symm.trans hno) (by simp)
    · subst hg
      rw [if_neg hi, if_pos rfl]
      exact ⟨fun he => absurd he (hunocc i), fun he => absurd he.1.symm hi⟩
    · rw [if_neg hi, if_neg hg]; exact h.table_iff i g
  · intro i g hg
    rw [occupy_pageTable] at hg
    split at hg
    · exact Option.some.inj hg ▸ hv.1
    · exact h.frame_lt i g hg
  · intro i g hg
    rw [occupy_pageTable] at hg
    split at hg
    · rename_i hi; exact hi ▸ hlt
    · exact h.resident_lt i g hg
  · intro g hg
    have hgf : g ≠ f := fun he => hv.2.2 (he ▸ hg)
    rw [occupy_metadata, if_neg hgf]
    exact h.free_lt g hg
  · exact h.free_nodup
  · intro g hg
    obtain ⟨⟨i, hi⟩, hpin⟩ := h.evictable g hg
    have hgf : g ≠ f := fun he => hunocc i (he ▸ hi)
    rw [occupy_metadata, if_neg hgf]
    refine ⟨⟨i, ?_⟩, hpin⟩
    have hid : i ≠ id := fun he => absurd (hno.symm.trans (he ▸ hi)) (by simp)
    rw [occupy_pageTable, if_neg hid, hi]
  · exact h.lru_nodup
  · exact h.growing

/-- A vacant frame is filled with the page of `id`, which was not resident. -/
theorem Represents.occupy (h : b.Represents m pending) {m' : PageId → Option Page} {f : FrameId}
    {id : PageId} {page : Page} {d : Bool} (hv : b.Vacant f) (hno : b.pageTable id = none)
    (hlt : id < b.disk.header.pageCount) (hm : ∀ i, i ≠ id → m' i = m i)
    (hid : ∀ q, m' id = some q → q.DirectoryFits ∧ id ≠ 0 ∧ page.SameContent q ∧
      (d = false → q.StoredIn (b.disk.file id))) :
    (b.occupy f id page d).Represents m' pending := by
  have hunocc := h.wf.not_resident hv.2.1
  refine ⟨h.wf.occupy page d hv hno hlt, fun i hi => ?_, fun i q hq => ?_⟩
  · obtain ⟨g, hg, hlru⟩ := h.pinned i hi
    have hne : i ≠ id := fun he => absurd (hno.symm.trans (he ▸ hg)) (by simp)
    exact ⟨g, by rw [occupy_pageTable, if_neg hne, hg], hlru⟩
  · by_cases hi : i = id
    · subst hi
      obtain ⟨hfits, hne0, hsame, himage⟩ := hid q hq
      refine ⟨hfits, hne0, hlt, fun hn => ?_, fun g hg => ?_⟩
      · rw [occupy_pageTable, if_pos rfl] at hn
        exact absurd hn (by simp)
      · rw [occupy_pageTable, if_pos rfl] at hg
        obtain rfl := Option.some.inj hg
        rw [occupy_pages, if_pos rfl, occupy_metadata, if_pos rfl]
        exact ⟨hsame, fun hd _ => himage hd⟩
    · rw [hm i hi] at hq
      refine (h.holds i q hq).congr (UInt32.le_refl _) (by rw [occupy_pageTable, if_neg hi]) ?_ rfl
      intro g hg
      have hgf : g ≠ f := fun he => hunocc i (he ▸ hg)
      rw [occupy_pages, if_neg hgf, occupy_metadata, if_neg hgf]
      exact ⟨rfl, rfl⟩

/-- A vacant frame goes back to the free list. -/
theorem Represents.pushFree (h : b.Represents m pending) {f : FrameId} (hv : b.Vacant f) :
    ({ b with freeList := b.freeList ++ [f] } : BufferPoolManager).Represents m pending where
  wf := { h.wf with
    free_lt := by
      intro g hg
      rcases List.mem_append.mp hg with hg | hg
      · exact h.wf.free_lt g hg
      · obtain rfl := List.mem_singleton.mp hg
        exact ⟨hv.1, hv.2.1⟩
    free_nodup := List.nodup_append.mpr ⟨h.wf.free_nodup, List.nodup_singleton f,
      fun g hg g' hg' he => hv.2.2 (List.mem_singleton.mp hg' ▸ he ▸ hg)⟩ }
  pinned := h.pinned
  holds := fun id q hq =>
    (h.holds id q hq).congr (UInt32.le_refl _) rfl (fun _ _ => ⟨rfl, rfl⟩) rfl

/-- **FetchPage** changes nothing that the pool represents, and the frame it returns holds the
page. -/
theorem Represents.fetchPage (h : b.Represents m pending) (id : PageId) :
    (b.fetchPage id).2.Represents m pending ∧ ∀ f, (b.fetchPage id).1 = some f →
      (b.fetchPage id).2.pageTable id = some f ∧
        ∀ q, m id = some q → ((b.fetchPage id).2.pages f).SameContent q := by
  unfold BufferPoolManager.fetchPage
  cases ht : b.pageTable id with
  | some f =>
    refine ⟨h.pinFrame ht, fun g hg => ?_⟩
    obtain rfl := Option.some.inj hg
    exact ⟨ht, fun q hq => ((h.holds id q hq).present f ht).1⟩
  | none =>
    simp only []
    cases hfree : b.findFreeFrame with
    | mk r b' =>
      obtain ⟨h', hv, -, hres⟩ := h.findFreeFrame hfree
      cases r with
      | none => exact ⟨h', fun g hg => absurd hg (by simp)⟩
      | some f =>
        simp only []
        cases hread : b'.disk.readPage id with
        | none => exact ⟨h'.pushFree (hv f rfl), fun g hg => absurd hg (by simp)⟩
        | some buffer =>
          obtain ⟨hlt, rfl⟩ := DiskManager.readPage_eq_some hread
          have hno := hres id ht
          have himage : ∀ q, m id = some q → q.StoredIn (b'.disk.file id) :=
            fun q hq => (h'.holds id q hq).absent hno
          refine ⟨h'.occupy (hv f rfl) hno hlt (fun _ _ => rfl) fun q hq => ?_, fun g hg => ?_⟩
          · have hold := h'.holds id q hq
            exact ⟨hold.fits, hold.ne_zero, himage q hq _, fun _ => himage q hq⟩
          · obtain rfl := Option.some.inj hg
            refine ⟨by rw [occupy_pageTable, if_pos rfl], fun q hq => ?_⟩
            rw [occupy_pages, if_pos rfl]
            exact himage q hq _

/-! ## 3. New pages and changes by clients

`NewPage` extends the file, but the page itself is only in its frame, and dirty from the start. -/

/-- Extending the file changes nothing that the pool represents. -/
theorem Represents.allocate (h : b.Represents m pending)
    (hid : b.disk.allocatePage.1 ≠ invalidPageId) :
    ({ b with disk := b.disk.allocatePage.2 } : BufferPoolManager).Represents m pending := by
  obtain ⟨-, hgrow, hcount, -, hfile⟩ := h.wf.growing.allocatePage hid
  have hle : b.disk.header.pageCount ≤ b.disk.allocatePage.2.header.pageCount :=
    UInt32.le_iff_toNat_le.mpr (by omega)
  refine ⟨{ h.wf with
    resident_lt := fun i g hg => UInt32.lt_of_lt_of_le (h.wf.resident_lt i g hg) hle
    growing := hgrow }, h.pinned, fun i q hq => ?_⟩
  have hold := h.holds i q hq
  refine hold.congr hle rfl (fun _ _ => ⟨rfl, rfl⟩) (hfile i hold.ne_zero fun he => ?_)
  exact absurd (he ▸ hold.lt) (UInt32.lt_irrefl _)

/-- **NewPage** adds the empty page under an id that the pool did not represent before. -/
theorem Represents.newPage (h : b.Represents m pending)
    (hvalid : b.newPageId ≠ some invalidPageId) :
    (b.newPage.1 = none → b.newPage.2 = b) ∧ ∀ f, b.newPage.1 = some f → ∃ id,
      b.newPageId = some id ∧ m id = none ∧ b.newPage.2.pageTable id = some f ∧
        b.newPage.2.Represents (Function.update m id (some (Page.ofId id))) pending := by
  unfold newPageId at *
  unfold BufferPoolManager.newPage at *
  cases hfree : b.findFreeFrame with
  | mk r b' =>
    obtain ⟨h', hv, hnone, -⟩ := h.findFreeFrame hfree
    rw [hfree] at hvalid
    cases r with
    | none => exact ⟨fun _ => hnone rfl, fun f hf => absurd hf (by simp)⟩
    | some f =>
      have hself : ∀ page d, (BufferPoolManager.occupy { b' with disk := b'.disk.allocatePage.2 } f
          b'.disk.allocatePage.1 page d).pages f = page := fun _ _ => Function.update_self _ _ _
      simp only [hself, Option.map_some, Page.getPageId, Page.ofId] at hvalid ⊢
      have hid : b'.disk.allocatePage.1 ≠ invalidPageId := fun he => hvalid (he ▸ rfl)
      obtain ⟨heq, hgrow, hcount, -, -⟩ := h'.wf.growing.allocatePage hid
      refine ⟨fun hn => absurd hn (by simp), fun g hg => ⟨_, rfl, ?_, ?_, ?_⟩⟩
      · -- what the pool represents lies within the old end of the file
        refine Option.eq_none_iff_forall_ne_some.mpr fun q hq => ?_
        exact absurd (heq ▸ (h'.holds _ q hq).lt) (UInt32.lt_irrefl _)
      · rw [occupy_pageTable, if_pos rfl]
        exact hg
      · -- the frame that was found is vacant, and the page comes into it
        refine (h'.allocate hid).occupy (hv f rfl) ?_ ?_ ?_ ?_
        · refine Option.eq_none_iff_forall_ne_some.mpr fun g hg => ?_
          exact absurd (heq ▸ h'.wf.resident_lt _ g hg) (UInt32.lt_irrefl _)
        · change _ < b'.disk.allocatePage.2.header.pageCount
          rw [heq]
          exact UInt32.lt_iff_toNat_lt.mpr (by omega)
        · exact fun i hi => Function.update_of_ne hi _ _
        · -- a page that was just made is dirty
          intro q hq
          rw [Function.update_self] at hq
          obtain rfl := Option.some.inj hq
          refine ⟨Page.directoryFits_ofId _, ?_, Page.SameContent.refl _, fun hd => ?_⟩
          · rw [heq]
            exact fun h0 => absurd h'.wf.growing.2 (by rw [h0]; decide)
          · exact absurd hd (by decide)

/-- **A change by a client** through its pointer, which the pool learns of at an unpin only. -/
theorem Represents.setPage (h : b.Represents m pending) {f : FrameId} {id : PageId} {p : Page}
    (hf : b.pageTable id = some f) (hpin : (b.metadata f).pinCount ≠ 0) (hp : p.DirectoryFits) :
    (b.setPage f p).Represents (fun i => if i = id ∧ (m i).isSome then some p else m i)
      fun i => pending i ∨ i = id := by
  have hlru : f ∉ b.replacer.lruList := fun hmem => hpin (h.wf.evictable f hmem).2
  refine ⟨{ h.wf with }, fun i hi => ?_, fun i q hq => ?_⟩
  · rcases hi with hi | rfl
    · exact h.pinned i hi
    · exact ⟨f, hf, hlru⟩
  · by_cases hi : i = id
    · subst hi
      cases hm : m i with
      | none => simp [hm] at hq
      | some q' =>
        have hold := h.holds i q' hm
        simp only [hm, Option.isSome_some, and_self, if_true, Option.some.injEq] at hq
        subst hq
        refine ⟨hp, hold.ne_zero, hold.lt, fun hn => ?_, fun g hg => ?_⟩
        · exact absurd (hf.symm.trans hn) (by simp)
        · obtain rfl := Option.some.inj (hg.symm.trans hf)
          rw [setPage_pages, if_pos rfl]
          exact ⟨Page.SameContent.refl _, fun _ hnp => absurd (.inr rfl) hnp⟩
    · rw [if_neg fun h => hi h.1] at hq
      have hold := h.holds i q hq
      refine ⟨hold.fits, hold.ne_zero, hold.lt, hold.absent, fun g hg => ?_⟩
      obtain ⟨hsame, himage⟩ := hold.present g hg
      rw [setPage_pages, if_neg (h.wf.frame_ne hf hg hi)]
      exact ⟨hsame, fun hd hnp => himage hd fun hpi => hnp (.inl hpi)⟩

/-! ## 4. Flushing and reopening

After `FlushAllPages` every frame is clean or vacant, so the images on the disk are the whole map.
The destructor of the pool does the same. -/

/-- **FlushPage** changes nothing that the pool represents. -/
theorem Represents.flushPage (h : b.Represents m pending) (id : PageId) :
    (b.flushPage id).2.Represents m pending := by
  unfold BufferPoolManager.flushPage
  cases hf : b.pageTable id with
  | none => exact h
  | some f => exact h.writeBack hf

theorem Represents.flushFrame (h : b.Represents m pending) (f : FrameId) :
    (b.flushFrame f).Represents m pending := by
  unfold BufferPoolManager.flushFrame
  split
  · rename_i hf
    refine h.writeBack ((h.wf.table_iff _ f).mpr ⟨rfl, ?_⟩)
    simpa [FrameMetadata.isOccupied] using hf.1
  · exact h

/-- **FlushAllPages** changes nothing that the pool represents. -/
theorem Represents.flushAllPages (h : b.Represents m pending) :
    b.flushAllPages.Represents m pending :=
  Run.invariant (I := fun b : BufferPoolManager => b.Represents m pending)
    (fun _ f h => h.flushFrame f) h _

/-- The frame is unoccupied or clean. -/
def CleanFrame (b : BufferPoolManager) (f : FrameId) : Prop :=
  (b.metadata f).isOccupied = true → (b.metadata f).isDirty = false

theorem cleanFrame_flushFrame (b : BufferPoolManager) (f g : FrameId) (h : b.CleanFrame g ∨ g = f) :
    (b.flushFrame f).CleanFrame g := by
  unfold flushFrame CleanFrame at *
  split
  · rename_i hf
    rw [writeBack_metadata]
    split
    · exact fun _ => rfl
    · rename_i hne
      exact h.resolve_right hne
  · rename_i hf
    rcases h with h | rfl
    · exact h
    · intro hocc
      simpa [hocc] using hf

theorem cleanFrame_foldl {g : FrameId} : ∀ (l : List FrameId) (b : BufferPoolManager), g ∈ l →
    (l.foldl BufferPoolManager.flushFrame b).CleanFrame g
  | f :: l, b, hg => by
    rcases List.mem_cons.mp hg with rfl | hg
    · exact Run.invariant (I := fun b : BufferPoolManager => b.CleanFrame g)
        (fun b f h => cleanFrame_flushFrame b f g (.inl h))
        (cleanFrame_flushFrame b g g (.inr rfl)) l
    · exact cleanFrame_foldl l (b.flushFrame f) hg

theorem flushAllPages_poolSize (b : BufferPoolManager) : b.flushAllPages.poolSize = b.poolSize :=
  Run.invariant (I := fun b' : BufferPoolManager => b'.poolSize = b.poolSize)
    (fun b' f h => by unfold BufferPoolManager.flushFrame; split <;> exact h) rfl _

/-- **Closing and opening again.**  When no change is left undeclared, the images alone hold
all pages after the flush, so a new pool over the same disk represents the same map. -/
theorem Represents.reopen (h : b.Represents m pending) (hp : ∀ id, ¬ pending id) (n : Nat) :
    (b.reopen n).Represents m fun _ => False := by
  have hflush := h.flushAllPages
  refine ⟨wellFormed_create n hflush.wf.growing, fun _ hf => hf.elim, fun id q hq => ?_⟩
  have hold := hflush.holds id q hq
  refine ⟨hold.fits, hold.ne_zero, hold.lt, fun _ => ?_, fun f hf => ?_⟩
  rotate_left
  · exact absurd hf (by simp [BufferPoolManager.reopen, create])
  cases ht : b.flushAllPages.pageTable id with
  | none => exact hold.absent ht
  | some f =>
    have hlt := flushAllPages_poolSize b ▸ hflush.wf.frame_lt id f ht
    obtain ⟨hid, hne⟩ := (hflush.wf.table_iff id f).mp ht
    have hocc : (b.flushAllPages.metadata f).isOccupied = true := by
      simp [FrameMetadata.isOccupied, hid, hne]
    have hclean := cleanFrame_foldl _ b (List.mem_range.mpr hlt) hocc
    exact (hold.present f ht).2 hclean (hp id)

end Specs

end BufferPoolManager

end CourtDB
