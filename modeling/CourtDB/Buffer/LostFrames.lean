/-
# The frame of a failed NewPage

`NewPage` takes a frame off the free list, or out of the replacer, and then calls `AllocatePage`. If
that throws, nobody puts the frame back: it is not free, not evictable and not pinned, and stays so
(`newPage_throw_loses`).  `newPage_throw_iff` says it for every state that is reached by any calls
with any reads and writes failing: a `NewPage` is as it should be exactly when it finds no frame or
when the writes of `AllocatePage` that can throw are served.

`AllocatePage` throws when the file cannot be extended, after it took back the page count, and when
the header cannot be written, after it changed the header in memory.  `FetchPage` shows what the
other way looks like: when the read fails it puts the frame back on the free list.

The operations are written once more, with the faults of the disk as an argument (`IoFaults`) and
with `Outcome` for a call that may throw (§1).  Without faults they are the operations of
`BufferPool` (§2), so this is the same pool.

The invariant is what is left of the bookkeeping on all of these runs, also those on which two
frames hold one page or a frame was lost before.  `Tracked` keeps a frame to at most one place.
-/
import CourtDB.Buffer.FrameClasses
import CourtDB.Disk.IoFaults

namespace CourtDB

open Bytes

namespace BufferPoolManager

variable {b : BufferPoolManager} {io : IoFaults}

/-! ## 1. The pool over a file that can fail

A write back that fails is not noticed: `WritePage` returns false, and the callers do not look.  A
read that fails makes `FetchPage` return a null pointer. -/

/-- The lines that write a frame back. -/
def writeBackWith (io : IoFaults) (b : BufferPoolManager) (f : FrameId) (pageId : PageId) :
    BufferPoolManager :=
  let page := (b.pages f).serializeToBuffer
  { b.setPage f page with
    disk := (b.disk.writePageWith (io.frame f) pageId page.data).2 }.setMeta f
    { b.metadata f with isDirty := false }

/-- `EvictFrame`. -/
def evictFrameWith (io : IoFaults) (b : BufferPoolManager) (f : FrameId) : BufferPoolManager :=
  let pageId := (b.metadata f).pageId
  let b := if (b.metadata f).isDirty then b.writeBackWith io f pageId else b
  { b with pageTable := Function.update b.pageTable pageId none }.setMeta f {}

/-- `FindFreeFrame`. -/
def findFreeFrameWith (io : IoFaults) (b : BufferPoolManager) :
    Option FrameId × BufferPoolManager :=
  match b.freeList with
  | f :: rest => (some f, { b with freeList := rest })
  | [] =>
    match b.replacer.evict with
    | (none, _) => (none, b)
    | (some victim, replacer) =>
      (some victim, { b with replacer := replacer }.evictFrameWith io victim)

/-- `FetchPage`. -/
def fetchPageWith (io : IoFaults) (b : BufferPoolManager) (pageId : PageId) :
    Option FrameId × BufferPoolManager :=
  match b.pageTable pageId with
  | some f => (some f, b.pinFrame f)
  | none =>
    match b.findFreeFrameWith io with
    | (none, b) => (none, b)
    | (some f, b) =>
      match b.disk.readPageWith io pageId with
      | none => (none, { b with freeList := b.freeList ++ [f] })
      | some buffer => (some f, b.occupy f pageId ((b.pages f).loadFrom buffer) false)

/-- `NewPage`. -/
def newPageWith (io : IoFaults) (b : BufferPoolManager) :
    Outcome (Option FrameId) × BufferPoolManager :=
  match b.findFreeFrameWith io with
  | (none, b) => (.returned none, b)
  | (some f, b) =>
    match b.disk.allocatePageWith io with
    | (.returned newPageId, disk) =>
      (.returned (some f), { b with disk := disk }.occupy f newPageId (Page.ofId newPageId) true)
    | (.threw, disk) => (.threw, { b with disk := disk })

/-- `DeletePage`. -/
def deletePageWith (io : IoFaults) (b : BufferPoolManager) (pageId : PageId) :
    Outcome Bool × BufferPoolManager :=
  let deallocated := b.disk.deallocatePageWith io pageId
  match b.pageTable pageId with
  | none => (deallocated.1, { b with disk := deallocated.2 })
  | some f =>
    if (b.metadata f).pinCount > 0 then (.returned false, b)
    else
      let forgotten := { b with
        replacer := b.replacer.remove f
        pageTable := Function.update b.pageTable pageId none
        freeList := b.freeList ++ [f] }.setMeta f {}
      (deallocated.1, { forgotten with disk := deallocated.2 })

/-- `FlushPage`. -/
def flushPageWith (io : IoFaults) (b : BufferPoolManager) (pageId : PageId) :
    Bool × BufferPoolManager :=
  match b.pageTable pageId with
  | none => (false, b)
  | some f => (true, b.writeBackWith io f pageId)

/-- One iteration of `FlushAllPages`. -/
def flushFrameWith (io : IoFaults) (b : BufferPoolManager) (f : FrameId) : BufferPoolManager :=
  if (b.metadata f).isOccupied ∧ (b.metadata f).isDirty then
    b.writeBackWith io f (b.metadata f).pageId
  else b

/-- `FlushAllPages`. -/
def flushAllPagesWith (io : IoFaults) (b : BufferPoolManager) : BufferPoolManager :=
  (List.range b.poolSize).foldl (flushFrameWith io) b

/-! ## 2. Without faults -/

/-- Without faults the calls are those of the pool. -/
theorem findFreeFrameWith_none (b : BufferPoolManager) :
    b.findFreeFrameWith {} = b.findFreeFrame := rfl

theorem fetchPageWith_none (b : BufferPoolManager) (id : PageId) :
    b.fetchPageWith {} id = b.fetchPage id := rfl

theorem newPageWith_none (b : BufferPoolManager) :
    b.newPageWith {} = (.returned b.newPage.1, b.newPage.2) := by
  unfold newPageWith newPage
  rw [findFreeFrameWith_none]
  rcases b.findFreeFrame with ⟨_ | f, b'⟩
  · rfl
  · simp only [DiskManager.allocatePageWith_none]

theorem deletePageWith_none (b : BufferPoolManager) (id : PageId) :
    b.deletePageWith {} id = (.returned (b.deletePage id).1, (b.deletePage id).2) := by
  unfold deletePageWith deletePage
  simp only [DiskManager.deallocatePageWith_none]
  cases b.pageTable id with
  | none => rfl
  | some f => dsimp only; split <;> rfl

theorem flushAllPagesWith_none (b : BufferPoolManager) :
    b.flushAllPagesWith {} = b.flushAllPages := rfl

/-! ## 3. Frames are in one place at most

A frame that is in no place is lost.  The invariant allows for that; it does not allow a frame in
two places, from which a lost one could come back. -/

/-- The frame is neither evictable nor pinned, and no page is found in it. -/
structure Vacated (b : BufferPoolManager) (f : FrameId) : Prop where
  lt : f < b.poolSize
  unlisted : f ∉ b.replacer.lruList
  unpinned : (b.metadata f).pinCount = 0
  untabled : ∀ id, b.pageTable id ≠ some f

/-- A frame is on one list at most, and only there when it is not pinned.  The frames of `out` are
nowhere: a call has such a frame in its hands, and lost frames stay so. -/
structure Tracked (out : Set FrameId) (b : BufferPoolManager) : Prop where
  free_nodup : b.freeList.Nodup
  free_vacated : ∀ f ∈ b.freeList, b.Vacated f
  out_vacated : ∀ f ∈ out, b.Vacated f ∧ f ∉ b.freeList
  lru_nodup : b.replacer.lruList.Nodup
  lru_spec : ∀ f ∈ b.replacer.lruList, f < b.poolSize ∧ (b.metadata f).pinCount = 0
  table_spec : ∀ id f, b.pageTable id = some f → f < b.poolSize ∧ (b.metadata f).pageId = id

/-- At first no frame is lost. -/
theorem tracked_create (n : Nat) (d : DiskManager) : (create n d).Tracked ∅ where
  free_nodup := List.nodup_range
  free_vacated f hf :=
    ⟨List.mem_range.mp hf, List.not_mem_nil, rfl, fun _ => (Option.some_ne_none f).symm⟩
  out_vacated _ hf := absurd hf (Set.notMem_empty _)
  lru_nodup := List.nodup_nil
  lru_spec _ hf := absurd hf List.not_mem_nil
  table_spec _ _ hf := by cases hf

namespace Tracked

variable {out : Set FrameId} {f : FrameId} {id : PageId} {b' : BufferPoolManager}

/-- The invariant looks at the page ids, the pin counts, the lists and the table only. -/
theorem congr (h : b.Tracked out) (hsize : b'.poolSize = b.poolSize)
    (htable : b'.pageTable = b.pageTable) (hfree : b'.freeList = b.freeList)
    (hlru : b'.replacer = b.replacer)
    (hmeta : ∀ f, (b'.metadata f).pageId = (b.metadata f).pageId ∧
      (b'.metadata f).pinCount = (b.metadata f).pinCount) : b'.Tracked out := by
  have hvacated : ∀ f, b.Vacated f → b'.Vacated f := fun f hf =>
    ⟨hsize ▸ hf.lt, hlru ▸ hf.unlisted, (hmeta f).2.trans hf.unpinned, htable ▸ hf.untabled⟩
  constructor
  · exact hfree ▸ h.free_nodup
  · exact fun f hf => hvacated f (h.free_vacated f (hfree ▸ hf))
  · exact fun f hf => ⟨hvacated f (h.out_vacated f hf).1, hfree ▸ (h.out_vacated f hf).2⟩
  · exact hlru ▸ h.lru_nodup
  · intro f hf
    obtain ⟨hlt, hpin⟩ := h.lru_spec f (hlru ▸ hf)
    exact ⟨hsize ▸ hlt, (hmeta f).2.trans hpin⟩
  · intro id f hf
    obtain ⟨hlt, hpage⟩ := h.table_spec id f (htable ▸ hf)
    exact ⟨hsize ▸ hlt, (hmeta f).1.trans hpage⟩

theorem setDisk (h : b.Tracked out) (d : DiskManager) :
    ({ b with disk := d } : BufferPoolManager).Tracked out :=
  h.congr rfl rfl rfl rfl fun _ => ⟨rfl, rfl⟩

theorem setPage (h : b.Tracked out) (f : FrameId) (p : Page) : (b.setPage f p).Tracked out :=
  h.congr rfl rfl rfl rfl fun _ => ⟨rfl, rfl⟩

/-- A write that fails leaves the frame as it is. -/
theorem writeBackWith (h : b.Tracked out) (io : IoFaults) (f : FrameId) (id : PageId) :
    (b.writeBackWith io f id).Tracked out := by
  refine h.congr rfl rfl rfl rfl fun g => ?_
  change ((Function.update b.metadata f { b.metadata f with isDirty := false }) g).pageId = _ ∧
    ((Function.update b.metadata f { b.metadata f with isDirty := false }) g).pinCount = _
  by_cases hg : g = f
  · subst hg
    simp
  · simp [hg]

/-- A call that forgets the frame in its hands. -/
theorem mono (h : b.Tracked out) {out' : Set FrameId} (hsub : out' ⊆ out) : b.Tracked out' :=
  { h with out_vacated := fun f hf => h.out_vacated f (hsub hf) }

/-- A frame on a list is in nobody's hands. -/
theorem notMem_out (h : b.Tracked out) (hf : f ∈ b.freeList ∨ f ∈ b.replacer.lruList) :
    f ∉ out := fun hout => by
  obtain ⟨hvacated, hnot⟩ := h.out_vacated f hout
  exact hf.elim hnot hvacated.unlisted

/-- The caller puts its frame on the free list. -/
theorem giveBack (h : b.Tracked (insert f out)) (hout : f ∉ out) :
    ({ b with freeList := b.freeList ++ [f] } : BufferPoolManager).Tracked out := by
  obtain ⟨hvacated, hnot⟩ := h.out_vacated f (Set.mem_insert f out)
  refine ⟨?_, fun g hg => ?_, fun g hg => ?_, h.lru_nodup, h.lru_spec, h.table_spec⟩
  · refine List.nodup_append.mpr ⟨h.free_nodup, List.nodup_singleton f, ?_⟩
    rintro g hg g' hg' rfl
    exact hnot (List.mem_singleton.mp hg' ▸ hg)
  · rcases List.mem_append.mp hg with hg | hg
    · exact { h.free_vacated g hg with }
    · obtain rfl := List.mem_singleton.mp hg
      exact { hvacated with }
  · obtain ⟨hvacated, hnot⟩ := h.out_vacated g (Set.mem_insert_of_mem f hg)
    refine ⟨{ hvacated with }, fun hin => (List.mem_append.mp hin).elim hnot fun he => ?_⟩
    exact hout (List.mem_singleton.mp he ▸ hg)

/-- The front of the free list goes to the caller. -/
theorem takeFree (h : b.Tracked out) {rest : List FrameId} (hfree : b.freeList = f :: rest) :
    ({ b with freeList := rest } : BufferPoolManager).Tracked (insert f out) := by
  obtain ⟨hnot, hnodup⟩ := List.nodup_cons.mp (hfree ▸ h.free_nodup)
  refine ⟨hnodup, fun g hg => ?_, fun g hg => ?_, h.lru_nodup, h.lru_spec, h.table_spec⟩
  · exact { h.free_vacated g (hfree ▸ List.mem_cons_of_mem f hg) with }
  · rcases Set.mem_insert_iff.mp hg with rfl | hg
    · exact ⟨{ h.free_vacated g (hfree ▸ List.mem_cons_self) with }, hnot⟩
    · obtain ⟨hvacated, hg⟩ := h.out_vacated g hg
      exact ⟨{ hvacated with }, fun hin => hg (hfree ▸ List.mem_cons_of_mem f hin)⟩

/-- A frame leaves the replacer and the page table, and goes to the caller. -/
theorem vacate (h : b.Tracked out) (hlt : f < b.poolSize) (hnot : f ∉ b.freeList)
    (hpage : (b.metadata f).pageId = id) {r : LRUReplacer}
    (hr : ∀ g, g ∈ r.lruList ↔ g ≠ f ∧ g ∈ b.replacer.lruList) (hnodup : r.lruList.Nodup) :
    ({ b with
        replacer := r
        pageTable := Function.update b.pageTable id none }.setMeta f {}).Tracked
          (insert f out) := by
  set b' := ({ b with
    replacer := r
    pageTable := Function.update b.pageTable id none } : BufferPoolManager).setMeta f {}
  have hmeta : ∀ g, b'.metadata g = if g = f then {} else b.metadata g :=
    fun g => Function.update_apply _ _ _ _
  have htable : ∀ id' g, b'.pageTable id' = some g → b.pageTable id' = some g ∧ id' ≠ id := by
    intro id' g hg
    change Function.update b.pageTable id none id' = some g at hg
    rw [Function.update_apply] at hg
    split at hg
    · cases hg
    · rename_i hne
      exact ⟨hg, hne⟩
  have hne : ∀ id' g, b'.pageTable id' = some g → g ≠ f := by
    rintro id' g hg rfl
    obtain ⟨hg, hid⟩ := htable id' g hg
    exact hid ((h.table_spec id' g hg).2.symm.trans hpage)
  have hvacated : ∀ g, g = f ∨ b.Vacated g → b'.Vacated g := by
    intro g hg
    refine ⟨hg.elim (fun he => he ▸ hlt) Vacated.lt, fun hin => ?_, ?_, fun id' ht => ?_⟩
    · obtain ⟨hgf, hin⟩ := (hr g).mp hin
      exact (hg.resolve_left hgf).unlisted hin
    · rw [hmeta]
      split
      · rfl
      · rename_i hgf
        exact (hg.resolve_left hgf).unpinned
    · exact (hg.resolve_left (hne id' g ht)).untabled id' (htable id' g ht).1
  constructor
  · exact h.free_nodup
  · exact fun g hg => hvacated g (Or.inr (h.free_vacated g hg))
  · intro g hg
    rcases Set.mem_insert_iff.mp hg with rfl | hg
    · exact ⟨hvacated g (Or.inl rfl), hnot⟩
    · obtain ⟨hg, hnot⟩ := h.out_vacated g hg
      exact ⟨hvacated g (Or.inr hg), hnot⟩
  · exact hnodup
  · intro g hg
    obtain ⟨hgf, hg⟩ := (hr g).mp hg
    rw [hmeta, if_neg hgf]
    exact h.lru_spec g hg
  · intro id' g hg
    rw [hmeta, if_neg (hne id' g hg)]
    exact h.table_spec id' g (htable id' g hg).1

/-- The victim of the replacer goes to the caller. -/
theorem evict (h : b.Tracked out) {rest : List FrameId}
    (hlru : b.replacer.lruList = rest ++ [f]) :
    (({ b with replacer := ⟨rest⟩ } : BufferPoolManager).evictFrameWith io f).Tracked
      (insert f out) := by
  obtain ⟨hnodupRest, -, hlast⟩ := List.nodup_append.mp (hlru ▸ h.lru_nodup)
  have hin : f ∈ b.replacer.lruList := hlru ▸ List.mem_append_right _ List.mem_cons_self
  have hrest : ∀ g, g ∈ rest ↔ g ≠ f ∧ g ∈ b.replacer.lruList := by
    intro g
    rw [hlru, List.mem_append, List.mem_singleton]
    refine ⟨fun hg => ⟨hlast g hg f List.mem_cons_self, Or.inl hg⟩, fun hg => ?_⟩
    exact hg.2.resolve_right hg.1
  have hnot : f ∉ b.freeList := fun hfree => (h.free_vacated f hfree).unlisted hin
  have hlt := (h.lru_spec f hin).1
  unfold BufferPoolManager.evictFrameWith
  cases (b.metadata f).isDirty with
  | false => exact h.vacate (r := ⟨rest⟩) hlt hnot rfl hrest hnodupRest
  | true =>
    have hback := h.writeBackWith io f (b.metadata f).pageId
    have hpage : ((b.writeBackWith io f (b.metadata f).pageId).metadata f).pageId
        = (b.metadata f).pageId := by
      change (Function.update b.metadata f { b.metadata f with isDirty := false } f).pageId = _
      rw [Function.update_self]
    exact hback.vacate (r := ⟨rest⟩) hlt hnot hpage hrest hnodupRest

/-- **FindFreeFrame** fails when no frame is free or evictable, and gives the caller a frame
otherwise. -/
theorem findFreeFrameWith (h : b.Tracked out) (io : IoFaults) :
    (b.findFreeFrameWith io = (none, b) ∧ b.freeList = [] ∧ b.replacer.lruList = []) ∨
      ∃ f b', b.findFreeFrameWith io = (some f, b') ∧ b'.Tracked (insert f out) ∧ f ∉ out ∧
        b'.disk.header = b.disk.header ∧ b'.poolSize = b.poolSize ∧
        ¬ (b.freeList = [] ∧ b.replacer.lruList = []) := by
  unfold BufferPoolManager.findFreeFrameWith
  split
  · rename_i f rest hfree
    have hin : f ∈ b.freeList := hfree ▸ List.mem_cons_self
    exact Or.inr ⟨f, _, rfl, h.takeFree hfree, h.notMem_out (Or.inl hin), rfl, rfl,
      by simp [hfree]⟩
  · rename_i hfree
    cases hlast : b.replacer.lruList.getLast? with
    | none =>
      refine Or.inl ⟨?_, hfree, List.getLast?_eq_none_iff.mp hlast⟩
      simp only [LRUReplacer.evict, hlast]
    | some victim =>
      have hsplit := (List.dropLast_append_getLast? _ hlast).symm
      have hin := List.mem_of_getLast? hlast
      refine Or.inr ⟨victim, _, by simp only [LRUReplacer.evict, hlast]; rfl, h.evict hsplit,
        h.notMem_out (Or.inr hin), ?_, ?_, fun hempty => ?_⟩
      · unfold BufferPoolManager.evictFrameWith
        cases (b.metadata victim).isDirty with
        | false => rfl
        | true => exact DiskManager.writePageWith_header _ _ _ _
      · unfold BufferPoolManager.evictFrameWith
        cases (b.metadata victim).isDirty <;> rfl
      · rw [hempty.2] at hlast
        cases hlast

/-- The caller's frame takes a page. -/
theorem occupy (h : b.Tracked (insert f out)) (hout : f ∉ out) (id : PageId) (page : Page)
    (isDirty : Bool) : (b.occupy f id page isDirty).Tracked out := by
  obtain ⟨hvacated, hnot⟩ := h.out_vacated f (Set.mem_insert f out)
  have hmeta : ∀ g, (b.occupy f id page isDirty).metadata g
      = if g = f then ⟨id, 1, isDirty⟩ else b.metadata g :=
    fun g => Function.update_apply _ _ _ _
  have htable : ∀ id', (b.occupy f id page isDirty).pageTable id'
      = if id' = id then some f else b.pageTable id' :=
    fun id' => Function.update_apply _ _ _ _
  have hkeep : ∀ g, g ≠ f → b.Vacated g → (b.occupy f id page isDirty).Vacated g := by
    intro g hgf hg
    refine ⟨hg.lt, hg.unlisted, ?_, fun id' => ?_⟩
    · rw [hmeta, if_neg hgf]
      exact hg.unpinned
    · rw [htable]
      split
      · exact fun he => hgf (Option.some.inj he).symm
      · exact hg.untabled id'
  refine ⟨h.free_nodup, fun g hg => ?_, fun g hg => ?_, h.lru_nodup, fun g hg => ?_,
    fun id' g hg => ?_⟩
  · exact hkeep g (fun he => hnot (he ▸ hg)) (h.free_vacated g hg)
  · obtain ⟨hvacated, hnot⟩ := h.out_vacated g (Set.mem_insert_of_mem f hg)
    exact ⟨hkeep g (fun he => hout (he ▸ hg)) hvacated, hnot⟩
  · have hgf : g ≠ f := fun he => hvacated.unlisted (he ▸ hg)
    rw [hmeta, if_neg hgf]
    exact h.lru_spec g hg
  · rw [htable] at hg
    rw [hmeta]
    split at hg
    · rename_i hid
      obtain rfl := Option.some.inj hg
      rw [if_pos rfl]
      exact ⟨hvacated.lt, hid.symm⟩
    · have hgf : g ≠ f := fun he => hvacated.untabled id' (he ▸ hg)
      rw [if_neg hgf]
      exact h.table_spec id' g hg

/-- The pin count of a resident page changes, and the replacer with it. -/
theorem repin (h : b.Tracked out) (hf : b.pageTable id = some f) {m : FrameMetadata}
    (hm : m.pageId = (b.metadata f).pageId) {r : LRUReplacer}
    (hr : ∀ g ∈ r.lruList, g = f ∧ m.pinCount = 0 ∨ g ≠ f ∧ g ∈ b.replacer.lruList)
    (hnodup : r.lruList.Nodup) :
    (({ b with replacer := r } : BufferPoolManager).setMeta f m).Tracked out := by
  have hlt := (h.table_spec id f hf).1
  have hmeta : ∀ g, (({ b with replacer := r } : BufferPoolManager).setMeta f m).metadata g
      = if g = f then m else b.metadata g :=
    fun g => Function.update_apply _ _ _ _
  have hkeep : ∀ g, b.Vacated g →
      (({ b with replacer := r } : BufferPoolManager).setMeta f m).Vacated g := by
    intro g hg
    have hgf : g ≠ f := fun he => hg.untabled id (he ▸ hf)
    refine ⟨hg.lt, fun hin => ?_, ?_, hg.untabled⟩
    · exact hg.unlisted ((hr g hin).resolve_left fun he => hgf he.1).2
    · rw [hmeta, if_neg hgf]
      exact hg.unpinned
  refine ⟨h.free_nodup, fun g hg => hkeep g (h.free_vacated g hg), fun g hg => ?_, hnodup,
    fun g hg => ?_, fun id' g hg => ?_⟩
  · exact ⟨hkeep g (h.out_vacated g hg).1, (h.out_vacated g hg).2⟩
  · rw [hmeta]
    rcases hr g hg with ⟨rfl, hpin⟩ | ⟨hgf, hg⟩
    · rw [if_pos rfl]
      exact ⟨hlt, hpin⟩
    · rw [if_neg hgf]
      exact h.lru_spec g hg
  · obtain ⟨hglt, hpage⟩ := h.table_spec id' g hg
    rw [hmeta]
    refine ⟨hglt, ?_⟩
    by_cases hgf : g = f
    · rw [if_pos hgf, hm, ← hgf, hpage]
    · rw [if_neg hgf, hpage]

/-! ### The calls -/

/-- A pin takes its frame out of the replacer. -/
theorem pinFrame (h : b.Tracked out) (hf : b.pageTable id = some f) :
    (b.pinFrame f).Tracked out := by
  unfold BufferPoolManager.pinFrame
  by_cases hfirst : (b.metadata f).pinCount + 1 = 1
  · refine h.repin hf ?_ (fun g hg => ?_) ?_
    · rfl
    · rw [if_pos hfirst] at hg
      exact Or.inr (h.lru_nodup.mem_erase_iff.mp hg)
    · rw [if_pos hfirst]
      exact h.lru_nodup.erase f
  · refine h.repin hf ?_ (fun g hg => ?_) ?_
    · rfl
    · rw [if_neg hfirst] at hg
      refine Or.inr ⟨?_, hg⟩
      rintro rfl
      exact hfirst (by rw [(h.lru_spec g hg).2]; rfl)
    · rw [if_neg hfirst]
      exact h.lru_nodup

/-- The last unpin puts a frame into the replacer. -/
theorem unpinPage (h : b.Tracked out) (id : PageId) (isDirty : Bool) :
    (b.unpinPage id isDirty).2.Tracked out := by
  unfold BufferPoolManager.unpinPage
  cases hf : b.pageTable id with
  | none => exact h
  | some f =>
    dsimp only
    by_cases hzero : (b.metadata f).pinCount = 0
    · rw [if_pos hzero]
      exact h
    · rw [if_neg hzero]
      by_cases hlast : (b.metadata f).pinCount - 1 = 0
      · refine h.repin hf ?_ (fun g hg => ?_) ?_
        · rfl
        · rw [if_pos hlast] at hg
          rcases List.mem_cons.mp hg with rfl | hg
          · exact Or.inl ⟨rfl, hlast⟩
          · exact Or.inr (h.lru_nodup.mem_erase_iff.mp hg)
        · rw [if_pos hlast]
          exact List.nodup_cons.mpr ⟨fun hin => (h.lru_nodup.mem_erase_iff.mp hin).1 rfl,
            h.lru_nodup.erase f⟩
      · refine h.repin hf ?_ (fun g hg => ?_) ?_
        · rfl
        · rw [if_neg hlast] at hg
          refine Or.inr ⟨?_, hg⟩
          rintro rfl
          exact hzero (h.lru_spec g hg).2
        · rw [if_neg hlast]
          exact h.lru_nodup

/-- A fetch loses no frame that was not lost before. -/
theorem fetchPageWith (h : b.Tracked out) (io : IoFaults) (id : PageId) :
    (b.fetchPageWith io id).2.Tracked out := by
  unfold BufferPoolManager.fetchPageWith
  cases hf : b.pageTable id with
  | some f => exact h.pinFrame hf
  | none =>
    rcases h.findFreeFrameWith io with ⟨hfind, -⟩ | ⟨f, b', hfind, h', hout, -⟩
    · simp only [hfind]
      exact h
    · simp only [hfind]
      cases b'.disk.readPageWith io id with
      | none => exact h'.giveBack hout
      | some buffer => exact h'.occupy hout _ _ _

theorem newPageWith (h : b.Tracked out) (io : IoFaults) : (b.newPageWith io).2.Tracked out := by
  unfold BufferPoolManager.newPageWith
  rcases h.findFreeFrameWith io with ⟨hfind, -⟩ | ⟨f, b', hfind, h', hout, -⟩
  · simp only [hfind]
    exact h
  · simp only [hfind]
    rcases b'.disk.allocatePageWith io with ⟨id | _, disk⟩
    · exact (h'.setDisk disk).occupy hout _ _ _
    · exact (h'.setDisk disk).mono (Set.subset_insert f out)

theorem deletePageWith (h : b.Tracked out) (io : IoFaults) (id : PageId) :
    (b.deletePageWith io id).2.Tracked out := by
  unfold BufferPoolManager.deletePageWith
  cases hf : b.pageTable id with
  | none => exact h.setDisk _
  | some f =>
    obtain ⟨hlt, hpage⟩ := h.table_spec id f hf
    have hnot : f ∉ b.freeList := fun hfree => (h.free_vacated f hfree).untabled id hf
    dsimp only
    by_cases hpin : (b.metadata f).pinCount > 0
    · rw [if_pos hpin]
      exact h
    · rw [if_neg hpin]
      have hvacate := h.vacate hlt hnot hpage (fun _ => h.lru_nodup.mem_erase_iff)
        (h.lru_nodup.erase f)
      have hout : f ∉ out := fun hout => (h.out_vacated f hout).1.untabled id hf
      exact (hvacate.giveBack hout).setDisk _

theorem flushPageWith (h : b.Tracked out) (io : IoFaults) (id : PageId) :
    (b.flushPageWith io id).2.Tracked out := by
  unfold BufferPoolManager.flushPageWith
  cases b.pageTable id with
  | none => exact h
  | some f => exact h.writeBackWith io f id

theorem flushAllPagesWith (h : b.Tracked out) (io : IoFaults) :
    (b.flushAllPagesWith io).Tracked out := by
  refine Run.invariant (fun c f hc => ?_) h _
  unfold flushFrameWith
  split
  · exact hc.writeBackWith io f _
  · exact hc

end Tracked

/-! ## 4. Runs

Each call has the faults of its own reads and writes.  Clients may also write through their
pointers, which no operation notices. -/

/-- A call, with the reads and writes that fail in it, or a write through a page pointer. -/
inductive FaultyCall
  | call (c : FrameCall) (io : IoFaults)
  | write (f : FrameId) (page : Page)

def callWith (b : BufferPoolManager) : FaultyCall → BufferPoolManager
  | .call .newPage io => (b.newPageWith io).2
  | .call (.fetchPage id) io => (b.fetchPageWith io id).2
  | .call (.unpinPage id isDirty) _ => (b.unpinPage id isDirty).2
  | .call (.deletePage id) io => (b.deletePageWith io id).2
  | .call (.flushPage id) io => (b.flushPageWith io id).2
  | .call .flushAllPages io => b.flushAllPagesWith io
  | .write f page => b.setPage f page

/-- Without faults these are the calls of `FrameClasses`. -/
theorem callWith_none (b : BufferPoolManager) (c : FrameCall) :
    b.callWith (.call c {}) = b.call c := by
  cases c with
  | newPage => exact congrArg Prod.snd b.newPageWith_none
  | deletePage id => exact congrArg Prod.snd (b.deletePageWith_none id)
  | fetchPage | unpinPage | flushPage | flushAllPages => rfl

/-- **One call**, whatever fails in it. -/
theorem Tracked.callWith {out : Set FrameId} (h : b.Tracked out) (c : FaultyCall) :
    (b.callWith c).Tracked out := by
  cases c with
  | call c io =>
    cases c with
    | newPage => exact h.newPageWith io
    | fetchPage id => exact h.fetchPageWith io id
    | unpinPage id isDirty => exact h.unpinPage id isDirty
    | deletePage id => exact h.deletePageWith io id
    | flushPage id => exact h.flushPageWith io id
    | flushAllPages => exact h.flushAllPagesWith io
  | write f page => exact h.setPage f page

/-- **A whole run.** -/
theorem Tracked.run {out : Set FrameId} (h : b.Tracked out) (calls : List FaultyCall) :
    (calls.foldl BufferPoolManager.callWith b).Tracked out :=
  Run.invariant (fun _ c hb => hb.callWith c) h calls

/-! ## 5. When NewPage throws

`Intact` is what the caller of a failed call could hope for.  The condition is about the state
before the call: is there a frame, and are the writes served that would throw. -/

/-- Where a frame can be. -/
def Place (b : BufferPoolManager) (f : FrameId) : FrameClass → Prop
  | .free => f ∈ b.freeList
  | .evictable => f ∈ b.replacer.lruList
  | .pinned => 0 < (b.metadata f).pinCount

/-- A frame that is nowhere. -/
theorem Tracked.not_place {out : Set FrameId} (h : b.Tracked out) {f : FrameId} (hf : f ∈ out)
    (c : FrameClass) : ¬ b.Place f c := by
  obtain ⟨hvacated, hnot⟩ := h.out_vacated f hf
  cases c with
  | free => exact hnot
  | evictable => exact hvacated.unlisted
  | pinned =>
    intro hpin
    rw [Place, hvacated.unpinned] at hpin
    exact absurd hpin (by decide)

/-- What a call that fails is to leave of the pool: every frame is in one place, and the header of
the disk is as it was. -/
structure Intact (b b' : BufferPoolManager) : Prop where
  place_unique : ∀ f < b'.poolSize, ∃! c, b'.Place f c
  pageCount : b'.disk.header.pageCount = b.disk.header.pageCount
  freeListHead : b'.disk.header.freeListHead = b.disk.header.freeListHead
  freePageCount : b'.disk.header.freePageCount = b.disk.header.freePageCount

/-- `NewPage` finds no frame, or nothing that it does on the disk throws. -/
def NewPagePasses (io : IoFaults) (b : BufferPoolManager) : Prop :=
  b.freeList = [] ∧ b.replacer.lruList = [] ∨ b.disk.AllocatePasses io

/-- **A `NewPage` that throws loses its frame.** -/
theorem Tracked.newPageWith_threw {out : Set FrameId} (h : b.Tracked out)
    (hpasses : ¬ b.NewPagePasses io) :
    (b.newPageWith io).1 = .threw ∧
      ∃ f ∉ out, f < b.poolSize ∧ (b.newPageWith io).2.poolSize = b.poolSize ∧
        (b.newPageWith io).2.Tracked (insert f out) := by
  obtain ⟨hframe, hdisk⟩ := not_or.mp hpasses
  unfold BufferPoolManager.newPageWith
  rcases h.findFreeFrameWith io with ⟨-, hnone⟩ | ⟨f, b', hfind, h', hout, hheader, hsize, -⟩
  · exact absurd hnone hframe
  · have hthrew : (b'.disk.allocatePageWith io).1 = .threw := by
      rw [DiskManager.allocatePageWith_threw_iff, DiskManager.AllocatePasses, hheader]
      exact hdisk
    have hlt : f < b.poolSize := hsize ▸ (h'.out_vacated f (Set.mem_insert f out)).1.lt
    simp only [hfind]
    rcases heq : b'.disk.allocatePageWith io with ⟨id | _, disk⟩
    · rw [heq] at hthrew
      cases hthrew
    · exact ⟨rfl, f, hout, hlt, hsize, h'.setDisk disk⟩

/-- `NewPage` returns where its allocation passes. -/
theorem Tracked.newPageWith_returned {out : Set FrameId} (h : b.Tracked out)
    (hpasses : b.NewPagePasses io) : (b.newPageWith io).1 ≠ .threw := by
  unfold BufferPoolManager.newPageWith
  rcases h.findFreeFrameWith io with ⟨hfind, -⟩ | ⟨f, b', hfind, -, -, hheader, -, hsome⟩
  · simp [hfind]
  · have hdisk : b'.disk.AllocatePasses io := by
      have hserved := hpasses.resolve_left hsome
      rwa [DiskManager.AllocatePasses, ← hheader] at hserved
    simp only [hfind]
    rcases heq : b'.disk.allocatePageWith io with ⟨id | _, disk⟩
    · simp
    · exact absurd hdisk (DiskManager.allocatePageWith_threw_iff.mp (by rw [heq]))

/-- **When a failed page creation loses no frame.**  After any calls on a new pool, over any disk
and with any reads and writes failing: a `NewPage` that throws leaves every frame in one place and
the header as it was exactly when it does not throw, because it finds no frame or because the
writes that can throw are served. -/
theorem newPage_throw_iff (n : Nat) (d : DiskManager) (calls : List FaultyCall) (io : IoFaults) :
    let b := calls.foldl callWith (create n d)
    ((b.newPageWith io).1 = .threw → b.Intact (b.newPageWith io).2) ↔ b.NewPagePasses io := by
  intro b
  have h : b.Tracked ∅ := (tracked_create n d).run calls
  constructor
  · intro hintact
    by_contra hpasses
    obtain ⟨hthrew, f, -, hlt, hsize, htracked⟩ := h.newPageWith_threw hpasses
    obtain ⟨c, hc, -⟩ := (hintact hthrew).place_unique f (hsize ▸ hlt)
    exact htracked.not_place (Set.mem_insert f ∅) c hc
  · intro hpasses hthrew
    exact absurd hthrew (h.newPageWith_returned hpasses)

/-- **The frame stays lost**, through all calls that follow. -/
theorem newPage_throw_loses (n : Nat) (d : DiskManager) (calls : List FaultyCall) (io : IoFaults) :
    let b := calls.foldl callWith (create n d)
    ¬ b.NewPagePasses io → ∃ f < b.poolSize, ∀ (rest : List FaultyCall) (c : FrameClass),
      ¬ (rest.foldl callWith (b.newPageWith io).2).Place f c := by
  intro b hpasses
  have h : b.Tracked ∅ := (tracked_create n d).run calls
  obtain ⟨-, f, -, hlt, -, htracked⟩ := h.newPageWith_threw hpasses
  exact ⟨f, hlt, fun rest => (htracked.run rest).not_place (Set.mem_insert f ∅)⟩

/-- The header page of a new file cannot be written: frame 0 is lost. -/
theorem newPage_throw_not_intact :
    let b := create 1 .initializeNewFile
    let io : IoFaults := { header := some DiskManager.zeroImage }
    ¬ ((b.newPageWith io).1 = .threw → b.Intact (b.newPageWith io).2) := by
  intro b io hintact
  obtain ⟨c, hc, -⟩ := (hintact rfl).place_unique 0 Nat.one_pos
  cases c with
  | free => exact absurd hc List.not_mem_nil
  | evictable => exact absurd hc List.not_mem_nil
  | pinned =>
    have hpin : (0 : UInt32) < 0 := hc
    exact absurd hpin (by decide)

end BufferPoolManager

end CourtDB
