/-
# What a call writes to the data file

The pool writes pages in four places: when it evicts a dirty frame for a fetch or for a new page,
and in its two flush functions.  `pageWrites` says which frames a call is going to write, from the
state before it, and `disk_call` that the disk it leaves is the old one with these writes, in their
order, before the page allocation or deallocation that the call may be about.

With that the order of writes to the data file and to the log can be talked about without looking
into the pool again: the write ahead rule is a condition on the list `pageWrites`.
-/
import CourtDB.Buffer.FrameClasses

namespace CourtDB

namespace BufferPoolManager

/-! ## 1. The writes of a call -/

/-- The write of the frame that `FindFreeFrame` evicts, if it evicts one and it is dirty. -/
def victimWrites (b : BufferPoolManager) : List (FrameId × PageId) :=
  match b.freeList, b.replacer.lruList.getLast? with
  | [], some victim =>
    if (b.metadata victim).isDirty then [(victim, (b.metadata victim).pageId)] else []
  | _, _ => []

/-- The writes of `FlushAllPages`. -/
def flushWrites (b : BufferPoolManager) : List (FrameId × PageId) :=
  ((List.range b.poolSize).filter fun f =>
    (b.metadata f).isOccupied && (b.metadata f).isDirty).map fun f => (f, (b.metadata f).pageId)

/-- The frames a call writes to the file, each with the page id it is written under. -/
def pageWrites (b : BufferPoolManager) : FrameCall → List (FrameId × PageId)
  | .newPage => b.victimWrites
  | .fetchPage id => if (b.pageTable id).isSome then [] else b.victimWrites
  | .flushPage id => (b.pageTable id).toList.map fun f => (f, id)
  | .flushAllPages => b.flushWrites
  | .unpinPage _ _ | .deletePage _ => []

/-- The disk after some frames were written to it. -/
def writtenBack (b : BufferPoolManager) (writes : List (FrameId × PageId)) : DiskManager :=
  writes.foldl (fun d w => (d.writePage w.2 (b.pages w.1).serializeToBuffer.data).2) b.disk

/-! ## 2. The disk a call leaves -/

/-- Later writes of a pool whose disk has the earlier ones already. -/
theorem writtenBack_append {b b' : BufferPoolManager} {ws ws' : List (FrameId × PageId)}
    (hdisk : b'.disk = b.writtenBack ws) (hpages : ∀ w ∈ ws', b'.pages w.1 = b.pages w.1) :
    b'.writtenBack ws' = b.writtenBack (ws ++ ws') := by
  rw [writtenBack, writtenBack, List.foldl_append, hdisk]
  exact List.foldl_ext _ _ _ fun d w hw => by rw [hpages w hw]

theorem disk_evictFrame (b : BufferPoolManager) (f : FrameId) :
    (b.evictFrame f).disk = b.writtenBack
      (if (b.metadata f).isDirty then [(f, (b.metadata f).pageId)] else []) := by
  unfold evictFrame
  cases (b.metadata f).isDirty with
  | false => rfl
  | true => rfl

theorem disk_findFreeFrame (b : BufferPoolManager) :
    b.findFreeFrame.2.disk = b.writtenBack b.victimWrites := by
  unfold findFreeFrame victimWrites
  cases b.freeList with
  | cons f rest => rfl
  | nil =>
    cases hlast : b.replacer.lruList.getLast? with
    | none => simp only [LRUReplacer.evict, hlast]; rfl
    | some victim =>
      simp only [LRUReplacer.evict, hlast]
      exact disk_evictFrame _ victim

theorem flushFrame_disk (b : BufferPoolManager) (f : FrameId) :
    (b.flushFrame f).disk = b.writtenBack
      (if (b.metadata f).isOccupied && (b.metadata f).isDirty
        then [(f, (b.metadata f).pageId)] else []) := by
  unfold flushFrame
  by_cases h : (b.metadata f).isOccupied ∧ (b.metadata f).isDirty
  · rw [if_pos h, if_pos (by simpa using h)]; rfl
  · rw [if_neg h, if_neg (by simpa using h)]; rfl

/-- A flushed frame is the only one that changes. -/
theorem flushFrame_other (b : BufferPoolManager) {f g : FrameId} (h : g ≠ f) :
    (b.flushFrame f).metadata g = b.metadata g ∧ (b.flushFrame f).pages g = b.pages g := by
  unfold flushFrame
  split
  · rw [writeBack_metadata, writeBack_pages, if_neg h, if_neg h]; exact ⟨rfl, rfl⟩
  · exact ⟨rfl, rfl⟩

theorem disk_flushFrames {frames : List FrameId} (hnodup : frames.Nodup) :
    ∀ b : BufferPoolManager, (frames.foldl flushFrame b).disk = b.writtenBack
      ((frames.filter fun f => (b.metadata f).isOccupied && (b.metadata f).isDirty).map
        fun f => (f, (b.metadata f).pageId)) := by
  induction frames with
  | nil => intro b; rfl
  | cons f frames ih =>
    intro b
    obtain ⟨hf, hrest⟩ := List.nodup_cons.mp hnodup
    have hother : ∀ g ∈ frames, g ≠ f := fun g hg he => hf (he ▸ hg)
    have hsame : ((frames.filter fun g => ((b.flushFrame f).metadata g).isOccupied &&
          ((b.flushFrame f).metadata g).isDirty).map fun g =>
            (g, ((b.flushFrame f).metadata g).pageId))
        = (frames.filter fun g => (b.metadata g).isOccupied && (b.metadata g).isDirty).map
          fun g => (g, (b.metadata g).pageId) := by
      have hfilter := List.filter_congr (l := frames)
        (p := fun g => ((b.flushFrame f).metadata g).isOccupied &&
          ((b.flushFrame f).metadata g).isDirty)
        (q := fun g => (b.metadata g).isOccupied && (b.metadata g).isDirty) fun g hg => by
          rw [(flushFrame_other b (hother g hg)).1]
      rw [hfilter]
      refine List.map_congr_left fun g hg => ?_
      rw [(flushFrame_other b (hother g (List.mem_of_mem_filter hg))).1]
    rw [List.foldl_cons, ih hrest, hsame, writtenBack_append (flushFrame_disk b f)]
    · congr 1
      rw [List.filter_cons]
      split <;> rfl
    · rintro w hw
      obtain ⟨g, hg, rfl⟩ := List.mem_map.mp hw
      exact (flushFrame_other b (hother g (List.mem_of_mem_filter hg))).2

/-- **The disk a call leaves.** -/
theorem disk_call (b : BufferPoolManager) (c : FrameCall) :
    (b.call c).disk =
      match c with
      | .newPage =>
        if b.newPage.1.isSome then (b.writtenBack (b.pageWrites c)).allocatePage.2
        else b.writtenBack (b.pageWrites c)
      | .deletePage id =>
        if ∃ f ∈ b.pageTable id, (b.metadata f).pinCount > 0 then b.disk
        else (b.disk.deallocatePage id).2
      | .fetchPage _ | .unpinPage _ _ | .flushPage _ | .flushAllPages =>
        b.writtenBack (b.pageWrites c) := by
  cases c with
  | newPage =>
    have hfind := disk_findFreeFrame b
    obtain ⟨r, b', hr⟩ : ∃ r b', b.findFreeFrame = (r, b') := ⟨_, _, rfl⟩
    rw [hr] at hfind
    cases r with
    -- no frame could be had, and nothing was written
    | none =>
      have hnew : b.newPage = (none, b') := by simp only [newPage, hr]
      simp only [call, pageWrites, hnew, ← hfind]
      rfl
    -- the write of the evicted frame comes before the file is extended
    | some f =>
      have hnew : b.newPage = (some f, ({ b' with disk := b'.disk.allocatePage.2 } :
          BufferPoolManager).occupy f b'.disk.allocatePage.1 (Page.ofId b'.disk.allocatePage.1)
          true) := by simp only [newPage, hr]
      simp only [call, pageWrites, hnew, ← hfind]
      rfl
  | fetchPage id =>
    have hfind := disk_findFreeFrame b
    simp only [call, fetchPage, pageWrites]
    -- a resident page writes nothing
    cases b.pageTable id with
    | some f => rfl
    | none =>
      simp only [Option.isSome_none, Bool.false_eq_true, if_false, ← hfind]
      rcases b.findFreeFrame with ⟨_ | f, b'⟩
      · rfl
      · dsimp only
        cases b'.disk.readPage id with
        | none => rfl
        | some buffer => rfl
  | unpinPage id isDirty =>
    simp only [call, unpinPage, pageWrites]
    cases b.pageTable id with
    | none => rfl
    | some f =>
      dsimp only
      split <;> rfl
  | deletePage id =>
    simp only [call, deletePage]
    cases b.pageTable id with
    | none => simp
    | some f =>
      by_cases hpin : (b.metadata f).pinCount > 0
      · simp [hpin]
      · simp [hpin]
  | flushPage id =>
    simp only [call, flushPage, pageWrites]
    cases b.pageTable id with
    | none => rfl
    | some f => rfl
  | flushAllPages => exact disk_flushFrames List.nodup_range b

end BufferPoolManager

end CourtDB
