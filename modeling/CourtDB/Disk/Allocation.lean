/-
# Runs of the page allocator

`AllocRun` runs the operations of a disk manager next to what its callers know: the pages they
hold and the pages they gave back.  `allocator_safe` says that the two never disagree, however
the operations and the closings of the file follow each other: a page that is handed out is new,
exists and is zero, the free list is exactly what was given back, and no operation touches a page
that is held by somebody else.
-/
import CourtDB.Disk.FreeList

namespace CourtDB

open Bytes

namespace DiskManager

/-- The 4096 bytes that a read of the page returns. -/
def bytesAt (d : DiskManager) (id : PageId) : Option (List UInt8) :=
  (d.readPage id).map fun b => b.read 0 pageSize

/-- The destructor writes the header; the constructor then opens the file again. -/
def closeAndOpen (d : DiskManager) : Option DiskManager := openExisting d.writeHeader.file

end DiskManager

/-! ## 1. Runs

The callers are not modelled one by one.  It is enough to know which pages they hold together and
which they gave back, so a run of any number of them is a list of operations. -/

/-- The operations of a disk manager that change the file. -/
inductive DiskOp
  | allocate
  | deallocate (id : PageId)
  | write (id : PageId) (b : Buf)
  | reopen

/-- A disk manager, the pages its callers hold and the pages they gave back. -/
structure AllocRun where
  disk : DiskManager
  allocated : List PageId := []
  freed : List PageId := []

namespace AllocRun

/-- One operation. -/
def step (st : AllocRun) : DiskOp → AllocRun
  | .allocate =>
    ⟨st.disk.allocatePage.2, st.disk.allocatePage.1 :: st.allocated,
      st.freed.filter fun i => decide (i ≠ st.disk.allocatePage.1)⟩
  | .deallocate id =>
    ⟨(st.disk.deallocatePage id).2, st.allocated.filter fun i => decide (i ≠ id), id :: st.freed⟩
  | .write id b => { st with disk := (st.disk.writePage id b).2 }
  | .reopen =>
    match st.disk.closeAndOpen with
    | some d => { st with disk := d }
    | none => st

/-- A file that was just created. -/
def start : AllocRun := { disk := DiskManager.initializeNewFile }

/-- Callers give back and write only pages they hold, and the file has fewer than `2 ^ 32 - 1`
pages when it is extended. -/
def Admits (st : AllocRun) : DiskOp → Prop
  | .allocate =>
    st.disk.header.freeListHead = invalidPageId → st.disk.header.pageCount ≠ invalidPageId
  | .deallocate id | .write id _ => id ∈ st.allocated
  | .reopen => True

instance (st : AllocRun) : DecidablePred st.Admits
  | .allocate => inferInstanceAs (Decidable (_ → _))
  | .deallocate _ | .write _ _ => inferInstanceAs (Decidable (_ ∈ _))
  | .reopen => inferInstanceAs (Decidable True)

/-! ## 2. The invariant

The free list lies in the file, as a chain through the pages that are free.  The invariant ties this
chain to what the callers gave back, and says of every other page that it is below the page count
and is not on the chain. -/

/-- The free list is what was given back, and the pages that are held exist and are not on it. -/
structure Sound (st : AllocRun) (chain : List PageId) : Prop where
  list : st.disk.FreeList chain
  freed : ∀ id, id ∈ chain ↔ id ∈ st.freed
  held : ∀ id ∈ st.allocated, id ≠ 0 ∧ id < st.disk.header.pageCount ∧ id ∉ chain
  pos : st.disk.header.pageCount ≠ 0
  magic : st.disk.header.magic = 0x434F5552
  stored : DiskManager.readHeader (st.disk.file 0) = st.disk.header

section

variable {st : AllocRun} {chain : List PageId}

theorem stored_writeHeader (d : DiskManager) :
    DiskManager.readHeader (d.writeHeader.file 0) = d.writeHeader.header := by
  have hfile : d.writeHeader.file 0 = DiskManager.headerImage d.header := by
    simp [DiskManager.writeHeader]
  rw [hfile, DiskManager.readHeader_headerImage, DiskManager.writeHeader_header]

theorem sound_start : start.Sound [] :=
  ⟨DiskManager.freeList_initializeNewFile, by simp [start], by simp [start], by decide, rfl,
    stored_writeHeader _⟩

theorem allocatePage_stored (d : DiskManager) :
    DiskManager.readHeader (d.allocatePage.2.file 0) = d.allocatePage.2.header := by
  unfold DiskManager.allocatePage
  split
  · exact stored_writeHeader _
  · exact stored_writeHeader _

theorem allocatePage_magic (d : DiskManager) :
    d.allocatePage.2.header.magic = d.header.magic := by
  unfold DiskManager.allocatePage
  split
  · rw [DiskManager.writeHeader_header, DiskManager.writePage_header, DiskManager.popFreeList]
    split
    · rfl
    · rfl
  · rfl

/-- What an allocation returns: a page that exists, is zero, and is nobody's. -/
structure Fresh (st : AllocRun) (id : PageId) (d : DiskManager) : Prop where
  ne_zero : id ≠ 0
  lt : id < d.header.pageCount
  unheld : id ∉ st.allocated
  grows : st.disk.header.pageCount ≤ d.header.pageCount
  zero : ∀ i < pageSize, d.file id i = 0
  others : ∀ i, i ≠ 0 → i ≠ id → d.file i = st.disk.file i

/-- **An allocation** takes the first page given back, or a new one. -/
theorem Sound.allocate (h : st.Sound chain) (hadm : st.Admits .allocate) :
    st.Fresh st.disk.allocatePage.1 st.disk.allocatePage.2 ∧
      (st.step .allocate).Sound chain.tail := by
  have hmagic : (st.step .allocate).disk.header.magic = 0x434F5552 :=
    (allocatePage_magic st.disk).trans h.magic
  have hstored := allocatePage_stored st.disk
  cases chain with
  -- the first page that was given back is used again
  | cons id rest =>
    obtain ⟨hid, hlist, hcount, hzero, hothers⟩ := h.list.allocate_reuse
    obtain ⟨h0, hlt⟩ := h.list.range id List.mem_cons_self
    have hnd := List.nodup_cons.mp h.list.nodup
    refine ⟨⟨by rw [hid]; exact h0, by rw [hid, hcount]; exact hlt, fun hmem => ?_,
      by rw [hcount]; exact UInt32.le_refl _, by rw [hid]; exact hzero,
      by rw [hid]; exact hothers⟩, ⟨hlist, fun i => ?_, fun i hi => ?_, ?_, hmagic, hstored⟩⟩
    · rw [hid] at hmem
      exact (h.held id hmem).2.2 List.mem_cons_self
    · simp only [step, List.mem_filter, decide_eq_true_eq, hid, List.tail_cons, ← h.freed,
        List.mem_cons]
      constructor
      · exact fun hi => ⟨.inr hi, fun he => hnd.1 (he ▸ hi)⟩
      · exact fun hi => hi.1.resolve_left hi.2
    · simp only [step, hid] at hi ⊢
      rw [hcount, List.tail_cons]
      rcases List.mem_cons.mp hi with rfl | hi
      · exact ⟨h0, hlt, hnd.1⟩
      · obtain ⟨hi0, hilt, hino⟩ := h.held i hi
        exact ⟨hi0, hilt, fun hmem => hino (List.mem_cons_of_mem _ hmem)⟩
    · simp only [step, hcount]
      exact h.pos
  -- the free list is empty, and the file is extended
  | nil =>
    have hids := hadm (h.list.head_eq_invalid_iff.mpr rfl)
    obtain ⟨hid, hlist, hcount, hzero, hothers⟩ := h.list.allocate_extend h.pos hids
    have hlt : st.disk.header.pageCount < st.disk.allocatePage.2.header.pageCount :=
      UInt32.lt_iff_toNat_lt.mpr (by rw [hcount]; exact Nat.lt_succ_self _)
    refine ⟨⟨by rw [hid]; exact h.pos, by rw [hid]; exact hlt, fun hmem => ?_,
      UInt32.le_of_lt hlt, by rw [hid]; exact hzero, by rw [hid]; exact hothers⟩,
      ⟨hlist, fun i => ?_, fun i hi => ?_, fun he => ?_, hmagic, hstored⟩⟩
    · rw [hid] at hmem
      exact absurd (h.held _ hmem).2.1 (UInt32.lt_irrefl _)
    · have hnone : i ∉ st.freed := fun hi => absurd ((h.freed i).mpr hi) List.not_mem_nil
      simp [step, hnone]
    · simp only [step, hid] at hi ⊢
      rcases List.mem_cons.mp hi with rfl | hi
      · exact ⟨h.pos, hlt, List.not_mem_nil⟩
      · obtain ⟨hi0, hilt, -⟩ := h.held i hi
        exact ⟨hi0, UInt32.lt_trans hilt hlt, List.not_mem_nil⟩
    · simp only [step] at he
      rw [he] at hcount
      exact absurd hcount (by simp)

/-- A page that is held can be given back. -/
theorem Sound.deallocate (h : st.Sound chain) {id : PageId} (hid : id ∈ st.allocated) :
    (st.step (.deallocate id)).Sound (id :: chain) := by
  obtain ⟨h0, hlt, hno⟩ := h.held id hid
  have hnot : ¬ (id = 0 ∨ id ≥ st.disk.header.pageCount) := fun hc =>
    hc.elim h0 fun hge => absurd hlt (UInt32.not_lt.mpr hge)
  obtain ⟨-, hlist, hcount, -⟩ := h.list.deallocate h0 hlt hno
  refine ⟨hlist, fun i => ?_, fun i hi => ?_, ?_, ?_, ?_⟩
  · simp only [AllocRun.step, List.mem_cons, h.freed]
  · simp only [AllocRun.step, List.mem_filter, decide_eq_true_eq, hcount] at hi ⊢
    obtain ⟨hi0, hilt, hino⟩ := h.held i hi.1
    exact ⟨hi0, hilt, fun hmem => (List.mem_cons.mp hmem).elim hi.2 hino⟩
  · simp only [AllocRun.step, hcount]
    exact h.pos
  · simp only [AllocRun.step, DiskManager.deallocatePage, hnot, if_false,
      DiskManager.writeHeader_header]
    exact h.magic
  · simp only [AllocRun.step, DiskManager.deallocatePage, hnot, if_false]
    exact stored_writeHeader _

/-- A page that is held can be written. -/
theorem Sound.write (h : st.Sound chain) {id : PageId} (hid : id ∈ st.allocated) (b : Buf) :
    (st.step (.write id b)).Sound chain := by
  obtain ⟨h0, -, hno⟩ := h.held id hid
  have hheader : (st.step (.write id b)).disk.header = st.disk.header :=
    DiskManager.writePage_header _ _ _
  refine ⟨h.list.writePage hno b, h.freed, ?_, ?_, ?_, ?_⟩
  · rw [hheader]
    exact h.held
  · rw [hheader]
    exact h.pos
  · rw [hheader]
    exact h.magic
  · rw [hheader, AllocRun.step, DiskManager.writePage_file_of_ne _ _ h0.symm]
    exact h.stored

/-- The file can be closed and opened. -/
theorem Sound.reopen (h : st.Sound chain) :
    st.step .reopen = { st with disk := st.disk.writeHeader } ∧ (st.step .reopen).Sound chain := by
  have hopen : st.disk.closeAndOpen = some st.disk.writeHeader :=
    DiskManager.openExisting_writeHeader _ h.magic
  have hstep : st.step .reopen = { st with disk := st.disk.writeHeader } := by
    rw [AllocRun.step, hopen]
  refine ⟨hstep, ?_⟩
  rw [hstep]
  exact ⟨h.list.writeHeader, h.freed, h.held, h.pos, h.magic, stored_writeHeader _⟩

/-- **The step lemma.** -/
theorem Sound.step (h : st.Sound chain) {op : DiskOp} (hadm : st.Admits op) :
    ∃ chain', (st.step op).Sound chain' := by
  cases op with
  | allocate => exact ⟨chain.tail, (h.allocate hadm).2⟩
  | deallocate id => exact ⟨id :: chain, h.deallocate hadm⟩
  | write id b => exact ⟨chain, h.write hadm b⟩
  | reopen => exact ⟨chain, h.reopen.2⟩

/-- **The frame.**  An operation leaves the bytes of every page that is held and that it does not
name. -/
theorem Sound.frame (h : st.Sound chain) {op : DiskOp} (hadm : st.Admits op) {id : PageId}
    (hid : id ∈ st.allocated) (hwrite : ∀ b, op ≠ .write id b) (hdel : op ≠ .deallocate id) :
    (st.step op).disk.bytesAt id = st.disk.bytesAt id := by
  obtain ⟨h0, hlt, -⟩ := h.held id hid
  have hsame : ∀ d : DiskManager, id < d.header.pageCount → d.file id = st.disk.file id →
      d.bytesAt id = st.disk.bytesAt id := by
    intro d hd hfile
    rw [DiskManager.bytesAt, DiskManager.bytesAt, DiskManager.readPage_of_lt d hd,
      DiskManager.readPage_of_lt st.disk hlt, hfile]
  cases op with
  | allocate =>
    obtain ⟨hfresh, -⟩ := h.allocate hadm
    have hne : id ≠ st.disk.allocatePage.1 := fun he => hfresh.unheld (he ▸ hid)
    exact hsame _ (UInt32.lt_of_lt_of_le hlt hfresh.grows) (hfresh.others id h0 hne)
  | deallocate i =>
    obtain ⟨hi0, hilt, hino⟩ := h.held i hadm
    obtain ⟨-, -, hcount, hothers⟩ := h.list.deallocate hi0 hilt hino
    have hne : id ≠ i := fun he => hdel (by rw [he])
    refine hsame _ ?_ (hothers id h0 hne)
    simp only [AllocRun.step, hcount]
    exact hlt
  | write i b =>
    have hne : id ≠ i := fun he => hwrite b (by rw [he])
    refine hsame _ ?_ (DiskManager.writePage_file_of_ne _ _ hne)
    simp only [AllocRun.step, DiskManager.writePage_header]
    exact hlt
  | reopen =>
    rw [h.reopen.1]
    exact hsame _ hlt (DiskManager.writeHeader_file _ h0)

theorem sound_run {ops : List DiskOp} (hops : Run.StepsOk step Admits start ops) :
    ∃ chain, (ops.foldl step start).Sound chain :=
  Run.invariant_of_stepsOk (I := fun st : AllocRun => ∃ chain, st.Sound chain)
    (fun _ _ ⟨_, h⟩ hadm => h.step hadm) ⟨[], sound_start⟩ hops

end

/-! ## 3. The theorem -/

/-- **The allocator never hands out a page that is held.**  After any operations: an allocation
returns an existing page other than the header page, that nobody holds and that reads as zeros;
the chain from `free_list_head` has no duplicates, is what was given back, and is as long as
`free_page_count` says; no operation changes the bytes of a page that is held and that it does not
name; and the file can be closed and opened again. -/
theorem allocator_safe {ops : List DiskOp} (hops : Run.StepsOk step Admits start ops) :
    let st := ops.foldl step start
    (st.Admits .allocate → 1 ≤ st.disk.allocatePage.1 ∧
      st.disk.allocatePage.1 < st.disk.allocatePage.2.header.pageCount ∧
      st.disk.allocatePage.1 ∉ st.allocated ∧
      st.disk.allocatePage.2.bytesAt st.disk.allocatePage.1
        = some (List.replicate pageSize 0)) ∧
    (∃ chain, Segment (DiskManager.linkAt st.disk.file) st.disk.header.freeListHead chain
        invalidPageId ∧ chain.Nodup ∧ (∀ id, id ∈ chain ↔ id ∈ st.freed) ∧
      chain.length = st.disk.header.freePageCount.toNat) ∧
    (∀ op, st.Admits op → ∀ id ∈ st.allocated, (∀ b, op ≠ .write id b) → op ≠ .deallocate id →
      (st.step op).disk.bytesAt id = st.disk.bytesAt id) ∧
    st.disk.closeAndOpen.isSome := by
  intro st
  obtain ⟨chain, h⟩ := sound_run hops
  refine ⟨fun hadm => ?_, ⟨chain, h.list.linked, h.list.nodup, h.freed, h.list.count.symm⟩,
    fun op hadm id hid hw hd => h.frame hadm hid hw hd, ?_⟩
  · obtain ⟨hfresh, -⟩ := h.allocate hadm
    refine ⟨?_, hfresh.lt, hfresh.unheld, ?_⟩
    · refine UInt32.le_iff_toNat_le.mpr (Nat.pos_of_ne_zero fun he => hfresh.ne_zero ?_)
      exact UInt32.toNat_inj.mp he
    · rw [DiskManager.bytesAt, DiskManager.readPage_of_lt _ hfresh.lt, Option.map_some]
      refine congrArg some (List.ext_getElem (by simp) fun i hi _ => ?_)
      rw [Buf.length_read] at hi
      rw [Buf.getElem_read, List.getElem_replicate, Nat.zero_add, hfresh.zero i hi]
  · rw [DiskManager.closeAndOpen, DiskManager.openExisting_writeHeader _ h.magic]
    rfl

theorem allocator_safe_reopened :
    (List.foldl step start [.allocate, .allocate, .deallocate 1, .reopen]).disk.allocatePage.1
      ∉ (List.foldl step start [.allocate, .allocate, .deallocate 1, .reopen]).allocated :=
  ((allocator_safe (show Run.StepsOk step Admits start
    [.allocate, .allocate, .deallocate 1, .reopen] by decide +kernel)).1
      (by decide +kernel)).2.2.1

end AllocRun

end CourtDB
