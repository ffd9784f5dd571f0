/-
# Crashes inside the page allocator

`AllocatePage` and `DeallocatePage` write a data page and then the header page, so a crash can
fall between the two.  `pageWrites` lists the images an operation writes, in program order, and
the file after a crash holds the first `j` of them.

Deallocation and the extension of the file survive every crash.  Taking a page off the free list
does not: the page is zeroed before the header lets go of it, and its zero bytes then read as a
link to page 0 (`reuse_breaks_list`).
-/
import CourtDB.Disk.Allocation

namespace CourtDB

open Bytes

namespace DiskManager

/-! ## 1. Single page writes -/

/-- The image that `WritePage` writes, unless it refuses. -/
def pageWrite (d : DiskManager) (id : PageId) (b : Buf) : List (PageId × Buf) :=
  if id ≥ d.header.pageCount then [] else [(id, (d.file id).fill pageSize b)]

/-- The image that `WriteHeader` writes. -/
def headerWrite (h : DatabaseHeader) : List (PageId × Buf) := [(0, headerImage h)]

/-- The page writes of an operation, in program order. -/
def pageWrites (d : DiskManager) : DiskOp → List (PageId × Buf)
  | .allocate =>
    (if d.header.freeListHead ≠ invalidPageId then d.pageWrite d.header.freeListHead zeroImage
      else [(d.header.pageCount, zeroImage)]) ++ headerWrite d.allocatePage.2.header
  | .deallocate id =>
    if id = 0 ∨ id ≥ d.header.pageCount then []
    else d.pageWrite id (zeroImage.put 0 d.header.freeListHead) ++
      headerWrite (d.deallocatePage id).2.header
  | .write id b => d.pageWrite id b
  | .reopen => headerWrite d.header

/-- The file after some page writes. -/
def afterWrites (file : PageId → Buf) (writes : List (PageId × Buf)) : PageId → Buf :=
  writes.foldl (fun file w => Function.update file w.1 w.2) file

/-- What an open finds after a crash that let the first `j` page writes of the operation
through. -/
def crash (d : DiskManager) (op : DiskOp) (j : Nat) : Option DiskManager :=
  openExisting (afterWrites d.file ((d.pageWrites op).take j))

/-- The page ids that `k` calls of `AllocatePage` return. -/
def allocations : Nat → DiskManager → List PageId
  | 0, _ => []
  | k + 1, d => d.allocatePage.1 :: allocations k d.allocatePage.2

end DiskManager

namespace AllocRun

open DiskManager

/-! ## 2. Later allocations -/

section

variable {d : DiskManager} {chain : List PageId}

/-- Without a free list the file is extended, whatever the page count. -/
theorem allocations_extend (k : Nat) {d : DiskManager}
    (h : d.header.freeListHead = invalidPageId) :
    allocations k d = (List.range k).map fun i => d.header.pageCount + UInt32.ofNat i := by
  induction k generalizing d with
  | zero => rfl
  | succ k ih =>
    have halloc : d.allocatePage.1 = d.header.pageCount ∧
        d.allocatePage.2.header.freeListHead = invalidPageId ∧
        d.allocatePage.2.header.pageCount = d.header.pageCount + 1 := by
      rw [allocatePage, if_neg (not_not.mpr h)]
      exact ⟨rfl, h, rfl⟩
    obtain ⟨hid, hhead, hcount⟩ := halloc
    rw [allocations, ih hhead, hid, hcount, List.range_succ_eq_map, List.map_cons, List.map_map]
    refine congrArg₂ List.cons (by simp) (List.map_congr_left fun i _ => ?_)
    rw [Function.comp_apply, UInt32.add_assoc, Nat.succ_eq_one_add, UInt32.ofNat_add]
    rfl

/-- With one, its pages come first. -/
theorem allocations_eq (k : Nat) (h : d.FreeList chain) :
    allocations k d = chain.take k ++
      (List.range (k - chain.length)).map fun i => d.header.pageCount + UInt32.ofNat i := by
  induction chain generalizing k d with
  | nil =>
    rw [List.take_nil, List.nil_append]
    exact allocations_extend k (h.head_eq_invalid_iff.mpr rfl)
  | cons id rest ih =>
    cases k with
    | zero => simp [allocations]
    | succ k =>
      obtain ⟨hid, hlist, hcount, -⟩ := h.allocate_reuse
      rw [allocations, ih k hlist, hid, hcount, List.length_cons, Nat.succ_sub_succ]
      rfl

/-- An id past the end of the file, as long as the ids last. -/
theorem toNat_past {n : UInt32} {i : Nat} (hi : n.toNat + i < 2 ^ 32) :
    (n + UInt32.ofNat i).toNat = n.toNat + i := by
  rw [UInt32.toNat_add, UInt32.toNat_ofNat', Nat.mod_eq_of_lt (a := i) (by omega)]
  exact Nat.mod_eq_of_lt hi

/-- **Later allocations** neither return page 0 nor a page twice, exactly as long as the ids
last. -/
theorem allocations_distinct_iff (h : d.FreeList chain) (hpos : d.header.pageCount ≠ 0)
    (k : Nat) :
    ((allocations k d).Nodup ∧ 0 ∉ allocations k d) ↔
      k + d.header.pageCount.toNat ≤ 2 ^ 32 + chain.length := by
  have hn : 0 < d.header.pageCount.toNat :=
    Nat.pos_of_ne_zero fun he => hpos (UInt32.toNat_inj.mp he)
  have hmax := d.header.pageCount.toNat_lt
  rw [allocations_eq k h]
  constructor
  · rintro ⟨-, h0⟩
    by_contra hlast
    -- the id after the last one is zero
    refine h0 (List.mem_append_right _ (List.mem_map.mpr
      ⟨2 ^ 32 - d.header.pageCount.toNat, List.mem_range.mpr (by omega), ?_⟩))
    refine UInt32.toNat_inj.mp ?_
    rw [UInt32.toNat_add, UInt32.toNat_ofNat', UInt32.toNat_zero]
    omega
  · intro hlast
    have hpast : ∀ i ∈ List.range (k - chain.length),
        (d.header.pageCount + UInt32.ofNat i).toNat = d.header.pageCount.toNat + i := by
      intro i hi
      have := List.mem_range.mp hi
      exact toNat_past (by omega)
    refine ⟨List.nodup_append.mpr ⟨h.nodup.sublist (List.take_sublist _ _), ?_, ?_⟩, ?_⟩
    · refine List.Nodup.map_on (fun i hi j hj hij => ?_) List.nodup_range
      have := congrArg UInt32.toNat hij
      rw [hpast i hi, hpast j hj] at this
      exact Nat.add_left_cancel this
    · rintro id hid id' hid' rfl
      obtain ⟨i, hi, he⟩ := List.mem_map.mp hid'
      have hlt := UInt32.lt_iff_toNat_lt.mp (h.range id (List.mem_of_mem_take hid)).2
      have := hpast i hi
      rw [he] at this
      omega
    · intro h0
      rcases List.mem_append.mp h0 with h0 | h0
      · exact (h.range 0 (List.mem_of_mem_take h0)).1 rfl
      · obtain ⟨i, hi, he⟩ := List.mem_map.mp h0
        have := hpast i hi
        rw [he, UInt32.toNat_zero] at this
        omega

end

/-! ## 3. The file after a crash -/

/-- What the claims of the header and the free list amount to: distinct existing pages, as many
as the header says, none of them held by somebody unless it was being given back, and allocations
that stay apart. -/
structure Intact (st : AllocRun) (op : DiskOp) (k : Nat) (d : DiskManager) : Prop where
  list : ∃ chain, Segment (linkAt d.file) d.header.freeListHead chain invalidPageId ∧
    chain.Nodup ∧ (∀ id ∈ chain, 1 ≤ id ∧ id < d.header.pageCount) ∧
    chain.length = d.header.freePageCount.toNat ∧
    ∀ id ∈ chain, id ∈ st.allocated → op = .deallocate id
  distinct : (allocations k d).Nodup
  nonzero : 0 ∉ allocations k d

/-- The crash falls between the two writes of an allocation that takes a page off the free
list. -/
def CutsReuse (st : AllocRun) (op : DiskOp) (j : Nat) : Prop :=
  op = .allocate ∧ st.disk.header.freeListHead ≠ invalidPageId ∧ j = 1

/-- Enough ids are left for `k` allocations, after the operation went through or not. -/
def IdsLast (st : AllocRun) : DiskOp → Nat → Nat → Prop
  | .allocate, j, k =>
    k + st.disk.header.pageCount.toNat + (if 2 ≤ j then 1 else 0)
      ≤ 2 ^ 32 + st.disk.header.freePageCount.toNat
  | .deallocate _, j, k =>
    k + st.disk.header.pageCount.toNat
      ≤ 2 ^ 32 + st.disk.header.freePageCount.toNat + (if 2 ≤ j then 1 else 0)
  | .write _ _, _, k | .reopen, _, k =>
    k + st.disk.header.pageCount.toNat ≤ 2 ^ 32 + st.disk.header.freePageCount.toNat

instance (st : AllocRun) : ∀ op j k, Decidable (st.IdsLast op j k)
  | .allocate, _, _ | .deallocate _, _, _ | .write _ _, _, _ | .reopen, _, _ =>
    inferInstanceAs (Decidable (_ ≤ _))

section

variable {st : AllocRun} {chain : List PageId} {op : DiskOp} {d : DiskManager} {j k : Nat}

/-- A file with a free list that only holds pages nobody holds is intact, as long as the ids
last. -/
theorem intact_iff (h : d.FreeList chain) (hpos : d.header.pageCount ≠ 0)
    (hheld : ∀ id ∈ chain, id ∈ st.allocated → op = .deallocate id) :
    Intact st op k d ↔ k + d.header.pageCount.toNat ≤ 2 ^ 32 + chain.length := by
  rw [← allocations_distinct_iff h hpos k]
  constructor
  · exact fun hi => ⟨hi.distinct, hi.nonzero⟩
  · intro hi
    refine ⟨⟨chain, h.linked, h.nodup, fun id hid => ⟨?_, (h.range id hid).2⟩, h.count.symm, hheld⟩,
      hi.1, hi.2⟩
    refine UInt32.le_iff_toNat_le.mpr (Nat.pos_of_ne_zero fun he => (h.range id hid).1 ?_)
    exact UInt32.toNat_inj.mp he

/-- The crash leaves the file of `d'`, whose header is stored in it. -/
theorem crash_eq {d' : DiskManager}
    (hfile : afterWrites d.file ((d.pageWrites op).take j) = d'.file)
    (hstored : readHeader (d'.file 0) = d'.header) (hmagic : d'.header.magic = 0x434F5552) :
    d.crash op j = some d' := by
  rw [crash, hfile, openExisting, hstored]
  exact if_pos hmagic

/-- If a crash leaves the file of `d'`, what it leaves is decided there. -/
theorem survives_iff {d' : DiskManager} (hcrash : st.disk.crash op j = some d')
    (h : d'.FreeList chain) (hpos : d'.header.pageCount ≠ 0)
    (hheld : ∀ id ∈ chain, id ∈ st.allocated → op = .deallocate id) :
    (∃ d, st.disk.crash op j = some d ∧ Intact st op k d) ↔
      k + d'.header.pageCount.toNat ≤ 2 ^ 32 + chain.length := by
  rw [← intact_iff h hpos hheld]
  constructor
  · rintro ⟨d, hd, hi⟩
    rwa [← Option.some.inj (hcrash.symm.trans hd)] at hi
  · exact fun hi => ⟨d', hcrash, hi⟩

/-- **A crash before the first write** leaves the file as it was. -/
theorem Sound.crash_none (h : st.Sound chain) :
    (∃ d, st.disk.crash op 0 = some d ∧ Intact st op k d) ↔
      k + st.disk.header.pageCount.toNat ≤ 2 ^ 32 + chain.length :=
  survives_iff (crash_eq rfl h.stored h.magic) h.list h.pos
    fun id hid hheld => absurd hid (h.held id hheld).2.2

/-- **A crash after the last write** leaves the file of the next state. -/
theorem Sound.crash_done (h : st.Sound chain)
    (hfile : afterWrites st.disk.file ((st.disk.pageWrites op).take j) = (st.step op).disk.file)
    {chain' : List PageId} (h' : (st.step op).Sound chain')
    (hsub : ∀ id ∈ chain', id ∈ chain ∨ op = .deallocate id) :
    (∃ d, st.disk.crash op j = some d ∧ Intact st op k d) ↔
      k + (st.step op).disk.header.pageCount.toNat ≤ 2 ^ 32 + chain'.length := by
  refine survives_iff (crash_eq hfile h'.stored h'.magic) h'.list h'.pos fun id hid hheld => ?_
  exact (hsub id hid).resolve_left fun hmem => (h.held id hheld).2.2 hmem

/-- **The defect.**  A page that is taken off the free list is zeroed first; after a crash right
then the header still names it, and its first bytes name page 0. -/
theorem reuse_breaks_list {id : PageId} {rest : List PageId} (h : st.Sound (id :: rest)) :
    ¬ ∃ d, st.disk.crash .allocate 1 = some d ∧ Intact st .allocate k d := by
  obtain ⟨h0, hlt⟩ := h.list.range id List.mem_cons_self
  have hhead : st.disk.header.freeListHead = id := h.list.linked.1
  have hne : st.disk.header.freeListHead ≠ invalidPageId := fun hinv =>
    absurd (h.list.head_eq_invalid_iff.mp hinv) (by simp)
  have hcrash : st.disk.crash .allocate 1 = some (st.disk.writePage id zeroImage).2 := by
    refine crash_eq ?_ ?_ ?_
    · have hnot : ¬ id ≥ st.disk.header.pageCount := UInt32.not_le.mpr hlt
      rw [pageWrites, if_pos hne, hhead, pageWrite, if_neg hnot, DiskManager.writePage, if_neg hnot]
      rfl
    · rw [writePage_header, writePage_file_of_ne _ _ h0.symm]
      exact h.stored
    · rw [writePage_header]
      exact h.magic
  rintro ⟨d, hd, hi⟩
  obtain rfl := Option.some.inj (hcrash.symm.trans hd)
  obtain ⟨chain, hseg, -, hrange, -, -⟩ := hi.list
  rw [writePage_header, hhead] at hseg
  cases chain with
  | nil => exact hne (hhead.trans hseg)
  | cons i chain =>
    obtain ⟨rfl, next, hnext, hseg⟩ := hseg
    -- the zeroed page names page 0
    have hzero : next = 0 := by
      rw [linkAt, writePage_file_self _ _ _ hlt, Buf.get_fill (by decide)] at hnext
      exact (Option.some.inj hnext).symm
    subst hzero
    cases chain with
    | nil => exact absurd (show (0 : PageId) = invalidPageId from hseg) (by decide)
    | cons i' chain =>
      obtain ⟨rfl, -⟩ := hseg
      exact absurd (hrange 0 (List.mem_cons_of_mem _ List.mem_cons_self)).1 (by decide)

/-- All page writes of an allocation. -/
theorem allocate_writes (d : DiskManager) (hlt : d.header.freeListHead ≠ invalidPageId →
      d.header.freeListHead < d.header.pageCount) {j : Nat} (hj : 2 ≤ j) :
    afterWrites d.file ((d.pageWrites .allocate).take j) = d.allocatePage.2.file := by
  have hpop : d.popFreeList.pageCount = d.header.pageCount := by
    unfold popFreeList
    split
    · rfl
    · rfl
  by_cases hne : d.header.freeListHead ≠ invalidPageId
  · have hnot : ¬ d.header.freeListHead ≥ d.header.pageCount := UInt32.not_le.mpr (hlt hne)
    rw [pageWrites, if_pos hne, pageWrite, if_neg hnot, List.take_of_length_le (by
      simp [headerWrite]; exact hj), allocatePage, if_pos hne]
    simp only [DiskManager.writePage, hpop, hnot, if_false]
    rfl
  · rw [pageWrites, if_neg hne, List.take_of_length_le (by simp [headerWrite]; exact hj),
      allocatePage, if_neg hne]
    rfl

/-- **AllocatePage under a crash.** -/
theorem Sound.crash_allocate (h : st.Sound chain) (hadm : st.Admits .allocate) :
    (∃ d, st.disk.crash .allocate j = some d ∧ Intact st .allocate k d) ↔
      ¬ st.CutsReuse .allocate j ∧ st.IdsLast .allocate j k := by
  have hcount := h.list.count
  have hhead := h.list.head_eq_invalid_iff
  rw [CutsReuse, IdsLast, hcount]
  match j with
  -- no write reached the disk
  | 0 => rw [h.crash_none]; simp
  -- the page is zeroed and the header is the old one: harmless for a new page, but a page of
  -- the free list has lost its link
  | 1 =>
    cases chain with
    | cons id rest =>
      have hne : st.disk.header.freeListHead ≠ invalidPageId := fun hinv =>
        absurd (hhead.mp hinv) (by simp)
      exact iff_of_false (reuse_breaks_list h) fun hc => hc.1 ⟨rfl, hne, rfl⟩
    | nil =>
      have hinv := hhead.mpr rfl
      have hcrash : st.disk.crash .allocate 1 = some ⟨st.disk.header,
          Function.update st.disk.file st.disk.header.pageCount zeroImage⟩ := by
        refine crash_eq ?_ ?_ h.magic
        · rw [pageWrites, if_neg (not_not.mpr hinv)]
          rfl
        · have hzero : Function.update st.disk.file st.disk.header.pageCount zeroImage 0
              = st.disk.file 0 := Function.update_of_ne h.pos.symm _ _
          exact (congrArg readHeader hzero).trans h.stored
      have hlink : Segment (linkAt (Function.update st.disk.file st.disk.header.pageCount
          zeroImage)) st.disk.header.freeListHead [] invalidPageId := hinv
      rw [survives_iff hcrash ⟨hlink, List.nodup_nil, by simp, hcount⟩ h.pos (by simp)]
      simp [hinv]
  -- the header is written too, and the allocation is done
  | j + 2 =>
    have hlt : st.disk.header.freeListHead ≠ invalidPageId →
        st.disk.header.freeListHead < st.disk.header.pageCount := by
      intro hne
      cases chain with
      | nil => exact absurd (hhead.mpr rfl) hne
      | cons id rest =>
        have hid : st.disk.header.freeListHead = id := h.list.linked.1
        rw [hid]
        exact (h.list.range id List.mem_cons_self).2
    rw [h.crash_done (allocate_writes st.disk hlt (by omega)) (h.allocate hadm).2
      fun id hid => .inl (List.mem_of_mem_tail hid)]
    have hj : ¬ j + 2 = 1 := by omega
    have hj' : 2 ≤ j + 2 := by omega
    simp only [hj, and_false, not_false_eq_true, true_and, hj', if_true]
    cases chain with
    | cons id rest =>
      obtain ⟨-, -, hpc, -⟩ := h.list.allocate_reuse
      rw [AllocRun.step, hpc, List.tail_cons, List.length_cons]
      omega
    | nil =>
      obtain ⟨-, -, hpc, -⟩ := h.list.allocate_extend h.pos (hadm (hhead.mpr rfl))
      rw [AllocRun.step, hpc, List.tail_nil]
      omega

/-- **DeallocatePage under a crash.** -/
theorem Sound.crash_deallocate (h : st.Sound chain) {id : PageId} (hadm : id ∈ st.allocated) :
    (∃ d, st.disk.crash (.deallocate id) j = some d ∧ Intact st (.deallocate id) k d) ↔
      st.IdsLast (.deallocate id) j k := by
  obtain ⟨h0, hlt, hno⟩ := h.held id hadm
  have hge : ¬ id ≥ st.disk.header.pageCount := UInt32.not_le.mpr hlt
  have hnot : ¬ (id = 0 ∨ id ≥ st.disk.header.pageCount) := fun hc => hc.elim h0 hge
  rw [IdsLast, h.list.count]
  match j with
  | 0 => rw [h.crash_none]; simp
  | 1 =>
    have hcrash : st.disk.crash (.deallocate id) 1
        = some (st.disk.writePage id (zeroImage.put 0 st.disk.header.freeListHead)).2 := by
      refine crash_eq ?_ ?_ ?_
      · rw [pageWrites, if_neg hnot, pageWrite, if_neg hge, DiskManager.writePage, if_neg hge]
        rfl
      · rw [writePage_header, writePage_file_of_ne _ _ h0.symm]
        exact h.stored
      · rw [writePage_header]
        exact h.magic
    rw [survives_iff hcrash (h.list.writePage hno _) (by rw [writePage_header]; exact h.pos)
      fun i hi hheld => absurd hi (h.held i hheld).2.2, writePage_header]
    simp
  | j + 2 =>
    have hfile : afterWrites st.disk.file ((st.disk.pageWrites (.deallocate id)).take (j + 2))
        = (st.step (.deallocate id)).disk.file := by
      rw [pageWrites, if_neg hnot, pageWrite, if_neg hge,
        List.take_of_length_le (by simp [headerWrite]), AllocRun.step, deallocatePage, if_neg hnot,
        DiskManager.writePage, if_neg hge]
      rfl
    obtain ⟨-, -, hpc, -⟩ := h.list.deallocate h0 hlt hno
    rw [h.crash_done hfile (h.deallocate hadm) fun i hi =>
      (List.mem_cons.mp hi).elim (fun he => .inr (by rw [he])) .inl, AllocRun.step, hpc,
      List.length_cons, if_pos (by omega)]
    omega

/-- An operation of a single page write either happened or it did not. -/
theorem Sound.crash_single (h : st.Sound chain) (h' : (st.step op).Sound chain)
    (hheader : (st.step op).disk.header = st.disk.header)
    (hwrite : ∃ w, st.disk.pageWrites op = [w] ∧
      Function.update st.disk.file w.1 w.2 = (st.step op).disk.file) :
    (∃ d, st.disk.crash op j = some d ∧ Intact st op k d) ↔
      k + st.disk.header.pageCount.toNat ≤ 2 ^ 32 + chain.length := by
  obtain ⟨w, hw, hfile⟩ := hwrite
  cases j with
  | zero => exact h.crash_none
  | succ j =>
    have hall : (st.disk.pageWrites op).take (j + 1) = [w] := by
      rw [hw]
      exact List.take_of_length_le (by simp)
    rw [h.crash_done (by rw [hall]; exact hfile) h' fun id hid => .inl hid, hheader]

end

/-! ## 4. When a crash is survived -/

/-- **A crash inside AllocatePage hands out the header page.**  Page 1 was given back; a crash
between the two writes of its reuse leaves a file in which the next two allocations return page
1 and then page 0. -/
theorem crash_hands_out_page_zero :
    Run.StepsOk step Admits start [.allocate, .deallocate 1] ∧
      (List.foldl step start [.allocate, .deallocate 1]).Admits .allocate ∧
      ((List.foldl step start [.allocate, .deallocate 1]).disk.crash .allocate 1).map
        (allocations 2) = some [1, 0] ∧
      ¬ ∃ d, (List.foldl step start [.allocate, .deallocate 1]).disk.crash .allocate 1 = some d ∧
        Intact (List.foldl step start [.allocate, .deallocate 1]) .allocate 2 d := by
  have hids : ((List.foldl step start [.allocate, .deallocate 1]).disk.crash .allocate 1).map
      (allocations 2) = some [1, 0] := by decide +kernel
  refine ⟨by decide +kernel, by decide +kernel, hids, ?_⟩
  rintro ⟨d, hd, hi⟩
  rw [hd] at hids
  refine hi.nonzero ?_
  rw [Option.some.inj hids]
  exact List.mem_cons_of_mem _ List.mem_cons_self

/-- **Page allocation is crash-atomic exactly when the crash does not cut a reuse in two.**
After any operations, and a crash anywhere between the page writes of one more, the file opens
with a free list of distinct existing pages, as long as the header says, none of them held, and
`k` later allocations return neither page 0 nor a page twice, if and only if the crash is not
between the two writes of an allocation from the free list and enough ids are left. -/
theorem crash_atomic_iff {ops : List DiskOp} (hops : Run.StepsOk step Admits start ops)
    {op : DiskOp} (hadm : (ops.foldl step start).Admits op) (j k : Nat) :
    (∃ d, (ops.foldl step start).disk.crash op j = some d ∧
        Intact (ops.foldl step start) op k d) ↔
      ¬ (ops.foldl step start).CutsReuse op j ∧ (ops.foldl step start).IdsLast op j k := by
  obtain ⟨chain, h⟩ := sound_run hops
  generalize ops.foldl step start = st at *
  cases op with
  | allocate => exact h.crash_allocate hadm
  | deallocate id =>
    rw [h.crash_deallocate hadm, CutsReuse]
    simp
  | write id b =>
    rw [h.crash_single (h.write hadm b) (writePage_header _ _ _) ?_, CutsReuse, IdsLast,
      h.list.count]
    · simp
    · have hge : ¬ id ≥ st.disk.header.pageCount := UInt32.not_le.mpr (h.held id hadm).2.1
      rw [pageWrites, pageWrite, if_neg hge, step, DiskManager.writePage, if_neg hge]
      exact ⟨_, rfl, rfl⟩
  | reopen =>
    rw [h.crash_single h.reopen.2 (by rw [h.reopen.1]; rfl) ?_, CutsReuse, IdsLast, h.list.count]
    · simp
    · rw [h.reopen.1]
      exact ⟨_, rfl, rfl⟩

theorem crash_atomic_deallocate :
    ∃ d, (List.foldl step start [.allocate]).disk.crash (.deallocate 1) 1 = some d ∧
      Intact (List.foldl step start [.allocate]) (.deallocate 1) 5 d :=
  (crash_atomic_iff (by decide +kernel) (by decide +kernel) 1 5).mpr
    ⟨by simp [CutsReuse], by decide +kernel⟩

end AllocRun

end CourtDB
