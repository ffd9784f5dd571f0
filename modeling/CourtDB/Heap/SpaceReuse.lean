/-
# The space of deleted records

A deletion leaves a tombstone in the slot directory and lists the page as having space, but the free
space of the page stays what it was: only `Compact` would give the bytes back, and a heap file never
calls it.  An insertion that follows can use the slot again, and needs the free bytes for the whole
record.

So a deletion followed by an insertion adds no page exactly if there is such a place before the
deletion already (`SpaceLeft`), whatever the length of the deleted record.

An insertion looks at the listed pages only.  A search drops each page that is too full for its own
record, and a later record that would fit there does not find it: a heap file grows although it has
space wherever the directory does not cover the chain (`grows_only_when_full_iff`).
-/
import CourtDB.Heap.PageChain
import CourtDB.Heap.RecordTable
import CourtDB.Storage.PageUpdate

namespace CourtDB

namespace Page

variable {p p' : Page} {slotId : UInt16}

/-- After a deletion there is a slot to use again, so the free space has to hold the record only. -/
theorem hasSpaceFor_deleteRecord (hlen : p.slots.length = p.header.numSlots.toNat)
    (hdel : p.deleteRecord slotId = (true, p')) (k : UInt16) :
    p'.hasSpaceFor k = true ↔ k ≤ p.getFreeSpace := by
  unfold deleteRecord at hdel
  split at hdel
  · exact absurd (Prod.mk.inj hdel).1 (by decide)
  · rename_i hlt
    split at hdel
    · exact absurd (Prod.mk.inj hdel).1 (by decide)
    · obtain rfl := (Prod.mk.inj hdel).2
      have hslot : slotId.toNat < p.slots.length := by
        rw [hlen]
        exact UInt16.lt_iff_toNat_lt.mp (UInt16.not_le.mp hlt)
      have hempty : (p.tombstone slotId).findEmptySlot.isSome := by
        rw [findEmptySlot, Option.isSome_map, List.findIdx?_isSome, List.any_eq_true]
        refine ⟨{}, ?_, rfl⟩
        have htake : (p.tombstone slotId).slots.take (p.tombstone slotId).header.numSlots.toNat
            = p.slots.set slotId.toNat {} :=
          List.take_of_length_le (Nat.le_of_eq ((List.length_set ..).trans hlen))
        rw [htake]
        exact List.mem_set hslot _
      rw [hasSpaceFor, hempty, if_pos rfl, decide_eq_true_eq]
      exact Iff.rfl

end Page

namespace HeapState

variable {s t : HeapState} {rid : RID} {k : UInt16}

/-- Apart from the record at `rid`, a page has room for `k` bytes: a listed one, or that of `rid`,
which needs no new slot. -/
def RoomWithout (s : HeapState) (rid : RID) (k : UInt16) : Prop :=
  (∃ id ∈ s.heap.pagesWithSpace, id ≠ rid.pageId ∧ s.HasRoom k id) ∨
    ∃ q, s.pages rid.pageId = some q ∧ k ≤ q.getFreeSpace

/-- **After a deletion**, the listed pages with room are the ones that had it. -/
theorem Ok.room_of_tombstones (h : s.Ok) (hid : rid.pageId ∈ s.chain) (ht : s.Tombstones t rid) :
    (∃ id ∈ t.heap.pagesWithSpace, t.HasRoom k id) ↔ s.RoomWithout rid k := by
  obtain ⟨q, p, p', hq, hp, hdel, hpages, hlisted⟩ := ht
  obtain ⟨q', hq', hql⟩ := h.layout _ hid
  obtain rfl := Option.some.inj (hq.symm.trans hq')
  have hfree : p.getFreeSpace = q.getFreeSpace := by
    rw [Page.getFreeSpace, Page.getFreeSpace, hp.header]
  have hroom := Page.hasSpaceFor_deleteRecord (hp.symm.layout hql).slots_length hdel k
  rw [hfree] at hroom
  have hself : t.HasRoom k rid.pageId ↔ k ≤ q.getFreeSpace := by
    rw [HasRoom, hpages, Function.update_self, ← hroom]
    exact ⟨fun ⟨_, he, hr⟩ => Option.some.inj he ▸ hr, fun hr => ⟨p', rfl, hr⟩⟩
  have hothers : ∀ id, id ≠ rid.pageId → (t.HasRoom k id ↔ s.HasRoom k id) := fun id hne => by
    rw [HasRoom, HasRoom, hpages, Function.update_of_ne hne]
  have hmem : ∀ id, id ∈ t.heap.pagesWithSpace ↔ id ∈ s.heap.pagesWithSpace ∨ id = rid.pageId := by
    intro id
    rw [hlisted]
    split
    · rename_i hold
      exact ⟨Or.inl, fun hor => hor.elim (fun hin => hin) fun he => he ▸ hold⟩
    · rw [List.mem_append, List.mem_singleton]
  constructor
  · rintro ⟨id, hin, hr⟩
    by_cases hne : id = rid.pageId
    · exact .inr ⟨q, hq, hself.mp (hne ▸ hr)⟩
    · exact .inl ⟨id, ((hmem id).mp hin).resolve_right hne, hne, (hothers id hne).mp hr⟩
  · rintro (⟨id, hin, hne, hr⟩ | ⟨q', hq', hle⟩)
    · exact ⟨id, (hmem id).mpr (.inl hin), (hothers id hne).mpr hr⟩
    · obtain rfl := Option.some.inj (hq.symm.trans hq')
      exact ⟨rid.pageId, (hmem _).mpr (.inr rfl), hself.mpr hle⟩

end HeapState

namespace TableRun

open BufferPoolManager HeapState

variable {n : Nat} {m₀ : PageId → Option Page} {st : TableRun} {s : HeapState} {rid : RID}
  {r : RecordData}

/-! ## Cycles -/

/-- `k` bytes find a place once the record at `rid` is deleted: on another page that is listed and
has space for them, or in the free space of the page of `rid`. -/
def SpaceLeft (st : TableRun) (rid : RID) (k : UInt16) : Prop :=
  (∃ id ∈ st.heap.pagesWithSpace, id ≠ rid.pageId ∧
    ∃ p ∈ st.pool.pageOf id, p.hasSpaceFor k = true) ∨
    ∃ p ∈ st.pool.pageOf rid.pageId, k ≤ p.getFreeSpace

instance (st : TableRun) (rid : RID) (k : UInt16) : Decidable (st.SpaceLeft rid k) :=
  inferInstanceAs (Decidable (_ ∨ _))

/-- A record is deleted and another one inserted. -/
def cycle (st : TableRun) (c : RID × RecordData) : TableRun :=
  (st.step (.delete c.1)).step (.insert (.data c.2))

/-- The deleted record is a stored one, the new one is not longer, and the calls succeed. -/
def Cycles (st : TableRun) (c : RID × RecordData) : Prop :=
  (∃ old ∈ st.live.lookup c.1, c.2.bytes.length ≤ old.length) ∧ 0 < c.2.bytes.length ∧
    Run.StepsOk step Admits st [.delete c.1, .insert (.data c.2)]

instance (st : TableRun) (c : RID × RecordData) : Decidable (st.Cycles c) :=
  inferInstanceAs (Decidable (_ ∧ _))

/-- What a client finds on a page of the chain. -/
theorem Sound.exists_pageOf (h : Sound n m₀ st s) (hn : 0 < n) {id : PageId} (hid : id ∈ s.chain)
    {P : Page → Prop} (hP : ∀ p q : Page, p.SameContent q → (P p ↔ P q)) :
    (∃ p ∈ st.pool.pageOf id, P p) ↔ ∃ q, s.pages id = some q ∧ P q := by
  obtain ⟨q, hq, -⟩ := h.ok.layout id hid
  obtain ⟨p, hp, hsame⟩ := (h.shows.idle hn).pageOf hq
  rw [hp, hq]
  exact ⟨fun ⟨_, he, hr⟩ => ⟨q, rfl, (hP p q hsame).mp (Option.some.inj he ▸ hr)⟩,
    fun ⟨_, he, hr⟩ => ⟨p, rfl, (hP p q hsame).mpr (Option.some.inj he ▸ hr)⟩⟩

theorem Sound.spaceLeft_iff (h : Sound n m₀ st s) (hn : 0 < n) (hid : rid.pageId ∈ s.chain)
    (k : UInt16) : st.SpaceLeft rid k ↔ s.RoomWithout rid k := by
  have hother : ∀ id ∈ st.heap.pagesWithSpace,
      ((∃ p ∈ st.pool.pageOf id, p.hasSpaceFor k = true) ↔ s.HasRoom k id) := fun id hin =>
    h.exists_pageOf hn (h.ok.listed id (h.heap ▸ hin)) fun p q hpq => by rw [hasSpaceFor_congr hpq]
  have hself := h.exists_pageOf hn hid (P := fun p => k ≤ p.getFreeSpace) fun p q hpq => by
    rw [Page.getFreeSpace, Page.getFreeSpace, hpq.header]
  rw [SpaceLeft, RoomWithout, hself, h.heap]
  refine or_congr (exists_congr fun id => and_congr_right fun hin => ?_) Iff.rfl
  rw [hother id hin]

/-- **One cycle** adds a page exactly if no space is left. -/
theorem Sound.cycle (h : Sound n m₀ st s) (hn : 0 < n) {c : RID × RecordData} (hc : st.Cycles c) :
    ∃ u, Sound n m₀ (st.cycle c) u ∧ s.Extends u ∧
      (st.SpaceLeft c.1 c.2.length ∧ u.chain = s.chain ∨
        ¬ st.SpaceLeft c.1 c.2.length ∧ u.chain.length = s.chain.length + 1) := by
  obtain ⟨⟨old, hlive, hle⟩, hpos, hdel, hins, -⟩ := hc
  rw [h.lists.lookup, Option.mem_def] at hlive
  have hid := mem_chain_of_stored (Option.isSome_of_eq_some hlive)
  obtain ⟨t, ht, hext, hchain, htomb⟩ := h.delete hdel
  obtain ⟨u, hu, hext', i, hi, hsea⟩ := ht.insert hins
  have hroom := h.ok.room_of_tombstones (k := c.2.length) hid
    (htomb (Option.isSome_of_eq_some hlive))
  rw [← h.spaceLeft_iff hn hid] at hroom
  have hvalid : i.isValid = true := by
    rcases hi with ⟨-, hunfit, -⟩ | ⟨-, -, hvalid, -⟩
    · have hlen := h.ok.stored_length_le hlive
      rcases hunfit c.2 rfl with hz | hbig
      · have h0 := RecordData.toNat_length c.2
        rw [hz] at h0
        exact absurd hpos (by rw [← h0]; decide)
      · omega
    · exact hvalid
  refine ⟨u, hu, hext.trans hext', ?_⟩
  rw [← hroom, ← hchain]
  rcases hsea.stored hvalid with ⟨hyes, hsame⟩ | ⟨hno, id, happ⟩
  · exact .inl ⟨hyes, hsame⟩
  · refine .inr ⟨fun ⟨id, hin, hr⟩ => hno id hin hr, ?_⟩
    rw [happ, List.length_append, List.length_singleton]

/-- **Deleted space is used again exactly where it was free already.**  In every state that
insertions and deletions reach, deleting a stored record and inserting one that is not longer leaves
the page count as it is if and only if there is space without the bytes of the deleted record; and
cycles all of which find such space never add a page. -/
theorem space_reused_iff {b : BufferPoolManager} (hb : b.Idle m₀) (haside : b.HeaderAside)
    (hcreate : HeapFile.create.CallsOk BufferPoolManager.handle Succeeds b) {ops : List HeapOp}
    (hops : Run.StepsOk step Admits (start b) ops) :
    let st := ops.foldl step (start b)
    (∀ c, st.Cycles c →
      ((st.cycle c).heap.getPageCount ≤ st.heap.getPageCount ↔ st.SpaceLeft c.1 c.2.length)) ∧
    ∀ cs, Run.StepsOk cycle (fun st c => st.Cycles c ∧ st.SpaceLeft c.1 c.2.length) st cs →
      (cs.foldl cycle st).heap.getPageCount ≤ st.heap.getPageCount := by
  intro st
  obtain ⟨s, hs, hcount⟩ := sound_run hb haside hcreate hops
  constructor
  · -- one cycle: the pages are counted by the chain
    intro c hc
    obtain ⟨u, hu, hext, hcases⟩ := hs.cycle hb.size_pos hc
    have hcounted := hext.counted
    rw [hcount] at hcounted
    have hcount' : u.heap.pageCount = UInt32.ofNat u.chain.length := by grind
    rw [HeapFile.getPageCount, HeapFile.getPageCount, ← hu.heap, ← hs.heap, hcount, hcount',
      UInt32.le_iff_toNat_le, UInt32.toNat_ofNat_of_lt' hu.chain_lt,
      UInt32.toNat_ofNat_of_lt' hs.chain_lt]
    rcases hcases with ⟨hyes, hsame⟩ | ⟨hno, hlen⟩
    · exact ⟨fun _ => hyes, fun _ => by rw [hsame]⟩
    · exact ⟨fun hle => by omega, fun hyes => absurd hyes hno⟩
  · -- many cycles: none of them needs a page
    intro cs hcs
    have hrun : ∃ t, Sound b.poolSize m₀ (cs.foldl cycle st) t ∧
        t.heap.pageCount = s.heap.pageCount := by
      refine Run.invariant_of_stepsOk (I := fun st => ∃ t, Sound b.poolSize m₀ st t ∧
        t.heap.pageCount = s.heap.pageCount) (fun st' c ⟨t, ht, hsame⟩ ⟨hc, hspace⟩ => ?_)
        ⟨s, hs, rfl⟩ hcs
      obtain ⟨u, hu, hext, hcases⟩ := ht.cycle hb.size_pos hc
      rcases hcases with ⟨-, hchain⟩ | ⟨hno, -⟩
      · have hcounted := hext.counted
        rw [hchain] at hcounted
        exact ⟨u, hu, by grind⟩
      · exact absurd hspace hno
    obtain ⟨t, ht, hsame⟩ := hrun
    rw [HeapFile.getPageCount, HeapFile.getPageCount, ← ht.heap, ← hs.heap, hsame]
    exact UInt32.le_refl _

/-- Two records of 100 bytes, one after the other, in the place of a third. -/
theorem space_reused_small :
    let st := [HeapOp.insert (.data (Page.recordOfLength 100 (by decide)))].foldl step
      (start (overNewFile 3))
    ([(⟨1, 0⟩, Page.recordOfLength 100 (by decide)),
      (⟨1, 0⟩, Page.recordOfLength 99 (by decide))].foldl
      cycle st).heap.getPageCount ≤ st.heap.getPageCount :=
  (space_reused_iff (idle_overNewFile (by decide)) (headerAside_overNewFile 3) (by decide +kernel)
    (by decide +kernel)).2 _ (by decide +kernel)

/-- A record of 4000 bytes is deleted and inserted again, and the heap file has a second page. -/
theorem space_not_reused :
    ∃ ops : List HeapOp, Run.StepsOk step Admits (start (overNewFile 3)) ops ∧
      let st := ops.foldl step (start (overNewFile 3))
      st.Cycles (⟨1, 0⟩, Page.recordOfLength 4000 (by decide)) ∧
        ¬ (st.cycle (⟨1, 0⟩, Page.recordOfLength 4000 (by decide))).heap.getPageCount
          ≤ st.heap.getPageCount :=
  ⟨[.insert (.data (Page.recordOfLength 4000 (by decide)))], by decide +kernel, by decide +kernel,
    by decide +kernel⟩

/-! ## Growth -/

/-- The pages of the heap file, as their links show them. -/
def chain (st : TableRun) : List PageId :=
  pageChain st.pool (st.heap.getPageCount.toNat + 1) st.heap.getFirstPageId

/-- One of the pages has space for a record of `k` bytes. -/
def SpaceOn (st : TableRun) (ids : List PageId) (k : UInt16) : Prop :=
  ∃ id ∈ ids, ∃ p ∈ st.pool.pageOf id, p.hasSpaceFor k = true

instance (st : TableRun) (ids : List PageId) (k : UInt16) : Decidable (st.SpaceOn ids k) :=
  inferInstanceAs (Decidable (∃ id ∈ ids, _))

/-- What a client finds on pages of the chain. -/
theorem Sound.spaceOn_iff (h : Sound n m₀ st s) (hn : 0 < n) {ids : List PageId}
    (hids : ∀ id ∈ ids, id ∈ s.chain) (k : UInt16) :
    st.SpaceOn ids k ↔ ∃ id ∈ ids, s.HasRoom k id :=
  exists_congr fun id => and_congr_right fun hin =>
    h.exists_pageOf hn (hids id hin) fun p q hpq => by rw [hasSpaceFor_congr hpq]

/-- The links show the whole chain. -/
theorem Sound.chain_eq (h : Sound n m₀ st s) (hn : 0 < n)
    (hcount : s.heap.pageCount = UInt32.ofNat s.chain.length) : st.chain = s.chain := by
  rw [chain, HeapFile.getPageCount, HeapFile.getFirstPageId, ← h.heap, hcount,
    UInt32.toNat_ofNat_of_lt' h.chain_lt]
  exact h.ok.pageChain (h.shows.idle hn) h.first (Nat.lt_succ_self _)

/-- **An insertion adds a page** exactly if no listed page has space for the record. -/
theorem Sound.insert_adds_iff (h : Sound n m₀ st s) (hn : 0 < n)
    (hcount : s.heap.pageCount = UInt32.ofNat s.chain.length) (hpos : r.length ≠ 0)
    (hlen : r.bytes.length ≤ 4072) (hadm : st.Admits (.insert (.data r))) :
    st.heap.getPageCount < (st.step (.insert (.data r))).heap.getPageCount
      ↔ ¬ st.SpaceOn st.heap.pagesWithSpace r.length := by
  obtain ⟨t, ht, hext, rid, hins, hsea⟩ := h.insert hadm
  have hvalid : rid.isValid = true := by
    rcases hins with ⟨-, hunfit, -⟩ | ⟨-, -, hvalid, -⟩
    · rcases hunfit r rfl with hz | hbig
      · exact absurd hz hpos
      · exact absurd hlen (Nat.not_le.mpr hbig)
    · exact hvalid
  have hlisted : ∀ id ∈ st.heap.pagesWithSpace, id ∈ s.chain := fun id hin =>
    h.ok.listed id (h.heap ▸ hin)
  have hcount' : t.heap.pageCount = UInt32.ofNat t.chain.length := by
    have hcounted := hext.counted
    rw [hcount] at hcounted
    grind
  rw [HeapFile.getPageCount, HeapFile.getPageCount, ← ht.heap, ← h.heap, hcount, hcount',
    UInt32.lt_iff_toNat_lt, UInt32.toNat_ofNat_of_lt' h.chain_lt,
    UInt32.toNat_ofNat_of_lt' ht.chain_lt, h.heap, h.spaceOn_iff hn hlisted, ← h.heap]
  rcases hsea.stored hvalid with ⟨hyes, hsame⟩ | ⟨hno, id, happ⟩
  · rw [hsame]
    exact ⟨fun hlt => absurd hlt (Nat.lt_irrefl _), fun hnone => absurd hyes hnone⟩
  · rw [happ, List.length_append, List.length_singleton]
    exact ⟨fun _ ⟨id, hin, hroom⟩ => hno id hin hroom, fun _ => Nat.lt_succ_self _⟩

/-- **A heap file grows only when it must, exactly where its directory covers the chain.**  In every
state that the operations reach the links show all pages, and inserting a record that a page can
hold adds a page only if no page of the chain has space for it, if and only if a listed page has
space whenever a page of the chain has. -/
theorem grows_only_when_full_iff {b : BufferPoolManager} (hb : b.Idle m₀) (haside : b.HeaderAside)
    (hcreate : HeapFile.create.CallsOk BufferPoolManager.handle Succeeds b) {ops : List HeapOp}
    (hops : Run.StepsOk step Admits (start b) ops) {r : RecordData} (hpos : r.length ≠ 0)
    (hlen : r.bytes.length ≤ 4072)
    (hadm : (ops.foldl step (start b)).Admits (.insert (.data r))) :
    let st := ops.foldl step (start b)
    st.chain.length = st.heap.getPageCount.toNat ∧
      ((st.heap.getPageCount < (st.step (.insert (.data r))).heap.getPageCount →
          ¬ st.SpaceOn st.chain r.length) ↔
        (st.SpaceOn st.chain r.length → st.SpaceOn st.heap.pagesWithSpace r.length)) := by
  intro st
  obtain ⟨s, hs, hcount⟩ := sound_run hb haside hcreate hops
  constructor
  · rw [hs.chain_eq hb.size_pos hcount, HeapFile.getPageCount, ← hs.heap, hcount,
      UInt32.toNat_ofNat_of_lt' hs.chain_lt]
  · rw [hs.insert_adds_iff hb.size_pos hcount hpos hlen hadm]
    exact not_imp_not

/-- The second of two small records goes to the page of the first. -/
theorem grows_only_when_full_small :
    let st := [HeapOp.insert (.data (Page.recordOfLength 100 (by decide)))].foldl step
      (start (overNewFile 3))
    st.chain.length = st.heap.getPageCount.toNat ∧
      ((st.heap.getPageCount < (st.step (.insert (.data (Page.recordOfLength 50
          (by decide))))).heap.getPageCount →
          ¬ st.SpaceOn st.chain (Page.recordOfLength 50 (by decide)).length) ↔
        (st.SpaceOn st.chain (Page.recordOfLength 50 (by decide)).length →
          st.SpaceOn st.heap.pagesWithSpace (Page.recordOfLength 50 (by decide)).length)) :=
  grows_only_when_full_iff (idle_overNewFile (by decide)) (headerAside_overNewFile 3)
    (by decide +kernel) (by decide +kernel) (by decide) (by decide) (by decide +kernel)

/-- The search for a place of 3000 bytes drops the page that has 2000 bytes left, and a record of
1500 bytes adds a third page. -/
theorem grows_before_full :
    ∃ ops : List HeapOp, Run.StepsOk step Admits (start (overNewFile 3)) ops ∧
      let st := ops.foldl step (start (overNewFile 3))
      st.Admits (.insert (.data (Page.recordOfLength 1500 (by decide)))) ∧
        st.heap.getPageCount < (st.step (.insert (.data (Page.recordOfLength 1500
          (by decide))))).heap.getPageCount ∧
        st.SpaceOn st.chain (Page.recordOfLength 1500 (by decide)).length :=
  ⟨[.insert (.data (Page.recordOfLength 2000 (by decide))),
      .insert (.data (Page.recordOfLength 3000 (by decide)))],
    by decide +kernel, by decide +kernel, by decide +kernel, by decide +kernel⟩

end TableRun

end CourtDB
