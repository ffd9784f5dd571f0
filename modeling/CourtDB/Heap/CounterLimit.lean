/-
# The end of the record counter

`record_count_` has 32 bits, and a heap file can hold more records than that: a page takes hundreds
of short ones, so the page ids last longer than the counter.  Insertions of one byte need few pages
because a page that was just added has room for the record that follows, whichever page it goes to
(`Paced`).  After `2 ^ 32` of them the counter is zero again (`count_wraps`).

The run is too long to be evaluated, and nothing is: the step lemma says that an insertion of one
byte stores a record and asks for a page only if no listed one has room, and the run lemma counts.
That two records fit on a new page is all that is used of the size of pages; it leaves half of the
page ids.
-/
import CourtDB.Buffer.Refusal
import CourtDB.Heap.RecordTable
import CourtDB.Storage.PageUpdate

namespace CourtDB

open BufferPoolManager

/-! ## 1. Pages -/

/-- A new page has room after its first record, if that has one byte. -/
theorem Page.IsNew.hasSpace {id : PageId} {p q p' : Page} {r : RecordData} {slotId : UInt16}
    (hp : p.SameContent q) (hq : q.IsNew id) (hr : r.length = 1)
    (hins : p.insertRecord (.data r) = (some slotId, p')) :
    p'.hasSpaceFor 64 = true ∧ p'.hasSpaceFor 1 = true := by
  have hheader : p.header = { (ofId id).header with flags := dataPageFlag } :=
    hp.header.trans hq.2
  have hslots : p.slots = [] := hp.slots.trans hq.1
  have hempty : p.findEmptySlot = none := by
    rw [findEmptySlot, hslots, List.take_nil]
    rfl
  rcases insertRecord_cases p (.data r) with hno | ⟨r', hr', -, -, hplace⟩
  · rw [hno] at hins
    exact absurd (Prod.mk.inj hins).1 (by simp)
  · obtain rfl := RecordArg.data.inj hr'
    rw [hplace] at hins
    obtain rfl := (Prod.mk.inj hins).2
    have hend : (p.placeRecord r).header.freeSpaceEnd = 4095 := by
      simp only [placeRecord, hempty, hheader, hr]
      exact (by decide : (4096 - 1 : UInt16) = 4095)
    have hoffset : (p.placeRecord r).header.freeSpaceOffset = 24 := by
      simp only [placeRecord, hempty, hheader]
      rfl
    have hentry : (p.placeRecord r).slots = [⟨4095, 1⟩] := by
      rw [← hend]
      simp only [placeRecord, hempty, hslots, hr]
      rfl
    have hnone : (p.placeRecord r).findEmptySlot = none := by
      have hnum : (p.placeRecord r).header.numSlots = 1 := by
        simp only [placeRecord, hempty, hheader]
        rfl
      rw [findEmptySlot, hentry, hnum]
      rfl
    rw [hasSpaceFor, hasSpaceFor, getFreeSpace, hend, hoffset, hnone]
    exact ⟨rfl, rfl⟩

namespace HeapState

open HeapFile PoolM

variable {mode : PoolMode} {n : Nat} {s t : HeapState} {r : RecordData}

/-- Some listed page has room for one byte. -/
def Spare (s : HeapState) : Prop := ∃ id ∈ s.heap.pagesWithSpace, s.HasRoom 1 id

/-- A record of one byte goes to a page with room, or to a new one that has room for more. -/
def Fills (s t : HeapState) : Prop :=
  s.Spare ∧ t.chain = s.chain ∨ ¬ s.Spare ∧ (∃ id, t.chain = s.chain ++ [id]) ∧ t.Spare

/-- **InsertRecord** with one byte.  It asks for a new page only if no listed one has room. -/
theorem Ok.insertByte (h : s.Ok) (hserve : mode.Serves n 1) (hr : r.length = 1)
    (hnew : ¬ s.Spare → mode.Creates n s.pages) {Q : RID × HeapFile → View → Prop}
    (hQ : ∀ (rid : RID) (t : HeapState), s.Extends t → s.Inserts t (.data r) rid →
      rid.isValid = true → s.Fills t → Q (rid, t.heap) (View.quiet n t.pages)) :
    (s.heap.insertRecord (.data r)).wp mode Q (View.quiet n s.pages) := by
  -- a record of one byte fits on a page
  have hfit : ¬ Unfit (.data r) := by
    have hlen : r.bytes.length = 1 := by rw [← RecordData.toNat_length, hr]; rfl
    intro hunfit
    rcases hunfit r rfl with h0 | hlong
    · rw [hr] at h0
      exact absurd h0 (by decide)
    · omega
  have h0 : r.length ≠ 0 := by rw [hr]; decide
  unfold HeapFile.insertRecord
  simp only [h0, if_false]
  rw [wp, Program.wp_bind]
  have hspare : (∀ id ∈ s.heap.pagesWithSpace, ¬ s.HasRoom r.length id) → ¬ s.Spare := by
    rintro hno ⟨id, hid, hroom⟩
    exact hno id hid (hr.symm ▸ hroom)
  refine h.findPageWithSpace hserve (fun hno => hnew (hspare hno))
    fun id t hev hst hcount hid hfound => ?_
  simp only []
  rw [Program.wp_bind]
  refine hev.ok.fetch (hserve.mono (Nat.zero_le 1)) hid fun q hq hql => ?_
  simp only [if_true]
  rw [Program.wp_bind]
  refine wp_read_held hq fun p hp => ?_
  cases hins : p.insertRecord (.data r) with
  | mk slot p' =>
    cases slot with
    -- a page with room, or a new one, does not refuse it
    | none =>
      have hno : (p.insertRecord (.data r)).1 = none := by rw [hins]
      have hunfit : Unfit (.data r) := by
        rcases hfound with ⟨-, hpages, -, q₁, hq₁, hroom⟩ | ⟨-, -, -, q₁, hq₁, hfresh, -⟩
        · rw [hpages] at hq
          obtain rfl := Option.some.inj (hq.symm.trans hq₁)
          exact unfit_of_refused_room hp hql hroom hno
        · obtain rfl := Option.some.inj (hq.symm.trans hq₁)
          exact unfit_of_refused_new hp hfresh hno
      exact absurd hunfit hfit
    | some slotId =>
      obtain ⟨hfits, hext, hinserts⟩ := hev.ok.recordTaken hid hq hp hins
      simp only []
      unfold HeapFile.finishInsert
      rw [Program.wp_bind]
      refine wp_write_held hq hfits ?_
      rw [Program.wp_bind]
      refine wp_unpin_held (fun _ => rfl) ?_
      refine hQ _ _ (hev.trans hext) ?_ (isValid_of_mem hev.ok hid slotId) ?_
      · rw [Inserts, ← hst, ← hcount]
        exact hinserts
      · -- the page was listed, or is new and has room for more
        rcases hfound with ⟨hch, -, hlisted, hroom⟩ | ⟨hch, hno, hlisted, q₁, hq₁, hfresh, -⟩
        · exact .inl ⟨⟨id, hlisted, hr ▸ hroom⟩, hch⟩
        · obtain rfl := Option.some.inj (hq.symm.trans hq₁)
          obtain ⟨hroom, hone⟩ := hfresh.hasSpace hp hr hins
          refine .inr ⟨hspare hno, ⟨id, hch⟩, id, ?_, p', Function.update_self .., hone⟩
          rw [HeapFile.trackSpace, if_pos hroom]
          exact hlisted

/-- After `k` insertions of one byte there are at most half as many pages. -/
def Paced (s : HeapState) (k : Nat) : Prop :=
  2 * s.chain.length ≤ k + 2 ∨ 2 * s.chain.length ≤ k + 3 ∧ s.Spare

/-- **The pace is kept.** -/
theorem Paced.next {k : Nat} (h : s.Paced k) (hfills : s.Fills t) : t.Paced (k + 1) := by
  rcases hfills with ⟨-, hsame⟩ | ⟨hfull, ⟨id, hch⟩, hspare⟩
  · rcases h with hle | ⟨hle, -⟩ <;> exact .inl (by rw [hsame]; omega)
  · rcases h with hle | ⟨-, hs⟩
    · refine .inr ⟨?_, hspare⟩
      rw [hch, List.length_append, List.length_singleton]
      omega
    · exact absurd hs hfull

end HeapState

/-! ## 2. Runs -/

namespace TableRun

variable {n k : Nat} {st : TableRun} {s : HeapState} {r : RecordData}

/-- The pages of a heap file that is alone on its pool are those of its chain. -/
theorem Sound.within (h : Sound n (fun _ => none) st s) :
    (View.quiet n s.pages).Within s.chain.length :=
  ⟨s.chain, Nat.le_refl _, fun id hid => ⟨h.frame id hid, rfl⟩⟩

/-- **The step lemma.** -/
theorem Sound.insertByte (h : Sound n (fun _ => none) st s) (hn : 1 < n) (hr : r.length = 1)
    (hids : s.chain.length + 2 < 2 ^ 32) :
    st.Admits (.insert (.data r)) ∧ ∃ t, Sound n (fun _ => none) (st.step (.insert (.data r))) t ∧
      s.Fills t ∧ (st.step (.insert (.data r))).live.length = st.live.length + 1 := by
  have hcreates : PoolMode.safe.Creates n s.pages :=
    PoolMode.creates_safe (Nat.lt_of_succ_lt hn) (h.within.idsLeft hids)
  have hsafe : (program st.heap (.insert (.data r))).wp .safe (fun _ _ => True)
      (View.quiet n s.pages) := by
    rw [program, ← h.heap, PoolM.wp, Program.wp_bind]
    exact h.ok.insertByte (PoolMode.serves_safe hn) hr (fun _ => hcreates)
      fun _ _ _ _ _ _ => trivial
  obtain ⟨hok, -⟩ := h.shows.exec_safe hsafe
  have hadm : st.Admits (.insert (.data r)) := ⟨hok, fun rid hop => absurd hop (by simp)⟩
  refine ⟨hadm, ?_⟩
  have hrun : ∃ t, Sound n (fun _ => none) (st.step (.insert (.data r))) t ∧ s.Extends t ∧
      s.Fills t ∧ ∃ rid, s.stored rid = none ∧
        t.stored = Function.update s.stored rid (some r.bytes) := by
    refine h.run hok ?_
    have hheap := h.heap
    rw [program, ← hheap, PoolM.wp, Program.wp_bind]
    refine h.ok.insertByte PoolMode.serves_succeeds hr (fun _ => PoolMode.creates_succeeds)
      fun rid t hev hins hvalid hfills => ?_
    obtain ⟨hlists, hcount⟩ := note_spec h.lists (hheap ▸ h.count) hins
    refine ⟨[rid], t, rfl, rfl, hev, ⟨hfills, rid, ?_⟩, hlists, hcount, fun i hi hv => ?_⟩
    · rcases hins with ⟨rfl, -⟩ | ⟨r', hr', -, hfree, hst, -⟩
      · exact absurd hvalid (by decide)
      · obtain rfl := RecordArg.data.inj hr'
        exact ⟨hfree, hst⟩
    · obtain rfl := List.mem_singleton.mp hi
      exact hins.mem_chain hv
  obtain ⟨t, ht, -, hfills, rid, hfree, hst⟩ := hrun
  refine ⟨t, ht, hfills, ?_⟩
  have hlists := h.lists.insert hfree r.bytes
  rw [← hst] at hlists
  exact (ht.lists.perm hlists).length_eq

/-- **The run lemma.**  Up to `2 ^ 32` records of one byte are stored. -/
theorem Sound.insertBytes (hn : 1 < n) (hr : r.length = 1) : ∀ {j : Nat} {st : TableRun}
    {s : HeapState}, Sound n (fun _ => none) st s → s.Paced j → j + k ≤ 2 ^ 32 →
      Run.StepsOk TableRun.step Admits st (List.replicate k (.insert (.data r))) ∧
      ∃ t, Sound n (fun _ => none)
        ((List.replicate k (HeapOp.insert (.data r))).foldl TableRun.step st) t ∧
        ((List.replicate k (HeapOp.insert (.data r))).foldl TableRun.step st).live.length
          = st.live.length + k := by
  induction k with
  | zero => exact fun h _ _ => ⟨trivial, _, h, rfl⟩
  | succ k ih =>
    intro j st s h hpaced hle
    have hids : s.chain.length + 2 < 2 ^ 32 := by
      rcases hpaced with hp | ⟨hp, -⟩ <;> omega
    obtain ⟨hadm, t, ht, hfills, hlen⟩ := h.insertByte hn hr hids
    obtain ⟨hok, u, hu, hlen'⟩ := ih ht (hpaced.next hfills) (by omega)
    rw [List.replicate_succ, List.foldl_cons]
    refine ⟨⟨hadm, hok⟩, u, hu, ?_⟩
    rw [hlen', hlen]
    omega

/-- **The counter wraps around**: after `2 ^ 32` records it says that there are none. -/
theorem count_wraps :
    Run.StepsOk step Admits (start (overNewFile 3))
        (List.replicate (2 ^ 32) (.insert (.data (Page.recordOfLength 1 (by decide))))) ∧
      let st := (List.replicate (2 ^ 32)
        (HeapOp.insert (.data (Page.recordOfLength 1 (by decide))))).foldl step
          (start (overNewFile 3))
      st.heap.getRecordCount.toNat = 0 ∧ st.live.length = 2 ^ 32 := by
  have hcreate : HeapFile.create.CallsOk BufferPoolManager.handle Succeeds (overNewFile 3) := by
    decide +kernel
  obtain ⟨s, hs, hcount⟩ := sound_start (idle_overNewFile (by decide)) (headerAside_overNewFile 3)
    hcreate
  have hone : s.chain.length = 1 := by
    have hpages : s.heap.pageCount = 1 := by
      rw [hs.heap]
      decide +kernel
    rw [hpages] at hcount
    rw [← UInt32.toNat_ofNat_of_lt' hs.chain_lt, ← hcount]
    rfl
  have hpaced : s.Paced 0 := .inl (by rw [hone])
  have hn : 1 < (overNewFile 3).poolSize := by decide
  have hr : (Page.recordOfLength 1 (by decide)).length = 1 := by decide
  obtain ⟨hops, t, ht, hlen⟩ := Sound.insertBytes hn hr hs hpaced (Nat.zero_add _).le
  refine ⟨hops, ?_, hlen.trans (Nat.zero_add _)⟩
  rw [HeapFile.getRecordCount, ht.count, hlen]
  rfl

end TableRun

end CourtDB
