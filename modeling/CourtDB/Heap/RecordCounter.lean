/-
# The record counter

`GetRecordCount` is a counter that every operation adjusts by hand, while the records are in the
slots of the pages.  `CountsSlots` compares the two.  They agree along every run of insertions,
deletions and updates in which an update names a record that is there; `UpdateRecord` of a record id
whose record was deleted counts that record off once more, and from there on the counter is one too
small, or, from zero, 2^32 - 1.

The other condition on an update is that the page does not write the new record over its directory
(`RelocatesBeyond`).
-/
import CourtDB.Heap.HeapUpdate
import CourtDB.Heap.PageChain
import CourtDB.Heap.RecordTable

namespace CourtDB

open BufferPoolManager HeapState

/-- All operations that change a heap file. -/
inductive RecordOp
  | table (op : HeapOp)
  | update (rid : RID) (r : RecordData)

namespace TableRun

variable {n : Nat} {m₀ : PageId → Option Page} {st : TableRun} {s t : HeapState} {rid : RID}
  {r : RecordData}

/-! ## 1. Runs with updates -/

/-- One operation. -/
def apply (st : TableRun) : RecordOp → TableRun
  | .table op => st.step op
  | .update rid r =>
    let res := (st.heap.updateRecord rid r).exec st.pool
    ⟨res.2, res.1.2, note (st.live.filter fun e => decide (e.1 ≠ rid)) (.data r) res.1.1,
      st.returned ++ [res.1.1]⟩

/-- The record counter is the number of slots in use over the pages of the chain. -/
def CountsSlots (st : TableRun) : Prop :=
  ∃ enough, ∀ fuel, enough < fuel →
    st.heap.getRecordCount.toNat
      = slotsInUse st.pool (pageChain st.pool fuel st.heap.getFirstPageId)

/-- The calls of an update on the pool succeed, and it names a record id that was returned. -/
def MayUpdate (st : TableRun) (rid : RID) (r : RecordData) : Prop :=
  (st.heap.updateRecord rid r).CallsOk BufferPoolManager.handle Succeeds st.pool ∧
    rid ∈ st.returned

/-- The most records that an operation can add. -/
def HeapOp.adds : HeapOp → Nat
  | .insert _ => 1
  | .bulk records => records.length
  | .delete _ => 0

/-- What the counter needs of an operation: an update that names a page finds a record there, and
does not write over the directory of that page; and the counter has not reached its end. -/
def Counted (st : TableRun) : RecordOp → Prop
  | .table op => st.Admits op ∧ st.live.length + HeapOp.adds op < 2 ^ 32
  | .update rid r => st.MayUpdate rid r ∧ (rid.isValid = true → (st.live.lookup rid).isSome ∧
      ∀ p ∈ st.pool.pageOf rid.pageId, ¬ p.RelocatesBeyond rid.slotId r)

instance (st : TableRun) (rid : RID) (r : RecordData) : Decidable (st.MayUpdate rid r) :=
  inferInstanceAs (Decidable (_ ∧ _))

instance (st : TableRun) : DecidablePred st.Counted
  | .table _ => inferInstanceAs (Decidable (_ ∧ _))
  | .update _ _ => inferInstanceAs (Decidable (_ ∧ (_ → _ ∧ _)))

/-! ## 2. What an update does to the counter -/

/-- The slots in use are the records of any list of the table. -/
theorem slotsInUse_chain {b : BufferPoolManager} {live : List (RID × List UInt8)} (hn : 0 < n)
    (hok : s.Ok) (hs : b.Shows (View.quiet n s.pages))
    (hfirst : s.chain.head? = some s.heap.firstPageId) (h : Listing live s.stored) {fuel : Nat}
    (hfuel : s.chain.length < fuel) :
    slotsInUse b (pageChain b fuel s.heap.getFirstPageId) = live.length := by
  have hidle := hs.idle hn
  have hperm := (contents_perm hok h).length_eq
  rw [List.length_map] at hperm
  rw [HeapFile.getFirstPageId, hok.pageChain hidle hfirst hfuel, hok.slotsInUse hidle, hperm]

/-- How far the counter is off after an update: by one, if it counted off a record that was not
there. -/
def drift (s : HeapState) (rid : RID) : UInt32 :=
  if rid.isValid = true ∧ s.stored rid = none then 1 else 0

/-- **An update that does not overrun its page** leaves the table that the callers expect, and the
counter off by `drift`. -/
theorem Sound.update (h : Sound n m₀ st s) (hmay : st.MayUpdate rid r)
    (hover : rid.isValid = true →
      ∀ q, s.pages rid.pageId = some q → ¬ q.RelocatesBeyond rid.slotId r) :
    ∃ (i : RID) (t : HeapState), s.Extends t ∧
      ((st.heap.updateRecord rid r).exec st.pool).1 = (i, t.heap) ∧
      ((st.heap.updateRecord rid r).exec st.pool).2.Shows (View.quiet n t.pages) ∧
      ((st.heap.updateRecord rid r).exec st.pool).2.HeaderAside ∧
      Listing (note (st.live.filter fun e => decide (e.1 ≠ rid)) (.data r) i) t.stored ∧
      t.heap.recordCount + drift s rid = UInt32.ofNat
        (note (st.live.filter fun e => decide (e.1 ≠ rid)) (.data r) i).length ∧
      (i.isValid = true → i.pageId ∈ t.chain) ∧ (rid.isValid = true ∨ i = {}) := by
  obtain ⟨hok, hret⟩ := hmay
  have hlen := h.lists.length_erase rid
  have herase := h.lists.erase rid
  have hcount : s.heap.recordCount = UInt32.ofNat st.live.length := h.heap ▸ h.count
  by_cases hvalid : rid.isValid = true
  · have hid := h.returned rid hret hvalid
    have hwp : (st.heap.updateRecord rid r).wp .succeeds (fun a v => ∃ (i : RID) (t : HeapState),
        s.Extends t ∧ a = (i, t.heap) ∧ v = View.quiet n t.pages ∧
          Listing (note (st.live.filter fun e => decide (e.1 ≠ rid)) (.data r) i) t.stored ∧
          t.heap.recordCount + drift s rid = UInt32.ofNat
            (note (st.live.filter fun e => decide (e.1 ≠ rid)) (.data r) i).length ∧
          (i.isValid = true → i.pageId ∈ t.chain)) (View.quiet n s.pages) := by
      rw [← h.heap]
      refine h.ok.updateRecord PoolMode.serves_succeeds hid r (fun _ _ => PoolMode.creates_succeeds)
        (fun q v hq hb => absurd hb (hover hvalid q hq)) (fun t ht hheap hsome hst => ?_)
        fun u t i hu hust huh _ ht hins _ => ?_
      · -- in its place: the record is listed anew
        have hdrift : drift s rid = 0 := if_neg fun hno => by rw [hno.2] at hsome; cases hsome
        refine ⟨rid, t, ht, rfl, rfl, ?_, ?_, fun _ => ht.grows.subset hid⟩
        · rw [note, if_pos hvalid, hst]
          have hl := herase.insert (Function.update_self rid none s.stored) r.bytes
          rwa [Function.update_idem] at hl
        · rw [hheap, hcount, hdrift, UInt32.add_zero, note, if_pos hvalid, hlen, if_pos hsome,
            List.length_cons]
      · -- the record was counted off, and the new one inserted
        have hcount' : u.heap.recordCount + drift s rid
            = UInt32.ofNat (st.live.filter fun e => decide (e.1 ≠ rid)).length := by
          rw [huh]
          dsimp only
          rw [hcount, hlen, UInt32.ofNat_add, drift]
          cases hst : s.stored rid with
          | none => simp [hvalid]
          | some bytes => simp
        obtain ⟨hlists, hdrift⟩ := note_drift (hust ▸ herase) hcount' hins
        exact ⟨i, t, hu.trans ht, rfl, rfl, hlists, hdrift, hins.mem_chain⟩
    obtain ⟨v, ⟨i, t, hext, hres, rfl, hrest⟩, hshows⟩ := h.shows.exec_succeeds hok hwp
    exact ⟨i, t, hext, hres, hshows, h.aside.exec h.shows hok hwp, hrest.1, hrest.2.1, hrest.2.2,
      .inl hvalid⟩
  · -- no page is named, and nothing happens
    have hnone : s.stored rid = none := by
      rw [stored, if_neg fun hid => hvalid (isValid_of_mem h.ok hid rid.slotId)]
    have hdrift : drift s rid = 0 := if_neg fun hyes => hvalid hyes.1
    have hself : Function.update s.stored rid none = s.stored := by
      rw [Function.update_eq_self_iff, hnone]
    rw [HeapFile.updateRecord, if_neg hvalid, ← h.heap]
    refine ⟨{}, s, h.ok.extends, rfl, h.shows, h.aside, ?_, ?_, fun hi => absurd hi (by decide),
      .inr rfl⟩
    · rw [note, if_neg (by decide), ← hself]
      exact herase
    · rw [note, if_neg (by decide), hdrift, UInt32.add_zero, hcount, hlen, hnone]
      rfl

/-! ## 3. What the operations do to the size of the table -/

theorem note_length_le (live : List (RID × List UInt8)) (a : RecordArg) (rid : RID) :
    (note live a rid).length ≤ live.length + 1 := by
  unfold note
  split
  · exact Nat.le_refl _
  · exact Nat.le_succ _

theorem noteAll_length_le (records : List RecordArg) : ∀ (rids : List RID)
    (live : List (RID × List UInt8)),
    (noteAll live records rids).length ≤ live.length + records.length := by
  induction records with
  | nil => exact fun _ _ => Nat.le_refl _
  | cons a records ih =>
    intro rids live
    cases rids with
    | nil => exact Nat.le_add_right _ _
    | cons rid rids =>
      have hone := note_length_le live a rid
      have hrest : (noteAll live (a :: records) (rid :: rids)).length
          ≤ (note live a rid).length + records.length := ih rids (note live a rid)
      rw [List.length_cons]
      omega

theorem step_length_le (st : TableRun) (op : HeapOp) :
    (st.step op).live.length ≤ st.live.length + HeapOp.adds op := by
  unfold step
  split
  · cases op with
    | insert a => exact noteAll_length_le [a] _ _
    | bulk records => exact noteAll_length_le records _ _
    | delete rid => exact List.length_filter_le _ _
  · exact Nat.le_add_right _ _

/-! ## 4. The theorem -/

/-- The run is sound, and the counter has not reached its end. -/
def InStep (n : Nat) (m₀ : PageId → Option Page) (st : TableRun) : Prop :=
  (∃ s, Sound n m₀ st s) ∧ st.live.length < 2 ^ 32

theorem InStep.countsSlots (h : InStep n m₀ st) (hn : 0 < n) : st.CountsSlots := by
  obtain ⟨⟨s, hs⟩, hlt⟩ := h
  refine ⟨s.chain.length, fun fuel hfuel => ?_⟩
  have hslots := slotsInUse_chain hn hs.ok hs.shows hs.first hs.lists hfuel
  rw [hs.heap] at hslots
  rw [hslots, HeapFile.getRecordCount, hs.count, UInt32.toNat_ofNat_of_lt' hlt]

/-- **The step lemma.** -/
theorem InStep.apply (h : InStep n m₀ st) (hn : 0 < n) {op : RecordOp} (hc : st.Counted op) :
    InStep n m₀ (st.apply op) := by
  obtain ⟨⟨s, hs⟩, hlt⟩ := h
  cases op with
  | table op =>
    obtain ⟨t, ht, -⟩ := hs.step hc.1
    exact ⟨⟨t, ht⟩, (step_length_le st op).trans_lt hc.2⟩
  | update rid r =>
    obtain ⟨hmay, hthere⟩ := hc
    obtain ⟨i, t, hext, hres, hshows, haside, hlists, hdrift, hi, hor⟩ := hs.update hmay
      fun hvalid q hq hb => by
        obtain ⟨p, hp, hsame⟩ := (hs.shows.idle hn).pageOf hq
        exact (hthere hvalid).2 p hp (hsame.relocatesBeyond_iff.mpr hb)
    have hzero : drift s rid = 0 := if_neg fun ⟨hvalid, hno⟩ => by
      have hsome := (hthere hvalid).1
      rw [hs.lists.lookup, hno] at hsome
      cases hsome
    rw [hzero, UInt32.add_zero] at hdrift
    have hrids : ∀ rid' ∈ [i], rid'.isValid = true → rid'.pageId ∈ t.chain := fun j hj =>
      List.mem_singleton.mp hj ▸ hi
    have hnext := hs.next hext hshows haside hlists hdrift hrids
    have happly : st.apply (.update rid r) = ⟨((st.heap.updateRecord rid r).exec st.pool).2, t.heap,
        note (st.live.filter fun e => decide (e.1 ≠ rid)) (.data r) i, st.returned ++ [i]⟩ := by
      rw [TableRun.apply, hres]
    rw [happly]
    refine ⟨⟨t, hnext⟩, lt_of_le_of_lt ?_ hlt⟩
    have hlen := hs.lists.length_erase rid
    rcases hor with hvalid | rfl
    · have hsome := (hthere hvalid).1
      rw [hs.lists.lookup] at hsome
      rw [if_pos hsome] at hlen
      exact (note_length_le _ _ _).trans (Nat.le_of_eq hlen.symm)
    · exact List.length_filter_le _ _

/-- A slot that is not empty holds a record. -/
theorem stored_of_relocatesBeyond {q : Page} (hid : rid.pageId ∈ s.chain)
    (hq : s.pages rid.pageId = some q) (hb : q.RelocatesBeyond rid.slotId r) :
    s.stored rid ≠ none := by
  obtain ⟨hlt, hne, -⟩ := hb
  rw [stored, if_pos hid, hq, Option.bind_some, Page.store, Page.getRecord, if_neg hlt, hne]
  exact Option.some_ne_none _

/-- **The run lemma.** -/
theorem inStep_run {b : BufferPoolManager} (hb : b.Idle m₀) (haside : b.HeaderAside)
    (hcreate : HeapFile.create.CallsOk BufferPoolManager.handle Succeeds b) {ops : List RecordOp}
    (hops : Run.StepsOk apply Counted (start b) ops) :
    InStep b.poolSize m₀ (ops.foldl apply (start b)) := by
  obtain ⟨s, hs, -⟩ := sound_start hb haside hcreate
  exact Run.invariant_of_stepsOk (fun _ _ h hc => h.apply hb.size_pos hc)
    ⟨⟨s, hs⟩, Nat.two_pow_pos 32⟩ hops

/-- An update of a record that is not there. -/
theorem InStep.not_countsSlots (h : InStep n m₀ st) (hn : 0 < n) (hmay : st.MayUpdate rid r)
    (hvalid : rid.isValid = true) (hno : st.live.lookup rid = none) :
    ¬ (st.apply (.update rid r)).CountsSlots := by
  obtain ⟨⟨s, hs⟩, -⟩ := h
  rw [hs.lists.lookup] at hno
  have hid := hs.returned rid hmay.2 hvalid
  obtain ⟨i, t, hext, hres, hshows, haside, hlists, hdrift, hi, -⟩ := hs.update hmay
    fun _ q hq hb => stored_of_relocatesBeyond hid hq hb hno
  rintro ⟨enough, hcounts⟩
  have hslots := slotsInUse_chain hn hext.ok hshows (hext.head? hs.first) hlists
    (show t.chain.length < enough + t.chain.length + 1 by omega)
  have hcount := hcounts (enough + t.chain.length + 1) (by omega)
  have hone : drift s rid = 1 := if_pos ⟨hvalid, hno⟩
  rw [TableRun.apply, hres] at hcount
  rw [hslots] at hcount
  rw [hone, ← hcount, HeapFile.getRecordCount, UInt32.ofNat_toNat] at hdrift
  exact absurd hdrift (by grind)

/-- **The counter is right as long as every update names a record that is there**, in every state of
the run; and the first update of a returned record id without a record makes it wrong. -/
theorem record_counter {b : BufferPoolManager} (hb : b.Idle m₀) (haside : b.HeaderAside)
    (hcreate : HeapFile.create.CallsOk BufferPoolManager.handle Succeeds b) {ops : List RecordOp}
    (hops : Run.StepsOk apply Counted (start b) ops) :
    (∀ pre, pre <+: ops → (pre.foldl apply (start b)).CountsSlots) ∧
    ∀ rid r, (ops.foldl apply (start b)).MayUpdate rid r → rid.isValid = true →
      (ops.foldl apply (start b)).live.lookup rid = none →
      ¬ ((ops.foldl apply (start b)).apply (.update rid r)).CountsSlots := by
  constructor
  · rintro pre ⟨post, rfl⟩
    exact (inStep_run hb haside hcreate (Run.stepsOk_append.mp hops).1).countsSlots hb.size_pos
  · intro rid r hmay hvalid hno
    exact (inStep_run hb haside hcreate hops).not_countsSlots hb.size_pos hmay hvalid hno

/-- A record is stored, updated and deleted; and then updated once more. -/
theorem record_counter_updated :
    let ops := [RecordOp.table (.insert (.data ⟨[1], by decide⟩)),
      .update ⟨1, 0⟩ ⟨[2, 3], by decide⟩, .table (.delete ⟨1, 0⟩)]
    (ops.foldl apply (start (overNewFile 3))).CountsSlots ∧
      ¬ ((ops.foldl apply (start (overNewFile 3))).apply
        (.update ⟨1, 0⟩ ⟨[4], by decide⟩)).CountsSlots := by
  intro ops
  obtain ⟨h1, h2⟩ := @record_counter _ _ (idle_overNewFile (n := 3) (by decide))
    (headerAside_overNewFile 3) (by decide +kernel) ops (by decide +kernel)
  exact ⟨h1 ops List.prefix_rfl, h2 _ _ (by decide +kernel) (by decide) (by decide +kernel)⟩

/-- The record id of a deleted record is updated with 5000 bytes: nothing is in use, and the count
has wrapped. -/
theorem record_counter_wraps :
    let ops := [RecordOp.table (.insert (.data ⟨[1], by decide⟩)), .table (.delete ⟨1, 0⟩)]
    let st := ops.foldl apply (start (overNewFile 3))
    st.MayUpdate ⟨1, 0⟩ (Page.recordOfLength 5000 (by decide)) ∧
      ¬ (st.apply (.update ⟨1, 0⟩ (Page.recordOfLength 5000 (by decide)))).CountsSlots ∧
      (st.apply (.update ⟨1, 0⟩ (Page.recordOfLength 5000 (by decide)))).heap.getRecordCount
        = 4294967295 := by
  intro ops st
  have hmay : st.MayUpdate ⟨1, 0⟩ (Page.recordOfLength 5000 (by decide)) := by decide +kernel
  have hrun : InStep 3 (fun _ => none) st :=
    inStep_run (idle_overNewFile (n := 3) (by decide)) (headerAside_overNewFile 3)
      (by decide +kernel) (by decide +kernel)
  exact ⟨hmay, hrun.not_countsSlots (by decide) hmay (by decide) (by decide +kernel),
    by decide +kernel⟩

end TableRun

end CourtDB
