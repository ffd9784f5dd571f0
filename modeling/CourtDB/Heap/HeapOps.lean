/-
# The operations of a heap file

One theorem for each operation says what it does to the state: the invariant is kept, the pages of
others are left alone, and `stored`, with the record counter, changes in the way the caller was
told.  They hold in every mode that lets a client with one pinned page fetch another.

The state is that of `HeapState`: the heap file's own fields, the pages, and the chain of page ids
from the first page on.  `stored` is the table, a partial function from record ids to records; it is
read off the pages of the chain, so an operation that changes one page changes it at the slots of
that page only.

The free-space directory is only a hint.  Nothing below asks that a listed page has room, or that a
page with room is listed; all that is known is that listed pages belong to the chain.  So an
insertion may find that a listed page refuses the record, and then makes its second attempt on a
page of its own, which takes everything that fits on a page at all.

What an operation may answer is said by a relation of its own (`Inserts`, `Deletes`, `InsertsAll`),
between the table before, the answer, and the table after.  Where the page is and how it was found
is said beside it (`Searches`), for those who need it.
-/
import CourtDB.Buffer.PageClient
import CourtDB.Heap.HeapChain

namespace CourtDB

namespace HeapState

open HeapFile PoolM

variable {mode : PoolMode} {n : Nat} {k : UInt16} {s t : HeapState}

/-! ## 1. Pages

A new page is put at the end of the chain, and the page before it is changed to link to it.  The
header fields that this changes have no part in what is stored (`SameContent`). -/

/-- The last page belongs to the chain, unless there is none. -/
theorem Ok.last_mem (h : s.Ok) :
    s.heap.lastPageId ∈ s.chain ∨ s.chain = [] ∧ s.heap.lastPageId = invalidPageId := by
  rw [← h.last]
  cases hl : s.chain.getLast? with
  | none => exact .inr ⟨List.getLast?_eq_none_iff.mp hl, rfl⟩
  | some last => exact .inl (List.mem_of_getLast? hl)

/-- A page that was just created, with its flags set, is empty. -/
theorem setFlags_new {id : PageId} {p : Page} (h : p.SameContent (Page.ofId id)) :
    (p.setFlags dataPageFlag).Layout ∧ ((p.setFlags dataPageFlag).store = fun _ => none) ∧
      (p.setFlags dataPageFlag).getNextPageId = invalidPageId ∧
      (p.setFlags dataPageFlag).IsNew id := by
  have hlay : p.Layout := h.symm.layout (Page.layout_ofId id)
  obtain ⟨hl, hst⟩ := hlay.of_fields (q := p.setFlags dataPageFlag) rfl rfl rfl
  refine ⟨hl, hst.trans ?_, congrArg PageHeader.nextPageId h.header, h.slots, ?_⟩
  · funext slotId
    rw [hlay.store_apply, Page.recordAt, h.slots]
    rfl
  · rw [Page.setFlags, h.header]

/-- Linking a page to another one leaves its records. -/
theorem setNextPageId_spec {p q : Page} (h : p.SameContent q) (hq : q.Layout) (id : PageId) :
    (p.setNextPageId id).Layout ∧ (p.setNextPageId id).store = q.store ∧
      (p.setNextPageId id).getNextPageId = id := by
  have hlay : p.Layout := h.symm.layout hq
  obtain ⟨hl, hst⟩ := hlay.of_fields (q := p.setNextPageId id) rfl rfl rfl
  exact ⟨hl, hst.trans (h.store hlay), rfl⟩

/-- The heap file after `AllocateNewPage` took page `id`. -/
def withNewPage (heap : HeapFile) (id : PageId) : HeapFile :=
  { heap with
    lastPageId := id
    pageCount := heap.pageCount + 1
    pagesWithSpace := heap.pagesWithSpace ++ [id] }

/-- A page was put at the end of the chain: nothing is stored on it. -/
structure Appends (s t : HeapState) (id : PageId) : Prop where
  extending : s.Extends t
  stored : t.stored = s.stored
  count : t.heap.recordCount = s.heap.recordCount
  chain : t.chain = s.chain ++ [id]
  listed : id ∈ t.heap.pagesWithSpace
  page : ∃ q, t.pages id = some q ∧ q.IsNew id ∧ q.Layout

theorem Appends.mem_chain {id : PageId} (h : s.Appends t id) : id ∈ t.chain := by
  rw [h.chain]
  exact List.mem_append_right _ List.mem_cons_self

/-- The listed pages are those of the chain and the new one. -/
theorem Ok.listed_append (h : s.Ok) {id : PageId} :
    ∀ i ∈ (withNewPage s.heap id).pagesWithSpace, i ∈ s.chain ∨ i = id := by
  intro i hi
  rcases List.mem_append.mp hi with hi | hi
  · exact .inl (h.listed i hi)
  · exact .inr (List.mem_singleton.mp hi)

/-- A page that was just made is not on the chain. -/
theorem Ok.ne_fresh (h : s.Ok) {id : PageId} (hfresh : s.pages id = none) :
    ∀ i ∈ s.chain, i ≠ id := by
  rintro i hi rfl
  obtain ⟨q, hq, -⟩ := h.layout i hi
  rw [hfresh] at hq
  exact absurd hq (by simp)

/-- **A new page behind the last one**, which links to it. -/
theorem Ok.appendLinked (h : s.Ok) {id : PageId} (h0 : id ≠ 0) (hne : id ≠ invalidPageId)
    (hfresh : s.pages id = none) {p p' q : Page} (hp : p.SameContent (Page.ofId id))
    (hmem : s.heap.lastPageId ∈ s.chain) (hq : s.pages s.heap.lastPageId = some q) (hql : q.Layout)
    (hp' : p'.SameContent q) :
    s.Appends ⟨withNewPage s.heap id, Function.update
      (Function.update s.pages id (some (p.setFlags dataPageFlag))) s.heap.lastPageId
      (some (p'.setNextPageId id)), s.chain ++ [id]⟩ id := by
  obtain ⟨hlay, hempty, hnext, hnew⟩ := setFlags_new hp
  obtain ⟨hl', hst', hn'⟩ := setNextPageId_spec hp' hql id
  have hself := Function.update_self (β := fun _ => Option Page) s.heap.lastPageId
    (some (p'.setNextPageId id)) (Function.update s.pages id (some (p.setFlags dataPageFlag)))
  have hpage : Function.update (Function.update s.pages id (some (p.setFlags dataPageFlag)))
      s.heap.lastPageId (some (p'.setNextPageId id)) id = some (p.setFlags dataPageFlag) := by
    rw [Function.update_of_ne (h.ne_fresh hfresh _ hmem).symm, Function.update_self]
  obtain ⟨hev, hstored⟩ := h.append (withNewPage s.heap id) h0 hne hfresh hpage hlay hempty hnext
    (fun i hi hil => by
      by_cases hmem' : i = s.heap.lastPageId
      · exact absurd hmem' (hil (hmem' ▸ hmem))
      · rw [Function.update_of_ne hmem', Function.update_of_ne hi])
    (fun q₀ _ hq₀ _ => by
      obtain rfl := Option.some.inj (hq.symm.trans hq₀)
      exact ⟨_, hself, hl', hst', hn'⟩) rfl rfl h.listed_append
  exact ⟨hev.extends_append rfl rfl, hstored, rfl, rfl,
    List.mem_append_right _ List.mem_cons_self, _, hpage, hnew, hlay⟩

/-- **The first page of a chain.** -/
theorem Ok.appendFirst (h : s.Ok) {id : PageId} (h0 : id ≠ 0) (hne : id ≠ invalidPageId)
    (hfresh : s.pages id = none) {p : Page} (hp : p.SameContent (Page.ofId id))
    (hnil : s.chain = []) :
    s.Appends ⟨withNewPage s.heap id,
      Function.update s.pages id (some (p.setFlags dataPageFlag)), s.chain ++ [id]⟩ id := by
  obtain ⟨hlay, hempty, hnext, hnew⟩ := setFlags_new hp
  have hpage := Function.update_self (β := fun _ => Option Page) id
    (some (p.setFlags dataPageFlag)) s.pages
  obtain ⟨hev, hstored⟩ := h.append (withNewPage s.heap id) h0 hne hfresh hpage hlay hempty hnext
    (fun i hi _ => Function.update_of_ne hi _ _)
    (fun _ hmem _ _ => absurd hmem (by rw [hnil]; exact List.not_mem_nil)) rfl rfl h.listed_append
  exact ⟨hev.extends_append rfl rfl, hstored, rfl, rfl,
    List.mem_append_right _ List.mem_cons_self, _, hpage, hnew, hlay⟩

/-- **AllocateNewPage** appends an empty page. -/
theorem Ok.allocateNewPage (h : s.Ok) (hserve : mode.Serves n 1)
    (hnew : mode.Creates n s.pages) {Q : PageId × HeapFile → View → Prop}
    (hQ : ∀ (id : PageId) (t : HeapState), s.Appends t id →
      Q (id, t.heap) (View.quiet n t.pages)) :
    s.heap.allocateNewPage.wp mode Q (View.quiet n s.pages) := by
  unfold HeapFile.allocateNewPage
  rw [wp, Program.wp_bind]
  refine wp_new_quiet hnew fun id h0 hne hfresh => ?_
  simp only []
  rw [Program.wp_bind]
  refine wp_read_held (Function.update_self id _ s.pages) fun p hp => ?_
  rw [Program.wp_bind]
  refine wp_write_held (Function.update_self id _ s.pages) (setFlags_new hp).1.directoryFits ?_
  rw [Function.update_idem]
  rcases h.last_mem with hmem | ⟨hnil, hinv⟩
  · obtain ⟨q, hq, hql⟩ := h.layout _ hmem
    have hlast := h.ne_fresh hfresh _ hmem
    rw [if_pos ⟨(h.ids _ hmem).2, hlast⟩]
    have hq' : Function.update s.pages id (some (p.setFlags dataPageFlag)) s.heap.lastPageId
        = some q := by rw [Function.update_of_ne hlast, hq]
    refine wp_fetch_second hserve (h.ids _ hmem).1 hlast hq'
      (fun p' hp' => (setNextPageId_spec hp' hql id).1.directoryFits) fun p' hp' => ?_
    rw [wp, Program.wp_bind]
    exact wp_unpin_held (fun _ => rfl) (hQ id _ (h.appendLinked h0 hne hfresh hp hmem hq hql hp'))
  · rw [if_neg fun hc => hc.1 hinv]
    rw [Program.wp_bind]
    exact wp_unpin_held (fun _ => rfl) (hQ id _ (h.appendFirst h0 hne hfresh hp hnil))

/-- The page has room for a record of that length, by its own account. -/
def HasRoom (s : HeapState) (recordLength : UInt16) (id : PageId) : Prop :=
  ∃ q, s.pages id = some q ∧ q.hasSpaceFor recordLength = true

/-- Free space is part of the content of a page. -/
theorem hasSpaceFor_congr {p q : Page} (h : p.SameContent q) (k : UInt16) :
    p.hasSpaceFor k = q.hasSpaceFor k := by
  unfold Page.hasSpaceFor Page.getFreeSpace Page.findEmptySlot
  rw [h.header, h.slots]

/-- **The search of the directory** stops at the first page with room and drops the pages before
it. -/
theorem Ok.searchDirectory (h : s.Ok) (hserve : mode.Serves n 0) (k : UInt16)
    (l : List PageId) (hl : ∀ id ∈ l, id ∈ s.chain) {Q : Option PageId × List PageId → View → Prop}
    (hQ : ∀ dropped listed, l = dropped ++ listed → (∀ id ∈ dropped, ¬ s.HasRoom k id) →
      (∀ id ∈ listed.head?, s.HasRoom k id) → Q (listed.head?, listed) (View.quiet n s.pages)) :
    (HeapFile.searchDirectory k l).wp mode Q (View.quiet n s.pages) := by
  induction l with
  | nil => exact hQ [] [] rfl (by simp) (by simp)
  | cons id rest ih =>
    have hid : id ∈ s.chain := hl id List.mem_cons_self
    obtain ⟨q, hq, -⟩ := h.layout id hid
    unfold HeapFile.searchDirectory
    rw [wp, Program.wp_bind]
    refine wp_fetch_quiet hserve (h.ids id hid).1 hq ?_
    simp only [if_true]
    rw [Program.wp_bind]
    refine wp_read_held hq fun p hp => ?_
    rw [Program.wp_bind]
    refine wp_unpin_held (by simp) ?_
    rw [hasSpaceFor_congr hp]
    by_cases hroom : q.hasSpaceFor k = true
    · rw [if_pos hroom]
      refine hQ [] (id :: rest) rfl (by simp) fun i hi => ?_
      obtain rfl := Option.some.inj hi
      exact ⟨q, hq, hroom⟩
    · rw [if_neg hroom]
      refine ih (fun i hi => hl i (List.mem_cons_of_mem _ hi))
        fun dropped listed hsplit hno hyes => ?_
      refine hQ (id :: dropped) listed (by rw [hsplit]; rfl) (fun i hi => ?_) hyes
      rcases List.mem_cons.mp hi with rfl | hi
      · rintro ⟨q', hq', hr⟩
        obtain rfl := Option.some.inj (hq.symm.trans hq')
        exact hroom hr
      · exact hno i hi

/-- **FindPageWithSpace** finds a listed page that has room, or appends an empty page. -/
theorem Ok.findPageWithSpace (h : s.Ok) (hserve : mode.Serves n 1)
    (hnew : (∀ id ∈ s.heap.pagesWithSpace, ¬ s.HasRoom k id) → mode.Creates n s.pages)
    {Q : PageId × HeapFile → View → Prop}
    (hQ : ∀ (id : PageId) (t : HeapState), s.Extends t → t.stored = s.stored →
      t.heap.recordCount = s.heap.recordCount → id ∈ t.chain →
      (t.chain = s.chain ∧ t.pages = s.pages ∧ id ∈ s.heap.pagesWithSpace ∧ s.HasRoom k id ∨
        t.chain = s.chain ++ [id] ∧ (∀ i ∈ s.heap.pagesWithSpace, ¬ s.HasRoom k i) ∧
          id ∈ t.heap.pagesWithSpace ∧ ∃ q, t.pages id = some q ∧ q.IsNew id ∧ q.Layout) →
      Q (id, t.heap) (View.quiet n t.pages)) :
    (s.heap.findPageWithSpace k).wp mode Q (View.quiet n s.pages) := by
  unfold HeapFile.findPageWithSpace
  rw [wp, Program.wp_bind]
  refine h.searchDirectory (hserve.mono (Nat.zero_le 1)) k _ h.listed
    fun dropped listed hsplit hno hyes => ?_
  have hlisted : ∀ id ∈ listed, id ∈ s.chain := fun id hid =>
    h.listed id (hsplit ▸ List.mem_append_right _ hid)
  have hev : s.Evolves { s with heap := { s.heap with pagesWithSpace := listed } } :=
    h.withHeap _ rfl rfl hlisted
  cases listed with
  | cons id rest =>
    refine hQ id _ (hev.extends rfl rfl) rfl rfl (hlisted id List.mem_cons_self)
      (.inl ⟨rfl, rfl, ?_, hyes id rfl⟩)
    rw [hsplit]
    exact List.mem_append_right _ List.mem_cons_self
  | nil =>
    rw [List.append_nil] at hsplit
    refine hev.ok.allocateNewPage hserve (hnew (hsplit ▸ hno)) fun id t hap => ?_
    refine hQ id t ((hev.extends rfl rfl).trans hap.extending) hap.stored hap.count hap.mem_chain
      (.inr ⟨hap.chain, hsplit ▸ hno, hap.listed, hap.page⟩)

/-! ## 2. Inserting a record

The answers of a page are those of the storage layer.  One case needs care: for lengths near 2^16
the room check of the page wraps around, so a page may be found that has no room.  The record does
not fit on any page then, and the second attempt refuses it too. -/

/-- The argument is no record that fits on a page. -/
def Unfit (a : RecordArg) : Prop := ∀ r, a = .data r → r.length = 0 ∨ 4072 < r.bytes.length

/-- What an insertion may answer and do: an invalid id and nothing stored, for an argument that
fits on no page, or the id of a free place, where the record now is. -/
def Inserts (s t : HeapState) (a : RecordArg) (rid : RID) : Prop :=
  (rid = {} ∧ Unfit a ∧ t.stored = s.stored ∧ t.heap.recordCount = s.heap.recordCount) ∨
    ∃ r, a = .data r ∧ rid.isValid = true ∧ s.stored rid = none ∧
      t.stored = Function.update s.stored rid (some r.bytes) ∧
      t.heap.recordCount = s.heap.recordCount + 1

/-- A page that refuses an argument that could fit does not have the space. -/
theorem unfit_of_refused {p : Page} {a : RecordArg} (hno : (p.insertRecord a).1 = none)
    (hspace : ∀ r, a = .data r → r.bytes.length ≤ 4072 → p.fits r.length = true) : Unfit a := by
  rintro r rfl
  by_contra hfit
  obtain ⟨h0, hlen⟩ := not_or.mp hfit
  rw [Page.insertRecord, if_neg h0, if_pos (hspace r rfl (Nat.not_lt.mp hlen))] at hno
  exact absurd hno (by simp)

/-- An empty page takes whatever fits on a page. -/
theorem unfit_of_refused_new {id : PageId} {p q : Page} {a : RecordArg} (hp : p.SameContent q)
    (hq : q.IsNew id) (hno : (p.insertRecord a).1 = none) : Unfit a := by
  refine unfit_of_refused hno fun r _ hlen => ?_
  have hempty : p.findEmptySlot = none := by
    rw [Page.findEmptySlot, hp.slots, hq.1, List.take_nil]
    rfl
  have hover : p.slotOverhead.toNat = 4 := by rw [Page.slotOverhead, hempty]; rfl
  rw [Page.fits_iff, hp.header, hq.2, hover, RecordData.toNat_length]
  change 20 + r.bytes.length + 4 ≤ 4096
  omega

/-- A page with room takes the record, unless its length makes the room check wrap around. -/
theorem unfit_of_refused_room {p q : Page} {a : RecordArg} (hp : p.SameContent q)
    (hq : q.Layout) (hroom : q.hasSpaceFor a.length = true)
    (hno : (p.insertRecord a).1 = none) : Unfit a := by
  refine unfit_of_refused hno fun r hr hlen => ?_
  subst hr
  have hpl : p.Layout := hp.symm.layout hq
  rw [← hasSpaceFor_congr hp, Page.hasSpaceFor, decide_eq_true_eq] at hroom
  have hfree := Page.toNat_getFreeSpace hpl.offset_le
  have hle := UInt16.le_iff_toNat_le.mp hroom
  have hrlen := RecordData.toNat_length r
  have hstart := hpl.offset_le
  have hadd : (r.length + slotEntrySize).toNat = r.bytes.length + 4 := by
    rw [toNat_add16 (by simp [hrlen]; omega), hrlen]
    rfl
  rw [Page.fits_iff, hrlen, Page.slotOverhead]
  rw [hfree] at hle
  cases hslot : p.findEmptySlot with
  | some slot =>
    simp only [hslot, Option.isSome_some, if_true, RecordArg.length, hrlen] at hle ⊢
    simp only [UInt16.toNat_zero]
    omega
  | none =>
    simp only [hslot, Option.isSome_none, Bool.false_eq_true, if_false, RecordArg.length,
      hadd] at hle ⊢
    have h4 : slotEntrySize.toNat = 4 := rfl
    omega

/-- A page takes no more than 4072 bytes. -/
theorem fit_of_inserted {p q : Page} {a : RecordArg} {slotId : UInt16} (hp : p.SameContent q)
    (hq : q.Layout) (hins : (p.insertRecord a).1 = some slotId) : ¬ Unfit a := by
  have hpl : p.Layout := hp.symm.layout hq
  rcases Page.insertRecord_cases p a with hno | ⟨r, rfl, h0, hfits, -⟩
  · rw [hno] at hins
    exact absurd hins (by simp)
  · intro hunfit
    rw [Page.fits_iff, RecordData.toNat_length, Page.slotOverhead] at hfits
    have hoff := hpl.offset_eq
    have hend := hpl.end_le
    simp only [pageSize] at hend
    rcases hunfit r rfl with hz | hbig
    · exact h0 hz
    · cases hslot : p.findEmptySlot with
      | some slot =>
        -- an empty slot lies in the directory
        have hlen := hpl.slots_length
        have hpos : 0 < p.header.numSlots.toNat := by
          by_contra hzero
          rw [Page.findEmptySlot, Nat.eq_zero_of_not_pos hzero, List.take_zero] at hslot
          exact absurd hslot (by simp)
        omega
      | none =>
        rw [hslot] at hfits
        have h4 : slotEntrySize.toNat = 4 := rfl
        simp only [Option.isSome_none, Bool.false_eq_true, if_false] at hfits
        omega

/-- A page that takes a record. -/
theorem Ok.insertOn (h : s.Ok) {id : PageId} {q p : Page} {a : RecordArg} {slotId : UInt16}
    {p' : Page} (hid : id ∈ s.chain) (hq : s.pages id = some q) (hp : p.SameContent q)
    (hins : p.insertRecord a = (some slotId, p')) :
    s.Evolves (s.setPage id p') ∧ p'.DirectoryFits ∧
      ∃ r, a = .data r ∧ s.stored ⟨id, slotId⟩ = none ∧
        (s.setPage id p').stored = Function.update s.stored ⟨id, slotId⟩ (some r.bytes) := by
  obtain ⟨q₀, hq₀, hql⟩ := h.layout id hid
  obtain rfl := Option.some.inj (hq.symm.trans hq₀)
  have hpl : p.Layout := hp.symm.layout hql
  have hnext := Page.insertRecord_next (p := p) a
  rcases hpl.insertRecord_store a with hno | ⟨r, slot, ha, hslot, hfree, hlay, hstore⟩
  · rw [hno] at hins
    exact absurd (Prod.mk.inj hins).1 (by simp)
  · rw [hins] at hslot hlay hstore hnext
    obtain rfl := Option.some.inj hslot
    rw [hp.store hpl] at hfree hstore
    refine ⟨h.setPage hid hq hlay (hnext.trans hp.getNextPageId), hlay.directoryFits, r, ha, ?_,
      stored_setPage hid hq hstore⟩
    rw [stored, if_pos hid, hq]
    exact hfree

/-- A record id on a page of the file is valid. -/
theorem isValid_of_mem (h : s.Ok) {id : PageId} (hid : id ∈ s.chain) (slotId : UInt16) :
    (⟨id, slotId⟩ : RID).isValid = true := by
  simp [RID.isValid, (h.ids id hid).2]

/-- Taking a full page off the directory. -/
theorem trackSpace_fields (heap : HeapFile) (id : PageId) (p : Page) :
    (heap.trackSpace id p).firstPageId = heap.firstPageId ∧
      (heap.trackSpace id p).lastPageId = heap.lastPageId ∧
      (heap.trackSpace id p).recordCount = heap.recordCount ∧
      (∀ i ∈ (heap.trackSpace id p).pagesWithSpace, i ∈ heap.pagesWithSpace) ∧
      (heap.trackSpace id p).pageCount = heap.pageCount := by
  unfold HeapFile.trackSpace
  split
  · exact ⟨rfl, rfl, rfl, fun _ hi => hi, rfl⟩
  · exact ⟨rfl, rfl, rfl, fun _ hi => List.mem_of_mem_erase hi, rfl⟩

/-- **A page of the chain took the record.** -/
theorem Ok.recordTaken (h : s.Ok) {id : PageId} {q p : Page} {a : RecordArg} {slotId : UInt16}
    {p' : Page} (hid : id ∈ s.chain) (hq : s.pages id = some q) (hp : p.SameContent q)
    (hins : p.insertRecord a = (some slotId, p')) :
    let t : HeapState :=
      ⟨{ s.heap.trackSpace id p' with recordCount := s.heap.recordCount + 1 },
        Function.update s.pages id (some p'), s.chain⟩
    p'.DirectoryFits ∧ s.Extends t ∧ s.Inserts t a ⟨id, slotId⟩ := by
  obtain ⟨hev, hfits, r, ha, hfree, hst⟩ := h.insertOn hid hq hp hins
  obtain ⟨h1, h2, h3, h4, h5⟩ := trackSpace_fields s.heap id p'
  have hev' := hev.ok.withHeap
    { s.heap.trackSpace id p' with recordCount := s.heap.recordCount + 1 } h1 h2
    fun i hi => h.listed i (h4 i hi)
  exact ⟨hfits, (hev.trans hev').extends rfl h5,
    .inr ⟨r, ha, isValid_of_mem h hid slotId, hfree, hst, rfl⟩⟩

/-- The end of `InsertRecord`. -/
theorem Ok.finishInsert (h : s.Ok) {id : PageId} {q p : Page} {a : RecordArg} {slotId : UInt16}
    {p' : Page} (hid : id ∈ s.chain) (hq : s.pages id = some q) (hp : p.SameContent q)
    (hins : p.insertRecord a = (some slotId, p')) {Q : RID × HeapFile → View → Prop}
    (hQ : ∀ t : HeapState, s.Extends t → s.Inserts t a ⟨id, slotId⟩ → t.chain = s.chain →
      Q (⟨id, slotId⟩, t.heap) (View.quiet n t.pages)) :
    (s.heap.finishInsert id slotId p').wp mode Q (View.held n s.pages id false) := by
  obtain ⟨hfits, hext, hinserts⟩ := h.recordTaken hid hq hp hins
  unfold HeapFile.finishInsert
  rw [wp, Program.wp_bind]
  refine wp_write_held hq hfits ?_
  rw [Program.wp_bind]
  exact wp_unpin_held (fun _ => rfl) (hQ _ hext hinserts rfl)

/-- Pages of the chain are fetched without fail. -/
theorem Ok.fetch (h : s.Ok) (hserve : mode.Serves n 0) {id : PageId} (hid : id ∈ s.chain)
    {Q : Bool → View → Prop}
    (hQ : ∀ q, s.pages id = some q → q.Layout → Q true (View.held n s.pages id false)) :
    (fetchPage id).wp mode Q (View.quiet n s.pages) := by
  obtain ⟨q, hq, hql⟩ := h.layout id hid
  exact wp_fetch_quiet hserve (h.ids id hid).1 hq (hQ q hq hql)

/-- **InsertRecord's second attempt**, on a page of its own. -/
theorem Ok.insertOnNewPage (h : s.Ok) (hserve : mode.Serves n 1)
    (hnew : mode.Creates n s.pages) (a : RecordArg) {Q : RID × HeapFile → View → Prop}
    (hQ : ∀ (rid : RID) (t : HeapState) (id : PageId), s.Extends t → s.Inserts t a rid →
      (rid.isValid = true → ¬ Unfit a) → t.chain = s.chain ++ [id] →
      Q (rid, t.heap) (View.quiet n t.pages)) :
    (s.heap.insertOnNewPage a).wp mode Q (View.quiet n s.pages) := by
  unfold HeapFile.insertOnNewPage
  rw [wp, Program.wp_bind]
  refine h.allocateNewPage hserve hnew fun id t hap => ?_
  obtain ⟨hev, hst, hcount, hch, -, q, hq, hqn, hql⟩ := hap
  have hid : id ∈ t.chain := hch ▸ List.mem_append_right _ List.mem_cons_self
  simp only []
  rw [Program.wp_bind]
  refine wp_fetch_quiet (hserve.mono (Nat.zero_le 1)) (hev.ok.ids id hid).1 hq ?_
  simp only [if_true]
  rw [Program.wp_bind]
  refine wp_read_held hq fun p hp => ?_
  cases hins : p.insertRecord a with
  | mk slot p' =>
    cases slot with
    | some slotId =>
      refine hev.ok.finishInsert hid hq hp hins fun u hev' hu hsame => ?_
      refine hQ _ u id (hev.trans hev') ?_ (fun _ => fit_of_inserted hp hql (by rw [hins]))
        (hsame.trans hch)
      rw [Inserts, ← hst, ← hcount]
      exact hu
    | none =>
      simp only []
      rw [Program.wp_bind]
      have hunfit := unfit_of_refused_new hp hqn (by rw [hins])
      exact wp_unpin_held (by simp) (hQ {} t id hev (.inl ⟨rfl, hunfit, hst, hcount⟩)
        (fun hvalid => absurd hvalid (by decide)) hch)

/-- What an insertion does to the chain.  A record that was stored went to a listed page with room,
or, if there is none, to a new one.  An argument that names no bytes is refused at once; a record
that fits on no page is refused after a page was added for it. -/
structure Searches (s t : HeapState) (a : RecordArg) (rid : RID) : Prop where
  fit : rid.isValid = true → ¬ Unfit a
  stored : rid.isValid = true →
    (∃ id ∈ s.heap.pagesWithSpace, s.HasRoom a.length id) ∧ t.chain = s.chain ∨
      (∀ id ∈ s.heap.pagesWithSpace, ¬ s.HasRoom a.length id) ∧ ∃ id, t.chain = s.chain ++ [id]
  empty : (∀ r, a = .data r → r.length = 0) → t = s
  unfit : ∀ r, a = .data r → r.length ≠ 0 → rid = {} →
    ∃ ids, ids ≠ [] ∧ ids.length ≤ 2 ∧ t.chain = s.chain ++ ids

/-- **InsertRecord.** -/
theorem Ok.insertRecord (h : s.Ok) (hserve : mode.Serves n 1) (a : RecordArg)
    (hnew : ∀ t, s.Evolves t → mode.Creates n t.pages) {Q : RID × HeapFile → View → Prop}
    (hQ : ∀ (rid : RID) (t : HeapState), s.Extends t → s.Inserts t a rid → s.Searches t a rid →
      Q (rid, t.heap) (View.quiet n t.pages)) :
    (s.heap.insertRecord a).wp mode Q (View.quiet n s.pages) := by
  -- an argument that names no bytes is refused before a page is looked at
  have hempty : (∀ r, a = .data r → r.length = 0) → Q ({}, s.heap) (View.quiet n s.pages) := by
    intro ha
    refine hQ {} s h.extends (.inl ⟨rfl, fun r hr => .inl (ha r hr), rfl, rfl⟩)
      ⟨fun hvalid => absurd hvalid (by decide), fun hvalid => absurd hvalid (by decide),
        fun _ => rfl, fun r hr hne => ?_⟩
    exact absurd (ha r hr) hne
  unfold HeapFile.insertRecord
  cases a with
  | null k => exact hempty fun r hr => absurd hr (by simp)
  | data r =>
    by_cases h0 : r.length = 0
    · simp only [h0, if_true]
      refine hempty fun r' hr => ?_
      obtain rfl := RecordArg.data.inj hr
      exact h0
    · simp only [h0, if_false]
      have hsome : ¬ ∀ r', RecordArg.data r = .data r' → r'.length = 0 := fun hall =>
        h0 (hall r rfl)
      rw [wp, Program.wp_bind]
      refine h.findPageWithSpace hserve (fun _ => hnew s h.evolves)
        fun id t hev hst hcount hid hfound => ?_
      -- finding a page stores nothing, so what is inserted afterwards is inserted into `s`
      have hlift : ∀ u rid, t.Inserts u (.data r) rid → s.Inserts u (.data r) rid := by
        intro u rid hu
        rw [Inserts, ← hst, ← hcount]
        exact hu
      simp only []
      rw [Program.wp_bind]
      refine hev.ok.fetch (hserve.mono (Nat.zero_le 1)) hid fun q hq hql => ?_
      simp only [if_true]
      rw [Program.wp_bind]
      refine wp_read_held hq fun p hp => ?_
      cases hins : p.insertRecord (.data r) with
      | mk slot p' =>
        cases slot with
        -- the page took the record: it was listed with room, or there is a new one
        | some slotId =>
          refine hev.ok.finishInsert hid hq hp hins fun u hev' hu hsame => ?_
          have hvalid : (⟨id, slotId⟩ : RID).isValid = true := isValid_of_mem hev.ok hid slotId
          refine hQ _ u (hev.trans hev') (hlift u _ hu)
            ⟨fun _ => fit_of_inserted hp hql (by rw [hins]), fun _ => ?_,
              fun hall => absurd hall hsome, fun _ _ _ he => absurd (he ▸ hvalid) (by decide)⟩
          rw [hsame]
          rcases hfound with ⟨hch, -, hlisted, hroom⟩ | ⟨hch, hno, -⟩
          · exact .inl ⟨⟨id, hlisted, hroom⟩, hch⟩
          · exact .inr ⟨hno, id, hch⟩
        | none =>
          simp only []
          rw [Program.wp_bind]
          refine wp_unpin_held (by simp) ?_
          -- the page that was found has refused the record, so a new one will
          have hunfit : Unfit (.data r) := by
            rcases hfound with ⟨-, hpages, -, q₁, hq₁, hroom⟩ | ⟨-, -, -, q₁, hq₁, hfresh, -⟩
            · rw [hpages] at hq
              obtain rfl := Option.some.inj (hq.symm.trans hq₁)
              exact unfit_of_refused_room hp hql hroom (by rw [hins])
            · obtain rfl := Option.some.inj (hq.symm.trans hq₁)
              exact unfit_of_refused_new hp hfresh (by rw [hins])
          refine hev.ok.insertOnNewPage hserve (hnew t hev.toEvolves) _
            fun rid u id' hev' hu hfit hch' => ?_
          refine hQ rid u (hev.trans hev') (hlift u rid hu)
            ⟨hfit, fun hvalid => absurd hunfit (hfit hvalid), fun hall => absurd hall hsome,
              fun _ _ _ _ => ?_⟩
          · rcases hfound with ⟨hch, -⟩ | ⟨hch, -⟩
            · exact ⟨[id'], by simp, by simp, by rw [hch', hch]⟩
            · exact ⟨[id, id'], by simp, by simp, by rw [hch', hch]; simp⟩

/-! ## 3. Deleting and reading a record

A record id of this heap file names a slot of a page of the chain, whether or not the slot is live.
`DeleteRecord` of a slot that is empty answers false and changes nothing. -/

/-- What a deletion may answer and do. -/
def Deletes (s t : HeapState) (rid : RID) (deleted : Bool) : Prop :=
  deleted = (s.stored rid).isSome ∧ t.stored = Function.update s.stored rid none ∧
    t.heap.recordCount = if deleted then s.heap.recordCount - 1 else s.heap.recordCount

/-- The page of a deleted record has a tombstone, and is listed. -/
def Tombstones (s t : HeapState) (rid : RID) : Prop :=
  ∃ q p p' : Page, s.pages rid.pageId = some q ∧ p.SameContent q ∧
    p.deleteRecord rid.slotId = (true, p') ∧
    t.pages = Function.update s.pages rid.pageId (some p') ∧
    t.heap.pagesWithSpace = if rid.pageId ∈ s.heap.pagesWithSpace then s.heap.pagesWithSpace
      else s.heap.pagesWithSpace ++ [rid.pageId]

/-- **DeleteRecord**, on a record id of this heap file or an invalid one. -/
theorem Ok.deleteRecord (h : s.Ok) (hserve : mode.Serves n 0) {rid : RID}
    (hrid : rid.isValid = true → rid.pageId ∈ s.chain) {Q : Bool × HeapFile → View → Prop}
    (hQ : ∀ (deleted : Bool) (t : HeapState), s.Extends t → s.Deletes t rid deleted →
      t.chain = s.chain → (deleted = true → s.Tombstones t rid) →
      Q (deleted, t.heap) (View.quiet n t.pages)) :
    (s.heap.deleteRecord rid).wp mode Q (View.quiet n s.pages) := by
  -- a refused deletion changes nothing
  have hrefuse : s.stored rid = none → Q (false, s.heap) (View.quiet n s.pages) := by
    intro hnone
    refine hQ false s h.extends ⟨by rw [hnone]; rfl, ?_, rfl⟩ rfl (fun hd => absurd hd (by decide))
    rw [eq_comm, Function.update_eq_self_iff]
    exact hnone.symm
  unfold HeapFile.deleteRecord
  by_cases hvalid : rid.isValid = true
  · rw [if_pos hvalid]
    have hid := hrid hvalid
    rw [wp, Program.wp_bind]
    refine h.fetch hserve hid fun q hq hql => ?_
    simp only [if_true]
    rw [Program.wp_bind]
    refine wp_read_held hq fun p hp => ?_
    have hpl : p.Layout := hp.symm.layout hql
    obtain ⟨hres, -, hlay, hstore⟩ := hpl.deleteRecord_store rid.slotId
    have hnext := Page.deleteRecord_next (p := p) rid.slotId
    have hstored : s.stored rid = p.store rid.slotId := by
      rw [stored, if_pos hid, hq, Option.bind_some, hp.store hpl]
    cases hdel : p.deleteRecord rid.slotId with
    | mk deleted p' =>
      rw [hdel] at hres hlay hstore hnext
      cases deleted with
      -- the slot was live: it is emptied, the record counted off, and the page listed
      | true =>
        simp only []
        rw [Program.wp_bind]
        refine wp_write_held hq hlay.directoryFits ?_
        rw [Program.wp_bind]
        refine wp_unpin_held (fun _ => rfl) ?_
        have hev := h.setPage hid hq hlay (hnext.trans hp.getNextPageId)
        have hev' := hev.ok.withHeap
          { s.heap with
            recordCount := s.heap.recordCount - 1
            pagesWithSpace :=
              if rid.pageId ∈ s.heap.pagesWithSpace then s.heap.pagesWithSpace
              else s.heap.pagesWithSpace ++ [rid.pageId] } rfl rfl (fun i hi => by
            simp only [] at hi
            split at hi
            · exact h.listed i hi
            · rcases List.mem_append.mp hi with hi | hi
              · exact h.listed i hi
              · exact List.mem_singleton.mp hi ▸ hid)
        refine hQ true _ ((hev.trans hev').extends rfl rfl) ⟨?_, ?_, rfl⟩ rfl
          fun _ => ⟨q, p, p', hq, hp, hdel, rfl, rfl⟩
        · rw [hstored]
          exact hres
        · rw [hp.store hpl] at hstore
          exact stored_setPage hid hq hstore
      -- the slot was empty
      | false =>
        simp only []
        rw [Program.wp_bind]
        refine wp_unpin_held (by simp) (hrefuse ?_)
        rw [hstored]
        simpa using hres.symm
  · -- the record id names no page
    rw [if_neg hvalid]
    refine hrefuse ?_
    rw [stored, if_neg]
    intro hid
    exact hvalid (isValid_of_mem h hid rid.slotId)

/-- **GetRecord**, by a caller that gives the page back. -/
theorem Ok.readRecord (h : s.Ok) (hserve : mode.Serves n 0) {rid : RID}
    (hrid : rid.pageId ∉ s.chain → s.pages rid.pageId = none)
    (h0 : rid.pageId ≠ 0) {Q : Option (List UInt8) → View → Prop}
    (hQ : Q (s.stored rid) (View.quiet n s.pages)) :
    (HeapFile.readRecord rid).wp mode Q (View.quiet n s.pages) := by
  unfold HeapFile.readRecord HeapFile.getRecord
  rw [wp, Program.wp_bind]
  by_cases hid : rid.pageId ∈ s.chain
  · rw [if_pos (isValid_of_mem h hid rid.slotId), Program.wp_bind]
    refine h.fetch hserve hid fun q hq hql => ?_
    simp only [if_true]
    rw [Program.wp_bind]
    refine wp_read_held hq fun p hp => ?_
    have hpl : p.Layout := hp.symm.layout hql
    have hstored : s.stored rid = p.getRecord rid.slotId := by
      rw [stored, if_pos hid, hq, Option.bind_some, ← hp.store hpl]
      rfl
    rw [hstored] at hQ
    cases hrec : p.getRecord rid.slotId with
    | some data =>
      rw [hrec] at hQ
      simp only [Program.wp_pure]
      rw [Program.wp_bind]
      exact wp_unpin_held (by simp) hQ
    | none =>
      rw [hrec] at hQ
      simp only []
      rw [Program.wp_bind]
      exact wp_unpin_held (by simp) hQ
  · have hnone : s.stored rid = none := by rw [stored, if_neg hid]
    rw [hnone] at hQ
    split
    · rw [Program.wp_bind]
      exact wp_fetchPage_none h0 (hrid hid) hQ
    · exact hQ

/-! ## 4. Bulk insertion

The loop keeps its page pinned and goes on with it as long as it takes the records.  What is stored
in the end is what single insertions would have stored, in the sense that each record has one of the
answers that an insertion may give (`InsertsAll`); the places may differ. -/

/-- One insertion after the other, with the record ids answered. -/
inductive InsertsAll : HeapState → HeapState → List RecordArg → List RID → Prop
  | nil {s t : HeapState} (hst : t.stored = s.stored)
      (hcount : t.heap.recordCount = s.heap.recordCount) : InsertsAll s t [] []
  | cons {s u t : HeapState} {a : RecordArg} {rid : RID} {records : List RecordArg}
      {rids : List RID} (h : s.Inserts u a rid) (hsub : u.chain ⊆ t.chain)
      (hrest : InsertsAll u t records rids) : InsertsAll s t (a :: records) (rid :: rids)

/-- No record id was answered for an argument that fits on no page. -/
def OnlyFit (records : List RecordArg) (rids : List RID) : Prop :=
  List.Forall₂ (fun a rid => rid.isValid = true → ¬ Unfit a) records rids

/-- A step that stores nothing can come first. -/
theorem InsertsAll.after {records : List RecordArg} {rids : List RID}
    (h : InsertsAll t u records rids) (hst : t.stored = s.stored)
    (hcount : t.heap.recordCount = s.heap.recordCount) : InsertsAll s u records rids := by
  cases h with
  | nil hst' hcount' => exact .nil (hst'.trans hst) (hcount'.trans hcount)
  | cons h hsub hrest =>
    refine .cons ?_ hsub hrest
    rw [Inserts, ← hst, ← hcount]
    exact h

/-- What an insertion has done can be told from the stored records and the counter. -/
theorem InsertsAll.congr_end {records : List RecordArg} {rids : List RID}
    (h : InsertsAll s t records rids) (hst : u.stored = t.stored)
    (hcount : u.heap.recordCount = t.heap.recordCount) (hsub : t.chain ⊆ u.chain) :
    InsertsAll s u records rids := by
  induction h with
  | nil hst' hcount' => exact .nil (hst.trans hst') (hcount.trans hcount')
  | cons h hsub' hrest ih => exact .cons h (List.Subset.trans hsub' hsub) (ih hst hcount hsub)

/-- A stored record lies on a page of the chain. -/
theorem mem_chain_of_stored {rid : RID} (h : (s.stored rid).isSome) : rid.pageId ∈ s.chain := by
  by_contra hno
  rw [stored, if_neg hno] at h
  exact absurd h (by simp)

/-- A stored record fits into a page. -/
theorem Ok.stored_length_le (h : s.Ok) {rid : RID} {bytes : List UInt8}
    (hst : s.stored rid = some bytes) : bytes.length ≤ 4072 := by
  have hid := mem_chain_of_stored (Option.isSome_of_eq_some hst)
  obtain ⟨q, hq, hql⟩ := h.layout _ hid
  rw [stored, if_pos hid, hq, Option.bind_some] at hst
  exact hql.store_length_le hst

theorem Inserts.mem_chain {a : RecordArg} {rid : RID} (h : s.Inserts t a rid)
    (hvalid : rid.isValid = true) : rid.pageId ∈ t.chain := by
  rcases h with ⟨rfl, -, -, -⟩ | ⟨r, -, -, -, hst, -⟩
  · exact absurd hvalid (by decide)
  · refine mem_chain_of_stored ?_
    rw [hst, Function.update_self]
    rfl

/-- The valid record ids that are returned are on pages of the file. -/
theorem InsertsAll.mem_chain {records : List RecordArg} {rids : List RID}
    (h : InsertsAll s t records rids) :
    ∀ rid ∈ rids, rid.isValid = true → rid.pageId ∈ t.chain := by
  induction h with
  | nil => exact fun _ hrid => absurd hrid List.not_mem_nil
  | cons h hsub hrest ih =>
    intro rid hrid hvalid
    rcases List.mem_cons.mp hrid with rfl | hrid
    · exact hsub (h.mem_chain hvalid)
    · exact ih rid hrid hvalid

/-- A page that is held takes a record. -/
theorem Ok.insertHeld (h : s.Ok) {id : PageId} {q p : Page} {a : RecordArg} {slotId : UInt16}
    {p' : Page} {c : Bool} (hid : id ∈ s.chain) (hq : s.pages id = some q) (hp : p.SameContent q)
    (hins : p.insertRecord a = (some slotId, p')) {Q : Unit → View → Prop}
    (hQ : ∀ t : HeapState, s.Extends t → s.Inserts t a ⟨id, slotId⟩ → id ∈ t.chain →
      t.heap = { s.heap with recordCount := s.heap.recordCount + 1 } →
      Q () (View.held n t.pages id true)) :
    (writePage id p').wp mode Q (View.held n s.pages id c) := by
  obtain ⟨hev, hfits, r, ha, hfree, hst⟩ := h.insertOn hid hq hp hins
  refine wp_write_held hq hfits ?_
  have hev' := hev.ok.withHeap
    { s.heap with recordCount := s.heap.recordCount + 1 } rfl rfl h.listed
  exact hQ _ ((hev.trans hev').extends rfl rfl)
    (.inr ⟨r, ha, isValid_of_mem h hid slotId, hfree, hst, rfl⟩) hid rfl

/-- **The loop of BulkInsert.**  Between two records it holds one page of the chain. -/
theorem Ok.bulkInsertLoop (h : s.Ok) (hserve : mode.Serves n 1)
    (hnew : ∀ t, s.Evolves t → mode.Creates n t.pages) (records : List RecordArg) {id : PageId}
    {c : Bool} (hid : id ∈ s.chain) (rids : List RID)
    {Q : Option (List RID × HeapFile × Option PageId) → View → Prop}
    (hQ : ∀ (id' : PageId) (c' : Bool) (rids' : List RID) (t : HeapState), s.Extends t →
      id' ∈ t.chain → InsertsAll s t records rids' → OnlyFit records rids' →
      Q (some (rids ++ rids', t.heap, some id')) (View.held n t.pages id' c')) :
    (HeapFile.bulkInsertLoop records s.heap (some id) rids).wp mode Q
      (View.held n s.pages id c) := by
  induction records generalizing s id c rids with
  | nil =>
    have := hQ id c [] s h.extends hid (.nil rfl rfl) .nil
    rw [List.append_nil] at this
    exact this
  | cons a records ih =>
    -- a record that was stored, and the rest of the loop on the page it was stored in
    have hnext : ∀ (t u : HeapState) (i : PageId) (d : Bool) (rid : RID), s.Extends u →
        t.Inserts u a rid → t.stored = s.stored → t.heap.recordCount = s.heap.recordCount →
        i ∈ u.chain → (rid.isValid = true → ¬ Unfit a) →
          (HeapFile.bulkInsertLoop records u.heap (some i) (rids ++ [rid])).wp mode Q
          (View.held n u.pages i d) := by
      intro t u i d rid hev hins hst hcount hi hfit
      refine ih hev.ok (fun v hv => hnew v (hev.toEvolves.trans hv)) hi (rids ++ [rid])
        fun id' c' rids' v hv hid' hall hfits => ?_
      rw [List.append_assoc]
      refine hQ id' c' (rid :: rids') v (hev.trans hv) hid' (.cons ?_ hv.grows.subset hall)
        (.cons hfit hfits)
      rw [Inserts, ← hst, ← hcount]
      exact hins
    obtain ⟨q, hq, hql⟩ := h.layout id hid
    unfold HeapFile.bulkInsertLoop
    rw [wp, Program.wp_bind]
    refine wp_read_held hq fun p hp => ?_
    cases hins : p.insertRecord a with
    | mk slot p' =>
      cases slot with
      -- the page that is held took the record
      | some slotId =>
        simp only []
        rw [Program.wp_bind]
        refine h.insertHeld hid hq hp hins fun t hev hst hid' ht => ?_
        rw [← ht]
        exact hnext s t id true _ hev hst rfl rfl hid' fun _ =>
          fit_of_inserted hp hql (by rw [hins])
      -- it refused, and is taken off the list and given back; another page is found
      | none =>
        simp only []
        rw [Program.wp_bind]
        refine wp_unpin_held (fun _ => rfl) ?_
        rw [Program.wp_bind]
        have hev₀ := h.withHeap
          { s.heap with pagesWithSpace := s.heap.pagesWithSpace.erase id } rfl rfl
          fun i hi => h.listed i (List.mem_of_mem_erase hi)
        refine hev₀.ok.findPageWithSpace hserve (fun _ => hnew _ hev₀)
          fun id' t hev hst hcount hid' hfound => ?_
        have hevt := (hev₀.extends rfl rfl).trans hev
        simp only []
        rw [Program.wp_bind]
        refine hev.ok.fetch (hserve.mono (Nat.zero_le 1)) hid' fun q' hq' hql' => ?_
        simp only [if_true]
        rw [Program.wp_bind]
        refine wp_read_held hq' fun p₂ hp₂ => ?_
        cases hins' : p₂.insertRecord a with
        | mk slot p₃ =>
          cases slot with
          -- the other page took the record
          | some slotId =>
            simp only []
            rw [Program.wp_bind]
            refine hev.ok.insertHeld hid' hq' hp₂ hins' fun u hev' hst' hu htu => ?_
            rw [← htu]
            exact hnext t u id' true _ (hevt.trans hev') hst' hst hcount hu
              fun _ => fit_of_inserted hp₂ hql' (by rw [hins'])
          -- it refused too, so the record fits on no page; the loop goes on with that page
          | none =>
            simp only []
            have hunfit : Unfit a := by
              rcases hfound with ⟨-, hpages, -, q₁, hq₁, hroom⟩ | ⟨-, -, -, q₁, hq₁, hnew', -⟩
              · rw [hpages] at hq'
                obtain rfl := Option.some.inj (hq'.symm.trans hq₁)
                exact unfit_of_refused_room hp₂ hql' hroom (by rw [hins'])
              · obtain rfl := Option.some.inj (hq'.symm.trans hq₁)
                exact unfit_of_refused_new hp₂ hnew' (by rw [hins'])
            exact hnext t t id' false {} hevt (.inl ⟨rfl, hunfit, rfl, rfl⟩) hst hcount hid'
              fun hvalid => absurd hvalid (by decide)

/-- **BulkInsert** stores the records one after the other. -/
theorem Ok.bulkInsert (h : s.Ok) (hserve : mode.Serves n 1)
    (hnew : ∀ t, s.Evolves t → mode.Creates n t.pages) (records : List RecordArg)
    {Q : Option (List RID × HeapFile) → View → Prop}
    (hQ : ∀ (rids : List RID) (t : HeapState), s.Extends t → InsertsAll s t records rids →
      OnlyFit records rids → Q (some (rids, t.heap)) (View.quiet n t.pages)) :
    (s.heap.bulkInsert records).wp mode Q (View.quiet n s.pages) := by
  unfold HeapFile.bulkInsert
  rw [wp, Program.wp_bind]
  refine h.findPageWithSpace hserve (fun _ => hnew s h.evolves)
    fun id t hev hst hcount hid _ => ?_
  simp only []
  rw [Program.wp_bind]
  refine hev.ok.fetch (hserve.mono (Nat.zero_le 1)) hid fun q hq hql => ?_
  simp only [if_true]
  rw [Program.wp_bind]
  refine hev.ok.bulkInsertLoop hserve (fun u hu => hnew u (hev.toEvolves.trans hu)) records hid []
    fun id' c rids u hev' hid' hall hfits => ?_
  obtain ⟨q', hq', -⟩ := hev'.ok.layout id' hid'
  simp only [List.nil_append]
  rw [Program.wp_bind]
  refine wp_read_held hq' fun p hp => ?_
  rw [Program.wp_bind]
  refine wp_unpin_held (fun _ => rfl) ?_
  obtain ⟨h1, h2, h3, h4, h5⟩ := trackSpace_fields u.heap id' p
  have hev'' := hev'.ok.withHeap (u.heap.trackSpace id' p) h1 h2
    fun i hi => hev'.ok.listed i (h4 i hi)
  exact hQ rids _ (hev.trans (hev'.trans (hev''.extends rfl h5)))
    ((hall.after hst hcount).congr_end rfl h3 (List.Subset.refl _)) hfits

/-- **One InsertRecord after the other.** -/
theorem Ok.insertEach (h : s.Ok) (hserve : mode.Serves n 1)
    (hnew : ∀ t, s.Evolves t → mode.Creates n t.pages) (records : List RecordArg)
    (rids : List RID) {Q : List RID × HeapFile → View → Prop}
    (hQ : ∀ (rids' : List RID) (t : HeapState), s.Extends t → InsertsAll s t records rids' →
      OnlyFit records rids' → Q (rids ++ rids', t.heap) (View.quiet n t.pages)) :
    (HeapFile.insertEach records s.heap rids).wp mode Q (View.quiet n s.pages) := by
  induction records generalizing s rids with
  | nil =>
    have hend := hQ [] s h.extends (.nil rfl rfl) .nil
    rw [List.append_nil] at hend
    exact hend
  | cons a records ih =>
    unfold HeapFile.insertEach
    rw [wp, Program.wp_bind]
    refine h.insertRecord hserve a hnew fun rid t hext hins hsea => ?_
    refine ih hext.ok (fun u hu => hnew u (hext.toEvolves.trans hu)) (rids ++ [rid])
      fun rids' u hext' hall hfits => ?_
    rw [List.append_assoc]
    exact hQ (rid :: rids') u (hext.trans hext') (.cons hins hext'.grows.subset hall)
      (.cons hsea.fit hfits)

/-- **The constructor** makes a heap file of one empty page. -/
theorem create (m : PageId → Option Page) (hserve : mode.Serves n 1) (hnew : mode.Creates n m)
    {Q : HeapFile → View → Prop}
    (hQ : ∀ t : HeapState, t.Ok → t.chain.head? = some t.heap.firstPageId →
      (∀ id ∈ t.chain, m id = none) → (∀ id, id ∉ t.chain → t.pages id = m id) →
      (t.stored = fun _ => none) → t.heap.recordCount = 0 →
      t.heap.pageCount = 1 ∧ t.chain.length = 1 → Q t.heap (View.quiet n t.pages)) :
    HeapFile.create.wp mode Q (View.quiet n m) := by
  have hempty : (⟨⟨invalidPageId, invalidPageId, 0, 0, []⟩, m, []⟩ : HeapState).Ok :=
    ⟨List.nodup_nil, rfl, rfl, by simp, by simp, by simp⟩
  unfold HeapFile.create
  rw [wp, Program.wp_bind]
  refine hempty.allocateNewPage hserve hnew fun id t hap => ?_
  obtain ⟨hev, hst, hcount, hch, -, -⟩ := hap
  have hch' : t.chain = [id] := hch
  have hlast : t.heap.lastPageId = id := by rw [← hev.ok.last, hch']; rfl
  have hone : t.heap.pageCount = 1 := by
    have hc := hev.counted
    rw [hch'] at hc
    simpa using hc
  refine hQ { t with heap := { t.heap with firstPageId := id, lastPageId := id } } ?_ ?_ ?_ ?_ ?_ ?_
    ⟨hone, congrArg List.length hch'⟩
  · obtain ⟨h1, h2, h3, h4, h5, h6⟩ := hev.ok
    exact ⟨h1, h2, h3.trans hlast, h4, h5, h6⟩
  · change t.chain.head? = some id
    rw [hch']
    rfl
  · intro i hi
    exact hev.fresh i hi (by simp)
  · exact hev.frame
  · change t.stored = _
    rw [hst]
    funext rid
    simp [stored]
  · exact hcount

end HeapState

end CourtDB
