/-
# The page chain of a heap file

What a heap file relies on between two of its calls: its pages form a chain that their
`next_page_id` fields link in order and that ends at `last_page_id_`, each of them is a slotted
page, and the directory lists none but these.  `HeapState` joins the heap file with the pages of
the database and that chain, and `Ok` is the invariant.

A heap file changes in two ways only.  It changes a page of its chain (`Ok.setPage`), or it
puts a new one at the end (`Ok.append`); both leave the pages of others alone (`Evolves`).  What
the state means is `stored`, the record behind each record id.
-/
import CourtDB.Heap.HeapFile
import CourtDB.Lib.Segment
import CourtDB.Storage.PageStore

namespace CourtDB

/-! ## 1. Links and records of a page -/

namespace Page

variable {p : Page}

theorem SameContent.getNextPageId {q : Page} (h : SameContent p q) :
    p.getNextPageId = q.getNextPageId := congrArg PageHeader.nextPageId h.header

/-- Inserting a record does not touch the link. -/
theorem insertRecord_next (a : RecordArg) :
    (p.insertRecord a).2.getNextPageId = p.getNextPageId := by
  rcases insertRecord_cases p a with hno | ⟨r, -, -, -, hr⟩
  · rw [hno]
  · rw [hr]
    exact placeRecord_links.2.1

/-- Deleting a record does not touch the link. -/
theorem deleteRecord_next (slotId : UInt16) :
    (p.deleteRecord slotId).2.getNextPageId = p.getNextPageId := by
  unfold deleteRecord
  split
  · rfl
  · split <;> rfl

/-- A changed link, or changed flags, leave the layout and the records as they are. -/
theorem Layout.of_fields {q : Page} (h : p.Layout) (hd : q.data = p.data) (hs : q.slots = p.slots)
    (hh : q.header = { p.header with nextPageId := q.header.nextPageId, flags := q.header.flags }) :
    q.Layout ∧ q.store = p.store := by
  have hlive : ∀ i s, q.LiveAt i s ↔ p.LiveAt i s := fun i s => by unfold LiveAt; rw [hs]
  have hlay : q.Layout := by
    constructor
    · rw [hs, hh]; exact h.slots_length
    · rw [hh]; exact h.offset_eq
    · rw [hh]; exact h.offset_le
    · rw [hh]; exact h.end_le
    · intro i s hi
      rw [hh]
      exact h.mem_range i s ((hlive i s).mp hi)
    · intro i j s t hij hi hj
      exact h.disjoint i j s t hij ((hlive i s).mp hi) ((hlive j t).mp hj)
    · rw [hs, hh]; exact h.count
  refine ⟨hlay, funext fun s => ?_⟩
  rw [hlay.store_apply, h.store_apply]
  exact recordAt_congr (hlive _) fun _ _ => by rw [hd]

theorem SameContent.store {q : Page} (h : SameContent p q) (hp : p.Layout) :
    p.store = q.store := funext fun s => h.getRecord hp s

/-- No record of a slotted page has more than 4072 bytes. -/
theorem Layout.length_le (h : p.Layout) {i : Nat} {s : SlotEntry} (hs : p.LiveAt i s) :
    p.header.freeSpaceOffset.toNat + s.length.toNat ≤ pageSize ∧ s.length.toNat ≤ 4072 := by
  have h1 := h.mem_range i s hs
  have h2 := h.offset_eq
  have h3 := h.offset_le
  have h4 := hs.lt
  have h5 := h.slots_length
  simp only [pageSize] at *
  omega

theorem Layout.store_length_le (h : p.Layout) {slotId : UInt16} {bytes : List UInt8}
    (hst : p.store slotId = some bytes) : bytes.length ≤ 4072 := by
  rw [h.store_apply] at hst
  obtain ⟨s, hs⟩ := recordAt_isSome_iff.mp (Option.isSome_of_eq_some hst)
  rw [recordAt_of_liveAt hs] at hst
  rw [← Option.some.inj hst, Bytes.Buf.length_read]
  exact (h.length_le hs).2

/-- A data page as `AllocateNewPage` leaves it. -/
def IsNew (q : Page) (id : PageId) : Prop :=
  q.slots = [] ∧ q.header = { (ofId id).header with flags := dataPageFlag }

end Page

/-! ## 2. States -/

/-- The page that a page links to. -/
def linkOf (m : PageId → Option Page) (id : PageId) : Option PageId :=
  (m id).map Page.getNextPageId

/-- A heap file, the pages of the database, and the heap file's pages in order. -/
structure HeapState where
  heap : HeapFile
  pages : PageId → Option Page
  chain : List PageId

namespace HeapState

/-- The record behind a record id. -/
def stored (s : HeapState) (rid : RID) : Option (List UInt8) :=
  if rid.pageId ∈ s.chain then (s.pages rid.pageId).bind fun q => q.store rid.slotId else none

/-- **The invariant of a heap file.** -/
structure Ok (s : HeapState) : Prop where
  nodup : s.chain.Nodup
  linked : Segment (linkOf s.pages) (s.chain.head?.getD invalidPageId) s.chain invalidPageId
  last : s.chain.getLast?.getD invalidPageId = s.heap.lastPageId
  layout : ∀ id ∈ s.chain, ∃ q, s.pages id = some q ∧ q.Layout
  ids : ∀ id ∈ s.chain, id ≠ 0 ∧ id ≠ invalidPageId
  listed : ∀ id ∈ s.heap.pagesWithSpace, id ∈ s.chain

/-- What a step of a heap file leaves alone: its first page, the order of its pages, and every
page of others. -/
structure Evolves (s t : HeapState) : Prop where
  ok : t.Ok
  first : t.heap.firstPageId = s.heap.firstPageId
  grows : s.chain <+: t.chain
  fresh : ∀ id ∈ t.chain, id ∉ s.chain → s.pages id = none
  frame : ∀ id, id ∉ t.chain → t.pages id = s.pages id

variable {s t u : HeapState}

theorem Ok.evolves (h : s.Ok) : s.Evolves s :=
  ⟨h, rfl, List.prefix_rfl, fun _ hid hno => absurd hid hno, fun _ _ => rfl⟩

theorem Evolves.trans (h : s.Evolves t) (h' : t.Evolves u) : s.Evolves u where
  ok := h'.ok
  first := h'.first.trans h.first
  grows := h.grows.trans h'.grows
  fresh id hid hno := by
    by_cases ht : id ∈ t.chain
    · exact h.fresh id ht hno
    · rw [← h.frame id ht]
      exact h'.fresh id hid ht
  frame id hid := by
    have ht : id ∉ t.chain := fun hmem => hid (h'.grows.subset hmem)
    rw [h'.frame id hid, h.frame id ht]

/-- A chain that has a first page keeps it. -/
theorem Evolves.head? (h : s.Evolves t) (hfirst : s.chain.head? = some s.heap.firstPageId) :
    t.chain.head? = some t.heap.firstPageId := by
  obtain ⟨l, hl⟩ := h.grows
  rw [h.first, ← hfirst, ← hl]
  refine List.head?_append_of_ne_nil _ fun hnil => ?_
  rw [hnil] at hfirst
  exact absurd hfirst (by simp)

/-- The page counter keeps pace with the chain. -/
structure Extends (s t : HeapState) : Prop extends s.Evolves t where
  counted : t.heap.pageCount + UInt32.ofNat s.chain.length
    = s.heap.pageCount + UInt32.ofNat t.chain.length

/-- No page was added. -/
theorem Evolves.extends (h : s.Evolves t) (hchain : t.chain = s.chain)
    (hcount : t.heap.pageCount = s.heap.pageCount) : s.Extends t :=
  ⟨h, by rw [hchain, hcount]⟩

/-- One page was added. -/
theorem Evolves.extends_append (h : s.Evolves t) {id : PageId} (hchain : t.chain = s.chain ++ [id])
    (hcount : t.heap.pageCount = s.heap.pageCount + 1) : s.Extends t := by
  refine ⟨h, ?_⟩
  rw [hchain, hcount, List.length_append, List.length_singleton, UInt32.ofNat_add]
  grind

theorem Ok.extends (h : s.Ok) : s.Extends s := h.evolves.extends rfl rfl

theorem Extends.trans (h : s.Extends t) (h' : t.Extends u) : s.Extends u := by
  refine ⟨h.toEvolves.trans h'.toEvolves, ?_⟩
  have h1 := h.counted
  have h2 := h'.counted
  grind

/-- Counters and directory can change without the pages. -/
theorem Ok.withHeap (h : s.Ok) (heap : HeapFile) (hfirst : heap.firstPageId = s.heap.firstPageId)
    (hlast : heap.lastPageId = s.heap.lastPageId)
    (hlisted : ∀ id ∈ heap.pagesWithSpace, id ∈ s.chain) :
    s.Evolves { s with heap := heap } where
  ok := ⟨h.nodup, h.linked, h.last.trans hlast.symm, h.layout, h.ids, hlisted⟩
  first := hfirst
  grows := List.prefix_rfl
  fresh _ hid hno := absurd hid hno
  frame _ _ := rfl

/-- Pages outside the chain do not matter. -/
theorem Ok.congr_pages (h : s.Ok) {pages : PageId → Option Page}
    (hpages : ∀ id ∈ s.chain, pages id = s.pages id) :
    ({ s with pages := pages } : HeapState).Ok ∧
      ({ s with pages := pages } : HeapState).stored = s.stored := by
  refine ⟨⟨h.nodup, ?_, h.last, fun id hid => ?_, h.ids, h.listed⟩, funext fun rid => ?_⟩
  · refine h.linked.congr fun id hid => ?_
    simp only [linkOf, hpages id hid]
  · simp only [hpages id hid]
    exact h.layout id hid
  · simp only [stored]
    split
    · rename_i hmem
      rw [hpages _ hmem]
    · rfl

/-! ## 3. Changing a page -/

/-- The state with page `id` replaced. -/
def setPage (s : HeapState) (id : PageId) (p : Page) : HeapState :=
  { s with pages := Function.update s.pages id (some p) }

theorem setPage_pages (s : HeapState) (id : PageId) (p : Page) (i : PageId) :
    (s.setPage id p).pages i = if i = id then some p else s.pages i := Function.update_apply ..

/-- **A page of the chain is changed**: its link stays. -/
theorem Ok.setPage (h : s.Ok) {id : PageId} {q p : Page} (hid : id ∈ s.chain)
    (hq : s.pages id = some q) (hp : p.Layout) (hnext : p.getNextPageId = q.getNextPageId) :
    s.Evolves (s.setPage id p) where
  ok := by
    refine ⟨h.nodup, ?_, h.last, fun i hi => ?_, h.ids, h.listed⟩
    · refine h.linked.congr fun i _ => ?_
      rw [linkOf, linkOf, setPage_pages]
      split
      · rename_i he
        rw [he, hq, Option.map_some, Option.map_some, hnext]
      · rfl
    · rw [setPage_pages]
      split
      · exact ⟨p, rfl, hp⟩
      · exact h.layout i hi
  first := rfl
  grows := List.prefix_rfl
  fresh _ hi hno := absurd hi hno
  frame i hi := by
    have hne : i ≠ id := fun he => hi (he ▸ hid)
    rw [setPage_pages, if_neg hne]

/-- Only the record ids of that page are concerned. -/
theorem stored_setPage {id : PageId} {p q : Page} {slotId : UInt16} {v : Option (List UInt8)}
    (hid : id ∈ s.chain) (hq : s.pages id = some q)
    (hp : p.store = Function.update q.store slotId v) :
    (s.setPage id p).stored = Function.update s.stored ⟨id, slotId⟩ v := by
  funext rid
  obtain ⟨pid, slot⟩ := rid
  have hchain : (s.setPage id p).chain = s.chain := rfl
  simp only [stored, setPage_pages, hchain, Function.update_apply, RID.mk.injEq]
  by_cases hpid : pid = id
  · subst hpid
    simp only [hid, if_true, Option.bind_some, hp, Function.update_apply, true_and, hq]
  · simp only [hpid, if_false, false_and]

/-! ## 4. Appending a page -/

/-- **A page is put at the end of the chain**: it is empty, and the page that was last links to
it and has kept its records. -/
theorem Ok.append (h : s.Ok) (heap : HeapFile) {pages : PageId → Option Page} {id : PageId}
    {p : Page} (h0 : id ≠ 0) (hne : id ≠ invalidPageId) (hfresh : s.pages id = none)
    (hp : pages id = some p) (hlay : p.Layout) (hempty : p.store = fun _ => none)
    (hnext : p.getNextPageId = invalidPageId)
    (hold : ∀ i, i ≠ id → (i ∈ s.chain → i ≠ s.heap.lastPageId) → pages i = s.pages i)
    (hlast : ∀ q, s.heap.lastPageId ∈ s.chain → s.pages s.heap.lastPageId = some q → q.Layout →
      ∃ q', pages s.heap.lastPageId = some q' ∧ q'.Layout ∧ q'.store = q.store ∧
        q'.getNextPageId = id)
    (hfirst : heap.firstPageId = s.heap.firstPageId) (hheap : heap.lastPageId = id)
    (hlisted : ∀ i ∈ heap.pagesWithSpace, i ∈ s.chain ∨ i = id) :
    s.Evolves ⟨heap, pages, s.chain ++ [id]⟩ ∧
      (⟨heap, pages, s.chain ++ [id]⟩ : HeapState).stored = s.stored := by
  have hid : id ∉ s.chain := fun hmem => by
    obtain ⟨q, hq, -⟩ := h.layout id hmem
    rw [hfresh] at hq
    exact absurd hq (by simp)
  have hneid : ∀ i ∈ s.chain, i ≠ id := fun i hi he => hid (he ▸ hi)
  -- a page of the old chain keeps its layout and its records
  have hkept : ∀ i ∈ s.chain, ∃ q q', s.pages i = some q ∧ pages i = some q' ∧ q'.Layout ∧
      q'.store = q.store := by
    intro i hi
    obtain ⟨q, hq, hql⟩ := h.layout i hi
    by_cases hil : i = s.heap.lastPageId
    · subst hil
      obtain ⟨q', hq', hl', hst, -⟩ := hlast q hi hq hql
      exact ⟨q, q', hq, hq', hl', hst⟩
    · exact ⟨q, q, hq, (hold i (hneid i hi) fun _ => hil).trans hq, hql, rfl⟩
  have hlink : linkOf pages id = some invalidPageId := by
    rw [linkOf, hp, Option.map_some, hnext]
  refine ⟨⟨⟨?_, ?_, ?_, fun i hi => ?_, fun i hi => ?_, fun i hi => ?_⟩, hfirst,
    List.prefix_append _ _, fun i hi hno => ?_, fun i hi => ?_⟩, ?_⟩
  · -- no page is in the chain twice
    exact List.nodup_append.mpr ⟨h.nodup, List.nodup_singleton id, fun i hi j hj => by
      rw [List.mem_singleton.mp hj]
      exact hneid i hi⟩
  · -- the links: the page that was last links to the new one, if there was one
    rcases List.eq_nil_or_concat s.chain with hnil | ⟨l, last, hcons⟩
    · rw [hnil]
      exact ⟨rfl, invalidPageId, hlink, rfl⟩
    · rw [List.concat_eq_append] at hcons
      have hl : s.heap.lastPageId = last := by rw [← h.last, hcons]; simp
      have hmem : last ∈ s.chain := by rw [hcons]; simp
      obtain ⟨q, hq, hql⟩ := h.layout last hmem
      obtain ⟨q', hq', -, -, hn'⟩ := hlast q (hl ▸ hmem) (hl ▸ hq) hql
      have hseg := h.linked
      have hnd := h.nodup
      rw [hcons] at hseg hnd ⊢
      simp only [List.append_assoc, List.cons_append, List.nil_append]
      have hhead : (l ++ [last, id]).head?.getD invalidPageId
          = (l ++ [last]).head?.getD invalidPageId := by cases l <;> rfl
      rw [hhead]
      refine hseg.extend (fun i hi => ?_) ?_ hlink
      · have hi' : i ∈ s.chain := by rw [hcons]; exact List.mem_append_left _ hi
        have hil : i ≠ last := (List.nodup_append.mp hnd).2.2 i hi last List.mem_cons_self
        rw [linkOf, linkOf, hold i (hneid i hi') fun _ => hl ▸ hil]
      · rw [linkOf, ← hl, hq', Option.map_some, hn']
  · -- the new page is the last one
    rw [List.getLast?_append]
    simp [hheap]
  · -- every page of the chain is a slotted page
    rcases List.mem_append.mp hi with hi | hi
    · obtain ⟨-, q', -, hq', hl', -⟩ := hkept i hi
      exact ⟨q', hq', hl'⟩
    · rw [List.mem_singleton.mp hi]
      exact ⟨p, hp, hlay⟩
  · -- their ids are those of pages
    rcases List.mem_append.mp hi with hi | hi
    · exact h.ids i hi
    · rw [List.mem_singleton.mp hi]
      exact ⟨h0, hne⟩
  · -- listed pages belong to the chain
    rcases hlisted i hi with hi | hi
    · exact List.mem_append_left _ hi
    · exact List.mem_append_right _ (List.mem_singleton.mpr hi)
  · -- the page that came did not exist
    rcases List.mem_append.mp hi with hi | hi
    · exact absurd hi hno
    · rw [List.mem_singleton.mp hi]
      exact hfresh
  · -- pages of others are as they were
    have hnot : i ∉ s.chain ∧ i ≠ id := by simpa using hi
    exact hold i hnot.2 fun hmem => absurd hmem hnot.1
  · -- the records are those of the old pages, as the new one is empty
    funext rid
    simp only [stored, List.mem_append, List.mem_singleton]
    by_cases hmem : rid.pageId ∈ s.chain
    · obtain ⟨q, q', hq, hq', -, hst⟩ := hkept _ hmem
      simp only [hmem, true_or, if_true, hq, hq', Option.bind_some, hst]
    · by_cases hrid : rid.pageId = id
      · simp only [hrid, or_true, if_true, hp, Option.bind_some, hempty]
        rw [if_neg hid]
      · simp only [hmem, hrid, or_self, if_false]

end HeapState

end CourtDB
