/-
# The order of a scan

A scan goes through the pages of the chain and on each page through the slots, so a record id has a
`position` in it.  `contents` is in the order of the positions (`contents_sorted`), and what an
iterator still visits from a record on is what lies beyond the position of the record (`mem_rest`).

A heap file gets new pages only at the end of its chain, so a record id keeps its position
(`position_of_prefix`).  That is why a scan can go on while the heap file changes: the records that
come or go lie before the iterator or beyond it, and those beyond are visited as they are when it
gets there.

The position is a number: the index of the page in the chain, times `2 ^ 16`, plus the slot.  It is
the index in the chain and not the page id that counts: a page that somebody else has deallocated
may be used again, so a later page can have a smaller id.
-/
import CourtDB.Heap.ScanPins
import CourtDB.Buffer.OwnPins

namespace CourtDB

/-! ## 1. The slots of a page -/

namespace Page

variable {p : Page} {a : Nat}

theorem mem_liveFrom_iff {s : UInt16} :
    s ∈ p.liveFrom a ↔ (p.getRecord s).isSome ∧ a ≤ s.toNat := by
  have hdrop : ∀ i, i ∈ (List.range p.getNumSlots.toNat).drop a ↔
      a ≤ i ∧ i < p.getNumSlots.toNat := by
    intro i
    rw [List.range_eq_range', List.drop_range', List.mem_range'_1]
    omega
  constructor
  · intro hs
    obtain ⟨hmap, hsome⟩ := List.mem_filter.mp hs
    obtain ⟨i, hi, rfl⟩ := List.mem_map.mp hmap
    obtain ⟨hle, hlt⟩ := (hdrop i).mp hi
    rw [UInt16.toNat_ofNat_of_lt' (hlt.trans p.getNumSlots.toNat_lt)]
    exact ⟨hsome, hle⟩
  · rintro ⟨hsome, hle⟩
    obtain ⟨hmap, -⟩ := List.mem_filter.mp (mem_liveFrom.mpr hsome)
    obtain ⟨i, hi, hofNat⟩ := List.mem_map.mp hmap
    have hlt : i < p.getNumSlots.toNat := List.mem_range.mp (List.mem_of_mem_drop hi)
    have hi' : s.toNat = i := by
      rw [← hofNat, UInt16.toNat_ofNat_of_lt' (hlt.trans p.getNumSlots.toNat_lt)]
    refine List.mem_filter.mpr ⟨List.mem_map.mpr ⟨i, (hdrop i).mpr ⟨hi' ▸ hle, hlt⟩, hofNat⟩, hsome⟩

theorem liveFrom_sorted (a : Nat) : (p.liveFrom a).Pairwise fun s t => s.toNat < t.toNat := by
  have hbound : ∀ i ∈ (List.range p.getNumSlots.toNat).drop a, i < 2 ^ 16 := fun i hi =>
    (List.mem_range.mp (List.mem_of_mem_drop hi)).trans p.getNumSlots.toNat_lt
  refine List.Pairwise.filter _ (List.pairwise_map.mpr ?_)
  refine (List.pairwise_lt_range.sublist (List.drop_sublist _ _)).imp_of_mem fun hi hj hlt => ?_
  rwa [UInt16.toNat_ofNat_of_lt' (hbound _ hi), UInt16.toNat_ofNat_of_lt' (hbound _ hj)]

end Page

/-! ## 2. Positions

The chain has no page twice, so the index of a page is well defined. -/

/-- Where a record id stands in the order of a scan. -/
def position (chain : List PageId) (rid : RID) : Nat :=
  chain.idxOf rid.pageId * 2 ^ 16 + rid.slotId.toNat

variable {chain chain' : List PageId} {rid rid' : RID}

/-- A chain that gets longer keeps the positions on its pages. -/
theorem position_of_prefix (h : chain <+: chain') (hmem : rid.pageId ∈ chain) :
    position chain' rid = position chain rid := by
  rw [position, position, h.idxOf_eq_of_mem hmem]

theorem position_lt_iff : position chain rid < position chain rid' ↔
    chain.idxOf rid.pageId < chain.idxOf rid'.pageId ∨
      chain.idxOf rid.pageId = chain.idxOf rid'.pageId ∧ rid.slotId.toNat < rid'.slotId.toNat := by
  have h := rid.slotId.toNat_lt
  have h' := rid'.slotId.toNat_lt
  rw [position, position]
  omega

/-- The pages of a chain stand one after the other. -/
theorem idxOf_sorted (h : chain.Nodup) :
    chain.Pairwise fun id id' => chain.idxOf id < chain.idxOf id' := by
  rw [List.pairwise_iff_getElem]
  intro i j hi hj hij
  rwa [h.idxOf_getElem, h.idxOf_getElem]

namespace HeapState

variable {s : HeapState} {id : PageId} {slotId : UInt16} {q : Page} {pre post : List PageId}

/-- The records of one page. -/
def onPage (m : PageId → Option Page) (id : PageId) : List (RID × Option (List UInt8)) :=
  ((m id).map fun q => q.scanFrom id 0).getD []

theorem mem_onPage {m : PageId → Option Page} {e : RID × Option (List UInt8)}
    (h : e ∈ onPage m id) :
    e.1.pageId = id := by
  unfold onPage at h
  cases hq : m id with
  | none =>
    rw [hq] at h
    exact absurd h List.not_mem_nil
  | some q =>
    rw [hq, Option.map_some, Option.getD_some] at h
    obtain ⟨slot, -, rfl⟩ := List.mem_map.mp h
    rfl

theorem mem_scanPages {m : PageId → Option Page} {l : List PageId} {e : RID × Option (List UInt8)} :
    e ∈ scanPages m l ↔ ∃ id ∈ l, e ∈ onPage m id := List.mem_flatMap

theorem scanFrom_sorted (chain : List PageId) (q : Page) (id : PageId) (a : Nat) :
    (q.scanFrom id a).Pairwise fun e e' => position chain e.1 < position chain e'.1 := by
  refine List.pairwise_map.mpr ((q.liveFrom_sorted a).imp fun hlt => ?_)
  exact position_lt_iff.mpr (.inr ⟨rfl, hlt⟩)

/-- **The records of pages that stand in order** are in order. -/
theorem scanPages_sorted {m : PageId → Option Page} {l : List PageId}
    (h : l.Pairwise fun id id' => chain.idxOf id < chain.idxOf id') :
    (scanPages m l).Pairwise fun e e' => position chain e.1 < position chain e'.1 := by
  refine List.pairwise_flatMap.mpr ⟨fun id _ => ?_, h.imp fun hlt e he e' he' => ?_⟩
  · cases hq : m id with
    | none => exact List.Pairwise.nil
    | some q => exact scanFrom_sorted chain q id 0
  · refine position_lt_iff.mpr (.inl ?_)
    rw [mem_onPage he, mem_onPage he']
    exact hlt

/-- **The contents are in the order of a scan.** -/
theorem contents_sorted (hs : s.Ok) :
    (s.contents.map Prod.fst).Pairwise fun r r' => position s.chain r < position s.chain r' :=
  List.pairwise_map.mpr (scanPages_sorted (idxOf_sorted hs.nodup))

/-- What is left to visit from a slot of a page on is in order. -/
theorem rest_sorted (hs : s.Ok) (hchain : s.chain = pre ++ id :: post) (a : Nat) :
    ((q.scanFrom id a ++ scanPages s.pages post).map Prod.fst).Pairwise
      fun r r' => position s.chain r < position s.chain r' := by
  refine List.pairwise_map.mpr ?_
  have horder := idxOf_sorted hs.nodup
  rw [hchain] at horder ⊢
  obtain ⟨hhead, hpost⟩ := List.pairwise_cons.mp (List.pairwise_append.mp horder).2.1
  refine List.pairwise_append.mpr ⟨scanFrom_sorted _ q id a, scanPages_sorted hpost,
    fun e he e' he' => ?_⟩
  obtain ⟨slot, -, rfl⟩ := List.mem_map.mp he
  obtain ⟨id', hid', he'⟩ := mem_scanPages.mp he'
  refine position_lt_iff.mpr (.inl ?_)
  rw [mem_onPage he']
  exact hhead id' hid'

/-- **What is left to visit** after a record is what lies beyond it. -/
theorem mem_rest (hs : s.Ok) (hchain : s.chain = pre ++ id :: post) (hq : s.pages id = some q)
    (slotId : UInt16) (e : RID × Option (List UInt8)) :
    e ∈ q.scanFrom id (slotId.toNat + 1) ++ scanPages s.pages post ↔
      e ∈ s.contents ∧ position s.chain ⟨id, slotId⟩ < position s.chain e.1 := by
  have horder := idxOf_sorted hs.nodup
  rw [hchain] at horder
  obtain ⟨-, hrest, hpre⟩ := List.pairwise_append.mp horder
  obtain ⟨hpost, -⟩ := List.pairwise_cons.mp hrest
  have hhere : onPage s.pages id = q.scanFrom id 0 := by
    rw [onPage, hq, Option.map_some, Option.getD_some]
  rw [List.mem_append, contents, hchain]
  constructor
  · -- what is left on the page, and what is on the pages behind it
    rintro (he | he)
    · obtain ⟨slot, hslot, rfl⟩ := List.mem_map.mp he
      obtain ⟨hsome, hle⟩ := Page.mem_liveFrom_iff.mp hslot
      refine ⟨mem_scanPages.mpr ⟨id, by simp, ?_⟩, position_lt_iff.mpr (.inr ⟨rfl, hle⟩)⟩
      rw [hhere]
      exact List.mem_map.mpr ⟨slot, Page.mem_liveFrom.mpr hsome, rfl⟩
    · obtain ⟨id', hid', he'⟩ := mem_scanPages.mp he
      refine ⟨mem_scanPages.mpr ⟨id', by simp [hid'], he'⟩, position_lt_iff.mpr (.inl ?_)⟩
      rw [mem_onPage he']
      exact hpost id' hid'
  · rintro ⟨he, hlt⟩
    obtain ⟨id', hid', he'⟩ := mem_scanPages.mp he
    have hpage := mem_onPage he'
    rcases List.mem_append.mp hid' with hid' | hid'
    · -- a page before the one the iterator is on
      have hback := hpre id' hid' id List.mem_cons_self
      rw [← hpage] at hback
      rcases position_lt_iff.mp hlt with h | ⟨h, -⟩
      · exact absurd (h.trans hback) (Nat.lt_irrefl _)
      · exact absurd hback (Nat.not_lt.mpr (Nat.le_of_eq h))
    rcases List.mem_cons.mp hid' with rfl | hid'
    · -- the page of the iterator: a slot behind its own
      rw [hhere] at he'
      obtain ⟨slot, hslot, rfl⟩ := List.mem_map.mp he'
      have hslots : slotId.toNat < slot.toNat := by
        rcases position_lt_iff.mp hlt with h | ⟨-, h⟩
        · exact absurd h (Nat.lt_irrefl _)
        · exact h
      refine .inl (List.mem_map.mpr ⟨slot, Page.mem_liveFrom_iff.mpr ⟨?_, hslots⟩, rfl⟩)
      exact Page.mem_liveFrom.mp hslot
    · exact .inr (mem_scanPages.mpr ⟨id', hid', he'⟩)

/-- There are fewer pages in a chain than page ids. -/
theorem Ok.chain_lt (h : s.Ok) : s.chain.length < 2 ^ 32 :=
  pageIds_length_lt h.nodup fun id hid => (h.ids id hid).2

/-! ## 3. An iterator beside other clients

The iterator holds its page, others hold theirs, and between two calls the heap file may have
changed.  The next call starts from the position and the pages as they are now. -/

/-- Where an iterator is: on a record of the chain, or at the end. -/
inductive StandsAt (chain : List PageId) : HeapFileIterator → Option RID → Prop
  | on {id : PageId} {slotId : UInt16} (hid : id ∈ chain) (hslot : slotId.toNat + 1 < 2 ^ 16) :
      StandsAt chain (.onRecord id slotId) (some ⟨id, slotId⟩)
  | ended {it : HeapFileIterator} (h : it.valid = false) : StandsAt chain it none

theorem StandsAt.mono {chain chain' : List PageId} {it : HeapFileIterator} {here : Option RID}
    (h : StandsAt chain it here) (hsub : chain ⊆ chain') : StandsAt chain' it here := by
  cases h with
  | on hid hslot => exact .on (hsub hid) hslot
  | ended hend => exact .ended hend

variable {n : Nat} {held : List PageId}

/-- Other clients have the pages `held` pinned. -/
theorem Ok.access_among (hs : s.Ok) (hheld : held.length + 1 < 2 ^ 32) :
    Access (poolSpec .succeeds) s False (fun v => v = View.among n s.pages held)
      (fun id v => v = View.among n s.pages (id :: held)) where
  fetch := by
    rintro id v Q hid rfl htrue -
    obtain ⟨q, hq, -⟩ := hs.layout id hid
    refine PoolM.wp_fetchPage (hs.ids id hid).1 (by simp [View.among, hq]) ?_
      ⟨trivial, not_false⟩ (htrue _ View.among_pin)
    have hle := List.count_le_length (a := id) (l := held)
    change held.count id + 1 < 2 ^ 32
    omega
  read := by
    rintro id q v Q hq rfl hQ
    exact PoolM.wp_readPage (by simp [View.among]) hq hQ
  unpin := by
    rintro id v Q rfl hQ
    refine PoolM.wp_unpinPage (by simp [View.among]) (fun _ hc => absurd hc Bool.false_ne_true) ?_
    refine hQ _ ?_
    rw [View.among_unpin, List.erase_cons_head]

/-- What an iterator stands on is the first of what it has to visit. -/
theorem Goes.standsAt {todo : List (RID × Option (List UInt8))}
    {r : Option HeapFileIterator} {v : View}
    (h : Goes s False (fun v => v = View.among n s.pages held)
      (fun id v => v = View.among n s.pages (id :: held)) todo r v)
    (htodo : ∀ e ∈ todo, e ∈ s.contents) :
    ∃ it, r = some it ∧ StandsAt s.chain it (todo.map Prod.fst).head? ∧
      v = View.among n s.pages (it.held ++ held) := by
  obtain ⟨it, rest, hr, hvisits, hrest⟩ := h
  obtain rfl := hrest.resolve_right fun hno => hno.1
  refine ⟨it, hr, ?_⟩
  cases hvisits with
  | ended hvalid hv =>
    refine ⟨.ended hvalid, ?_⟩
    rw [hv, HeapFileIterator.held, hvalid]
    rfl
  | @on id slotId q post _ hq hlay hslot _ _ hv =>
    refine ⟨.on ?_ ?_, hv⟩
    · obtain ⟨id', hid', he⟩ := mem_scanPages.mp (htodo _ List.mem_cons_self)
      rwa [← mem_onPage he] at hid'
    · have hle := hlay.numSlots_le
      rw [Page.getNumSlots] at hslot
      omega

/-- **Begin** beside other clients. -/
theorem Ok.begin_among (hs : s.Ok) (hheld : held.length + 1 < 2 ^ 32) :
    (HeapFileIterator.begin (2 ^ 32) (s.chain.head?.getD invalidPageId)).wp .succeeds (fun r v =>
      ∃ it, r = some it ∧ StandsAt s.chain it (s.contents.map Prod.fst).head? ∧
        v = View.among n s.pages (it.held ++ held)) (View.among n s.pages held) :=
  Program.wp_mono ((hs.access_among hheld).begin hs hs.chain_lt rfl)
    fun _ _ hgoes => hgoes.standsAt fun _ he => he

/-- **Next** beside other clients, which may have changed the heap file since the last call: the
iterator goes to the first of the records that lie beyond the one it was on. -/
theorem Ok.next_among (hs : s.Ok) (hheld : held.length + 1 < 2 ^ 32) (hid : id ∈ s.chain)
    (hslot : slotId.toNat + 1 < 2 ^ 16) :
    ((HeapFileIterator.onRecord id slotId).next (2 ^ 32)).wp .succeeds (fun r v =>
      ∃ (it : HeapFileIterator) (todo : List RID), r = some it ∧ StandsAt s.chain it todo.head? ∧
        v = View.among n s.pages (it.held ++ held) ∧
        todo.Pairwise (fun r r' => position s.chain r < position s.chain r') ∧
        ∀ r, r ∈ todo ↔ r ∈ s.contents.map Prod.fst ∧
          position s.chain ⟨id, slotId⟩ < position s.chain r)
      (View.among n s.pages (id :: held)) := by
  obtain ⟨pre, post, hchain⟩ := List.append_of_mem hid
  obtain ⟨q, hq, hlay⟩ := hs.layout id hid
  have hlink := hs.linked
  rw [hchain] at hlink
  obtain ⟨_, -, -, link, hnext, hlink⟩ := segment_append.mp hlink
  obtain rfl : q.getNextPageId = link := by simpa [linkOf, hq] using hnext
  have hsucc : (slotId + 1).toNat = slotId.toNat + 1 := toNat_succ16 hslot
  have hgoes := (hs.access_among (n := n) hheld).advance hs (.onRecord id slotId) rfl hq hlay hlink
    (hchain ▸ (List.suffix_cons id post).trans (List.suffix_append pre _))
    (lt_of_le_of_lt (by rw [hchain, List.length_append, List.length_cons]; omega) hs.chain_lt) rfl
  unfold HeapFileIterator.next
  rw [if_pos (show (HeapFileIterator.onRecord id slotId).valid = true from rfl)]
  refine Program.wp_mono hgoes fun r v hr => ?_
  change Goes s _ _ _ (q.scanFrom id (slotId + 1).toNat ++ scanPages s.pages post) r v at hr
  rw [hsucc] at hr
  have hmem := mem_rest hs hchain hq slotId
  obtain ⟨it, hit, hstands, hv⟩ := hr.standsAt fun e he => ((hmem e).mp he).1
  refine ⟨it, _, hit, hstands, hv, rest_sorted hs hchain _, fun rid => ?_⟩
  constructor
  · intro hrid
    obtain ⟨e, he, rfl⟩ := List.mem_map.mp hrid
    obtain ⟨hmem, hlt⟩ := (hmem e).mp he
    exact ⟨List.mem_map.mpr ⟨e, hmem, rfl⟩, hlt⟩
  · rintro ⟨hrid, hlt⟩
    obtain ⟨e, he, rfl⟩ := List.mem_map.mp hrid
    exact List.mem_map.mpr ⟨e, (hmem e).mpr ⟨he, hlt⟩, rfl⟩

end HeapState

end CourtDB
