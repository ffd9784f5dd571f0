/-
# Insertion while clients hold pages

The clients of a database keep pages pinned while a record is inserted, and may leave few frames or
none.  `PinnedRun` is a new heap file among such clients, with the records for which `InsertRecord`
returned a valid record id.

`AllocateNewPage` needs two frames at once, one for the new page and one for the page that was
last.  When the new page gets the only frame that is free, the last page cannot be fetched unless a
client holds it; the new page is then taken up without a link to it, and no scan comes to it or to
any page after it.

So the question is about the numbers of frames.  With two frames left nothing can go wrong, and with
none the insertion is refused at once.  With exactly one it depends on whether a page is needed at
all: on a listed page with room, as the page itself accounts for it, and for a record that fits on
no page also on the second attempt, which takes a page whatever was found before (`Linkable`).  The
condition can be read off the state before the call (`KeepsLinks`), and a run all of whose steps
meet it loses no record (`scan_finds`).
-/
import CourtDB.Buffer.ClientPins
import CourtDB.Heap.RecordTable
import CourtDB.Storage.PageUpdate

namespace CourtDB

open BufferPoolManager

/-! ## 1. The heap file in a crowded pool

`Crowded` is a view in which clients hold pages, with a heap file whose chain is whole.  The rules
are those of the pool mode in which a fetch fails when no frame is left, and only then. -/

namespace HeapState

open HeapFile PoolM

variable {n p : Nat} {k : UInt16} {s t : HeapState} {held : List PageId}

/-- The clients hold different pages that exist, the invalid id is no page, and at most `p` pages
exist. -/
structure Crowded (n p : Nat) (held : List PageId) (s : HeapState) : Prop where
  ok : s.Ok
  nodup : held.Nodup
  exist : ∀ id ∈ held, (s.pages id).isSome
  within : (View.keeping n s.pages held).Within p
  valid : s.pages invalidPageId = none

theorem Crowded.not_held (h : Crowded n p held s) {id : PageId} (hfresh : s.pages id = none) :
    id ∉ held := fun hmem => by
  have hs := h.exist id hmem
  rw [hfresh] at hs
  exact absurd hs (by simp)

/-- Counters and directory can change without the pages. -/
theorem Crowded.withHeap (h : Crowded n p held s) (hev : s.Evolves t) (hpages : t.pages = s.pages) :
    Crowded n p held t := by
  refine ⟨hev.ok, h.nodup, ?_, ?_, ?_⟩
  · rw [hpages]
    exact h.exist
  · rw [hpages]
    exact h.within
  · rw [hpages]
    exact h.valid

/-- Fetching a page of the chain, which fails only when no frame is left. -/
theorem Crowded.fetch (h : Crowded n p held s) {id : PageId} (hid : id ∈ s.chain)
    {Q : Bool → View → Prop}
    (hQ : ∀ q, s.pages id = some q → q.Layout → Q true ((View.keeping n s.pages held).pin id))
    (hfail : n ≤ held.length → Q false (View.keeping n s.pages held)) :
    (fetchPage id).wpc Q (View.keeping n s.pages held) := by
  obtain ⟨q, hq, hql⟩ := h.ok.layout id hid
  have hs : (s.pages id).isSome := by rw [hq]; rfl
  exact wpc_fetchPage (h.ok.ids id hid).1 hs (View.keeping_pins_le id) (hQ q hq hql)
    fun _ hex => hfail ((View.keeping_exhausted_iff h.nodup).mp hex)

/-- A page more. -/
theorem Crowded.append (h : Crowded n p held s) {id : PageId} (hap : s.Appends t id) :
    Crowded n (p + 1) held t := by
  have hev := hap.extending.toEvolves
  have hold : ∀ i, (s.pages i).isSome → (t.pages i).isSome := by
    intro i hi
    by_cases hmem : i ∈ t.chain
    · obtain ⟨q, hq, -⟩ := hev.ok.layout i hmem
      rw [hq]
      rfl
    · rw [hev.frame i hmem]
      exact hi
  refine ⟨hev.ok, h.nodup, fun i hi => hold i (h.exist i hi), ?_, ?_⟩
  · obtain ⟨ids, hlen, hids⟩ := h.within
    refine ⟨id :: ids, Nat.succ_le_succ hlen, fun i hi => ?_⟩
    obtain ⟨hne, hi⟩ := not_or.mp (mt List.mem_cons.mpr hi)
    refine ⟨?_, (hids i hi).2⟩
    have hnot : i ∉ t.chain := by
      rw [hap.chain]
      intro hmem
      rcases List.mem_append.mp hmem with hmem | hmem
      · obtain ⟨q, hq, -⟩ := h.ok.layout i hmem
        exact absurd (hq.symm.trans (hids i hi).1) (by simp)
      · exact hne (List.mem_singleton.mp hmem)
    exact (hev.frame i hnot).trans (hids i hi).1
  · have hnot : invalidPageId ∉ t.chain := fun hmem => (hev.ok.ids _ hmem).2 rfl
    rw [hev.frame _ hnot]
    exact h.valid

/-- When the clients leave one frame, they hold the last page. -/
def TailHeld (n : Nat) (held : List PageId) (s : HeapState) : Prop :=
  held.length + 1 = n → s.chain = [] ∨ s.heap.lastPageId ∈ held

/-- **AllocateNewPage** appends a linked page, or fails when no frame is left. -/
theorem Crowded.allocateNewPage (h : Crowded n p held s) (hp : p + 2 < 2 ^ 32)
    (htail : held.length < n → s.TailHeld n held) {Q : PageId × HeapFile → View → Prop}
    (hfail : n ≤ held.length → Q (invalidPageId, s.heap) (View.keeping n s.pages held))
    (hQ : ∀ (id : PageId) (t : HeapState), held.length < n → s.Appends t id →
      Q (id, t.heap) (View.keeping n t.pages held)) :
    s.heap.allocateNewPage.wpc Q (View.keeping n s.pages held) := by
  unfold HeapFile.allocateNewPage
  rw [wpc, Program.wp_bind]
  refine wpc_newPage (h.within.idsLeft hp) (fun id h0 hne hfresh hpin hfits => ?_) fun hex =>
    hfail ((View.keeping_exhausted_iff h.nodup).mp hex)
  have hid := h.not_held hfresh
  have hlt := hfits.length_lt h.nodup hid
  simp only []
  rw [Program.wp_bind]
  refine wpc_readPage (q := Page.ofId id) (by simp [View.add]) (by simp [View.add]) fun pg hpg => ?_
  have hlay := (setFlags_new hpg).1
  rw [Program.wp_bind]
  refine wpc_writePage (by simp [View.add]) (by simp [View.add]) hlay.directoryFits ?_
  have hch : (View.keeping n s.pages held).changed id = false := rfl
  have hpages : Function.update ((View.keeping n s.pages held).add id).pages id
      (some (pg.setFlags dataPageFlag)) = Function.update s.pages id
        (some (pg.setFlags dataPageFlag)) :=
    Function.update_idem ..
  -- the chain has a last page, or the new page is its first
  rcases h.ok.last_mem with hmem | ⟨hnil, hinv⟩
  · obtain ⟨q, hq, hql⟩ := h.ok.layout _ hmem
    have hlast := h.ok.ne_fresh hfresh _ hmem
    rw [if_pos ⟨(h.ok.ids _ hmem).2, hlast⟩]
    have hnew := View.add_write_unpin (pg.setFlags dataPageFlag) hpin hch
    generalize hw : ((View.keeping n s.pages held).add id).write id (pg.setFlags dataPageFlag) = w
      at hnew ⊢
    have hwpages : w.pages = Function.update s.pages id (some (pg.setFlags dataPageFlag)) :=
      hw ▸ hpages
    have hwpins : w.pins s.heap.lastPageId = (View.keeping n s.pages held).pins s.heap.lastPageId :=
      hw ▸ Function.update_of_ne hlast _ _
    have hwchanged : w.changed s.heap.lastPageId = false := by
      rw [← hw]
      exact Function.update_of_ne hlast _ _
    refine wpc_change (h.ok.ids _ hmem).1 (by rw [hwpages, Function.update_of_ne hlast, hq])
      (hwpins ▸ View.keeping_pins_le _) hwchanged
      (fun last hsame => (setNextPageId_spec hsame hql id).1.directoryFits) (fun last hsame => ?_)
      fun hzero hex => ?_
    · -- the last page was changed to link to the new one
      have hone : w.pins id = 1 := by
        rw [← hw]
        exact Function.update_self ..
      rw [wpc, Program.wp_bind]
      refine wpc_unpinPage (by rw [hone]; decide) (fun _ _ => rfl) ?_
      change Program.wp _ _ Q { w.unpin id true with
        pages := Function.update w.pages s.heap.lastPageId (some (last.setNextPageId id)) }
      rw [hnew, hwpages]
      exact hQ id _ hlt (h.ok.appendLinked h0 hne hfresh hpg hmem hq hql hsame)
    · -- the new page has taken the last frame, and the last page is not pinned
      have hex' : ((View.keeping n s.pages held).add id).Exhausted := by
        rw [← hw] at hex
        exact hex
      have hone : held.length + 1 = n := Nat.le_antisymm hlt hex'.length_le
      rcases htail hlt hone with hnil | hheld
      · rw [hnil] at hmem
        exact absurd hmem List.not_mem_nil
      · rw [hwpins] at hzero
        exact absurd hzero (Nat.ne_of_gt (View.keeping_pins_pos.mpr hheld))
  · rw [if_neg fun hc => hc.1 hinv]
    rw [Program.wp_bind]
    refine wpc_unpinPage (by simp [View.add, View.write]) (fun _ _ => rfl) ?_
    rw [View.add_write_unpin _ hpin hch]
    exact hQ id _ hlt (h.ok.appendFirst h0 hne hfresh hpg hnil)

/-- A listed page has room for a record of that length, by its own account. -/
def RoomListed (s : HeapState) (k : UInt16) : Prop :=
  ∃ id ∈ s.heap.pagesWithSpace, s.HasRoom k id

/-- **The search of the directory** stops at a page with room.  Pages that cannot be fetched are
dropped like those without room. -/
theorem Crowded.searchDirectory (h : Crowded n p held s) (k : UInt16) (l : List PageId)
    (hl : ∀ id ∈ l, id ∈ s.chain) {Q : Option PageId × List PageId → View → Prop}
    (hQ : ∀ (found : Option PageId) (listed : List PageId), (∀ id ∈ listed, id ∈ l) →
      (∀ id ∈ found, id ∈ l ∧ s.HasRoom k id) →
      (found = none → held.length < n → ∀ id ∈ l, ¬ s.HasRoom k id) →
      Q (found, listed) (View.keeping n s.pages held)) :
    (HeapFile.searchDirectory k l).wpc Q (View.keeping n s.pages held) := by
  induction l with
  | nil => exact hQ none [] (by simp) (by simp) (by simp)
  | cons id rest ih =>
    have hid : id ∈ s.chain := hl id List.mem_cons_self
    -- the page is dropped, and the search goes on
    have hskip : (held.length < n → ¬ s.HasRoom k id) →
        (HeapFile.searchDirectory k rest).wpc Q (View.keeping n s.pages held) := by
      intro hno
      refine ih (fun i hi => hl i (List.mem_cons_of_mem _ hi))
        fun found listed hsub hroom hnone => ?_
      refine hQ found listed (fun i hi => List.mem_cons_of_mem _ (hsub i hi))
        (fun i hi => ⟨List.mem_cons_of_mem _ (hroom i hi).1, (hroom i hi).2⟩) fun he hlt i hi => ?_
      rcases List.mem_cons.mp hi with rfl | hi
      · exact hno hlt
      · exact hnone he hlt i hi
    unfold HeapFile.searchDirectory
    rw [wpc, Program.wp_bind]
    refine h.fetch hid (fun q hq _ => ?_) fun hle => hskip fun hlt =>
      absurd hlt (Nat.not_lt.mpr hle)
    · simp only [if_true]
      rw [Program.wp_bind]
      refine wpc_readPage (by simp [View.pin]) hq fun pg hpg => ?_
      rw [Program.wp_bind]
      refine wpc_unpinPage (by simp [View.pin]) (fun _ hch => absurd hch Bool.false_ne_true) ?_
      rw [View.pin_unpin, hasSpaceFor_congr hpg]
      by_cases hroom : q.hasSpaceFor k = true
      · rw [if_pos hroom]
        refine hQ (some id) (id :: rest) (fun _ hi => hi) (fun i hi => ?_) (by simp)
        obtain rfl := Option.some.inj hi
        exact ⟨List.mem_cons_self, q, hq, hroom⟩
      · rw [if_neg hroom]
        refine hskip fun _ hhas => hroom ?_
        obtain ⟨q', hq', hr⟩ := hhas
        obtain rfl := Option.some.inj (hq.symm.trans hq')
        exact hr

/-- Where `FindPageWithSpace` sends a record: to a listed page with room, to a new page when no
listed one has room, or nowhere. -/
structure Finds (n : Nat) (held : List PageId) (s t : HeapState) (k : UInt16) (id : PageId) :
    Prop where
  extending : s.Extends t
  stored : t.stored = s.stored
  cases :
    (id ∈ t.chain ∧ t.HasRoom k id ∧ s.RoomListed k ∧ t.heap.lastPageId = s.heap.lastPageId ∧
      t.chain = s.chain) ∨
    (id ∈ t.chain ∧ ¬ s.RoomListed k ∧ held.length < n ∧
      ∃ q, t.pages id = some q ∧ q.IsNew id ∧ q.Layout) ∨
    id = invalidPageId

/-- **FindPageWithSpace.** -/
theorem Crowded.findPageWithSpace (h : Crowded n p held s) (hp : p + 2 < 2 ^ 32)
    (htail : held.length < n → ¬ s.RoomListed k → s.TailHeld n held)
    {Q : PageId × HeapFile → View → Prop}
    (hQ : ∀ (id : PageId) (t : HeapState), Crowded n (p + 1) held t → Finds n held s t k id →
      Q (id, t.heap) (View.keeping n t.pages held)) :
    (s.heap.findPageWithSpace k).wpc Q (View.keeping n s.pages held) := by
  unfold HeapFile.findPageWithSpace
  rw [wpc, Program.wp_bind]
  refine h.searchDirectory k _ h.ok.listed fun found listed hsub hroom hnone => ?_
  have hlisted : ∀ id ∈ listed, id ∈ s.chain := fun id hid => h.ok.listed id (hsub id hid)
  have hev : s.Evolves { s with heap := { s.heap with pagesWithSpace := listed } } :=
    h.ok.withHeap _ rfl rfl hlisted
  have hcrowded := h.withHeap hev rfl
  have hmore : Crowded n (p + 1) held { s with heap := { s.heap with pagesWithSpace := listed } } :=
    { hcrowded with within := hcrowded.within.mono (Nat.le_succ p) }
  cases found with
  | some id =>
    obtain ⟨hid, hr⟩ := hroom id rfl
    exact hQ id _ hmore ⟨hev.extends rfl rfl, rfl,
      .inl ⟨h.ok.listed id hid, hr, ⟨id, hid, hr⟩, rfl, rfl⟩⟩
  | none =>
    have hno : held.length < n → ¬ s.RoomListed k := by
      rintro hlt ⟨id, hid, hr⟩
      exact hnone rfl hlt id hid hr
    refine hcrowded.allocateNewPage hp (fun hlt => htail hlt (hno hlt)) (fun _ => ?_)
      fun id t hlt hap => ?_
    · exact hQ invalidPageId _ hmore ⟨hev.extends rfl rfl, rfl, .inr (.inr rfl)⟩
    · exact hQ id t (hcrowded.append hap) ⟨(hev.extends rfl rfl).trans hap.extending, hap.stored,
        .inr (.inl ⟨hap.mem_chain, hno hlt, hlt, hap.page⟩)⟩

/-! ## 2. Inserting a record

Under pressure an insertion may be refused where it would not be otherwise; then nothing is stored,
and the invalid record id says so. -/

/-- What an insertion may answer and do in a crowded pool: an invalid id and nothing stored, or
the id of a free place, where the record now is. -/
def Answers (s t : HeapState) (a : RecordArg) (rid : RID) : Prop :=
  rid = {} ∧ t.stored = s.stored ∨
    ∃ r, a = .data r ∧ rid.isValid = true ∧ s.stored rid = none ∧
      t.stored = Function.update s.stored rid (some r.bytes)

theorem Answers.of_stored {u : HeapState} {a : RecordArg} {rid : RID} (h : t.Answers u a rid)
    (hst : t.stored = s.stored) : s.Answers u a rid := by
  rw [Answers, ← hst]
  exact h

/-- When the clients leave one frame, the insertion takes no page that stays without a link: a
listed page has room or the clients hold the last page, and both for a record that fits on no
page, since it costs one page more. -/
def Linkable (n : Nat) (held : List PageId) (s : HeapState) (r : RecordData) : Prop :=
  held.length + 1 = n →
    if r.bytes.length ≤ 4072 then s.RoomListed r.length ∨ s.heap.lastPageId ∈ held
    else s.RoomListed r.length ∧ s.heap.lastPageId ∈ held

/-- The end of `InsertRecord`. -/
theorem Crowded.finishInsert (h : Crowded n p held s) {id : PageId} {q pg : Page} {a : RecordArg}
    {slotId : UInt16} {pg' : Page} (hid : id ∈ s.chain) (hq : s.pages id = some q)
    (hpg : pg.SameContent q) (hins : pg.insertRecord a = (some slotId, pg'))
    {Q : RID × HeapFile → View → Prop}
    (hQ : ∀ t : HeapState, Crowded n p held t → s.Extends t → s.Answers t a ⟨id, slotId⟩ →
      Q (⟨id, slotId⟩, t.heap) (View.keeping n t.pages held)) :
    (s.heap.finishInsert id slotId pg').wpc Q ((View.keeping n s.pages held).pin id) := by
  obtain ⟨hfits, hext, hinserts⟩ := h.ok.recordTaken hid hq hpg hins
  have hs : (s.pages id).isSome := by rw [hq]; rfl
  unfold HeapFile.finishInsert
  rw [wpc, Program.wp_bind]
  refine wpc_writePage (by simp [View.pin]) hs hfits ?_
  rw [Program.wp_bind]
  refine wpc_unpinPage (by simp [View.pin, View.write]) (fun _ _ => rfl) ?_
  rw [View.pin_write_unpin _ (by rfl)]
  refine hQ _ ⟨hext.ok, h.nodup, fun i hi => ?_, ?_, ?_⟩ hext ?_
  · have hold := h.exist i hi
    simp only [Function.update_apply]
    split
    · rfl
    · exact hold
  · have hw : ((View.keeping n s.pages held).write id pg').Within p := h.within.write hs pg'
    exact hw.of_subset (fun _ hi => hi) fun _ hi => hi
  · exact (Function.update_of_ne (h.ok.ids id hid).2.symm _ _).trans h.valid
  · rcases hinserts with ⟨hnil, -, hst, -⟩ | ⟨r, ha, hvalid, hfree, hst, -⟩
    · exact .inl ⟨hnil, hst⟩
    · exact .inr ⟨r, ha, hvalid, hfree, hst⟩

/-- **InsertRecord's second attempt.** -/
theorem Crowded.insertOnNewPage (h : Crowded n p held s) (hp : p + 2 < 2 ^ 32)
    (htail : held.length < n → s.TailHeld n held) (a : RecordArg)
    {Q : RID × HeapFile → View → Prop}
    (hQ : ∀ (rid : RID) (t : HeapState), Crowded n (p + 1) held t → s.Extends t →
      s.Answers t a rid → Q (rid, t.heap) (View.keeping n t.pages held)) :
    (s.heap.insertOnNewPage a).wpc Q (View.keeping n s.pages held) := by
  unfold HeapFile.insertOnNewPage
  rw [wpc, Program.wp_bind]
  refine h.allocateNewPage hp htail (fun _ => ?_) fun id t _ hap => ?_
  · simp only []
    rw [Program.wp_bind]
    refine wpc_fetchPage_none (by decide) h.valid ?_
    have hmore : Crowded n (p + 1) held s := { h with within := h.within.mono (Nat.le_succ p) }
    exact hQ {} s hmore h.ok.extends (.inl ⟨rfl, rfl⟩)
  · have hc := h.append hap
    have hst := hap.stored
    simp only []
    rw [Program.wp_bind]
    refine hc.fetch hap.mem_chain (fun q hq _ => ?_) fun _ =>
      hQ {} t hc hap.extending (.inl ⟨rfl, hst⟩)
    simp only [if_true]
    rw [Program.wp_bind]
    refine wpc_readPage (by simp [View.pin]) hq fun pg hpg => ?_
    cases hins : pg.insertRecord a with
    | mk slot pg' =>
      cases slot with
      | some slotId =>
        refine hc.finishInsert hap.mem_chain hq hpg hins fun u hcu hext hans => ?_
        exact hQ _ u hcu (hap.extending.trans hext) (hans.of_stored hst)
      | none =>
        simp only []
        rw [Program.wp_bind]
        refine wpc_unpinPage (by simp [View.pin]) (fun _ _ => rfl) ?_
        rw [View.pin_unpin_dirty rfl]
        exact hQ {} t hc hap.extending (.inl ⟨rfl, hst⟩)

/-- A record that was refused by the page found for it fits on no page. -/
theorem Finds.unfit {id : PageId} {q pg : Page} {a : RecordArg}
    (h : Finds n held s t a.length id) (hok : t.Ok) (hq : t.pages id = some q) (hql : q.Layout)
    (hpg : pg.SameContent q) (hno : (pg.insertRecord a).1 = none) (hid : id ∈ t.chain) :
    Unfit a := by
  rcases h.cases with ⟨-, ⟨q', hq', hroom⟩, -⟩ | ⟨-, -, -, q', hq', hnew, -⟩ | hinv
  · obtain rfl := Option.some.inj (hq.symm.trans hq')
    exact unfit_of_refused_room hpg hql hroom hno
  · obtain rfl := Option.some.inj (hq.symm.trans hq')
    exact unfit_of_refused_new hpg hnew hno
  · exact absurd hinv (hok.ids id hid).2

/-- **InsertRecord** in a crowded pool. -/
theorem Crowded.insertRecord (h : Crowded n p held s) (hp : p + 3 < 2 ^ 32) (a : RecordArg)
    (hlink : ∀ r, a = .data r → r.length ≠ 0 → s.Linkable n held r)
    {Q : RID × HeapFile → View → Prop}
    (hQ : ∀ (rid : RID) (t : HeapState), (∃ p', Crowded n p' held t) → s.Extends t →
      s.Answers t a rid → Q (rid, t.heap) (View.keeping n t.pages held)) :
    (s.heap.insertRecord a).wpc Q (View.keeping n s.pages held) := by
  have hempty : Q ({}, s.heap) (View.keeping n s.pages held) :=
    hQ {} s ⟨p, h⟩ h.ok.extends (.inl ⟨rfl, rfl⟩)
  unfold HeapFile.insertRecord
  cases a with
  -- a null pointer, and below a record of length zero, are refused before a page is looked at
  | null k => exact hempty
  | data r =>
    by_cases h0 : r.length = 0
    · simp only [h0, if_true]
      exact hempty
    · simp only [h0, if_false]
      have hlink' := hlink r rfl h0
      rw [wpc, Program.wp_bind]
      refine h.findPageWithSpace (Nat.lt_of_succ_lt hp) (fun _ hno hone => .inr ?_)
        fun id t hc hfind => ?_
      · have hl := hlink' hone
        split at hl
        · exact hl.resolve_left hno
        · exact hl.2
      · have hst := hfind.stored
        simp only []
        rw [Program.wp_bind]
        -- a page was found, or no page could be had
        by_cases hid : id ∈ t.chain
        · refine hc.fetch hid (fun q hq hql => ?_) fun _ =>
            hQ {} t ⟨_, hc⟩ hfind.extending (.inl ⟨rfl, hst⟩)
          simp only [if_true]
          rw [Program.wp_bind]
          refine wpc_readPage (by simp [View.pin]) hq fun pg hpg => ?_
          cases hins : pg.insertRecord (.data r) with
          | mk slot pg' =>
            cases slot with
            -- the page took the record
            | some slotId =>
              refine hc.finishInsert hid hq hpg hins fun u hcu hext hans => ?_
              exact hQ _ u ⟨_, hcu⟩ (hfind.extending.trans hext) (hans.of_stored hst)
            -- the page refused it, and the second attempt is made
            | none =>
              simp only []
              rw [Program.wp_bind]
              refine wpc_unpinPage (by simp [View.pin])
                (fun _ hch => absurd hch Bool.false_ne_true) ?_
              rw [View.pin_unpin]
              refine hc.insertOnNewPage hp (fun hlt hone => .inr ?_) _ fun rid u hcu hext hans =>
                hQ rid u ⟨_, hcu⟩ (hfind.extending.trans hext) (hans.of_stored hst)
              -- the record fits on no page, so a listed page had room and the tail is held
              have hunfit := hfind.unfit hc.ok hq hql hpg (by rw [hins]) hid
              have hl := hlink' hone
              rw [if_neg (Nat.not_le.mpr ((hunfit r rfl).resolve_left h0))] at hl
              rcases hfind.cases with ⟨-, -, -, hlast, -⟩ | ⟨-, hno, -⟩ | hinv
              · rw [hlast]
                exact hl.2
              · exact absurd hl.1 hno
              · exact absurd hinv (hc.ok.ids id hid).2
        · have hinv : id = invalidPageId := by
            rcases hfind.cases with ⟨hmem, -⟩ | ⟨hmem, -⟩ | hinv
            · exact absurd hmem hid
            · exact absurd hmem hid
            · exact hinv
          rw [hinv]
          exact wpc_fetchPage_none (by decide) hc.valid
            (hQ {} t ⟨_, hc⟩ hfind.extending (.inl ⟨rfl, hst⟩))

end HeapState

/-! ## 3. Runs

Clients fetch and unpin pages of their own choice between the insertions.  `ScanFinds` is about the
moment when they have given everything back. -/

/-- What happens to the pool while a heap file is filled. -/
inductive PinnedOp
  | client (op : ClientOp)
  | insert (a : RecordArg)

/-- A heap file, the clients of its pool, and the records that were acknowledged with a valid
record id. -/
structure PinnedRun where
  clients : Clients
  heap : HeapFile
  acknowledged : List (RID × List UInt8) := []

namespace PinnedRun

open HeapState

/-- One step. -/
def step (st : PinnedRun) : PinnedOp → PinnedRun
  | .client op => { st with clients := st.clients.step op }
  | .insert a =>
    let res := (st.heap.insertRecord a).exec st.clients.pool
    ⟨{ st.clients with pool := res.2 }, res.1.2,
      if res.1.1.isValid then (res.1.1, a.bytes) :: st.acknowledged else st.acknowledged⟩

/-- A new heap file in the pool of the clients. -/
def start (c : Clients) : PinnedRun :=
  ⟨{ c with pool := (HeapFile.create.exec c.pool).2 }, (HeapFile.create.exec c.pool).1, []⟩

/-- A listed page has room for a record of that length. -/
def RoomListed (st : PinnedRun) (k : UInt16) : Prop :=
  ∃ id ∈ st.heap.pagesWithSpace, ∃ p ∈ st.clients.pool.pageOf id, p.hasSpaceFor k = true

instance (st : PinnedRun) (k : UInt16) : Decidable (st.RoomListed k) :=
  inferInstanceAs (Decidable (∃ id ∈ st.heap.pagesWithSpace, _))

/-- The step leaves no page without a link.  This can only go wrong when the clients leave exactly
one frame: then the record has to find room on a listed page, or the last page of the heap file has
to be held; and both, if the record fits on no page. -/
def KeepsLinks (st : PinnedRun) : PinnedOp → Prop
  | .client _ => True
  | .insert (.null _) => True
  | .insert (.data r) => r.length ≠ 0 → st.clients.held.length + 1 = st.clients.pool.poolSize →
    if r.bytes.length ≤ 4072 then st.RoomListed r.length ∨ st.heap.lastPageId ∈ st.clients.held
    else st.RoomListed r.length ∧ st.heap.lastPageId ∈ st.clients.held

instance (st : PinnedRun) : DecidablePred st.KeepsLinks
  | .client _ => isTrue trivial
  | .insert (.null _) => isTrue trivial
  | .insert (.data r) => inferInstanceAs (Decidable (r.length ≠ 0 →
      st.clients.held.length + 1 = st.clients.pool.poolSize →
      if r.bytes.length ≤ 4072 then st.RoomListed r.length ∨ st.heap.lastPageId ∈ st.clients.held
      else st.RoomListed r.length ∧ st.heap.lastPageId ∈ st.clients.held))

/-- Page ids are left, and no page is left without a link. -/
def Meets (st : PinnedRun) (op : PinnedOp) : Prop := st.clients.IdsLeft ∧ st.KeepsLinks op

instance (st : PinnedRun) : DecidablePred st.Meets :=
  fun _ => inferInstanceAs (Decidable (_ ∧ _))

/-- When the clients give everything back, a scan ends and visits every record that was
acknowledged. -/
def ScanFinds (st : PinnedRun) : Prop :=
  ∃ fuel l, ((st.heap.scan fuel).exec st.clients.releaseAll).1 = some l ∧
    ∀ e ∈ st.acknowledged, (e.1, some e.2) ∈ l

/-- The heap file stands on the clients' pool, and stores what was acknowledged. -/
structure Sound (n : Nat) (st : PinnedRun) (s : HeapState) : Prop where
  ok : s.Ok
  heap : s.heap = st.heap
  first : s.chain.head? = some s.heap.firstPageId
  clients : st.clients.Sound n s.pages
  stored : ∀ e ∈ st.acknowledged, s.stored e.1 = some e.2

variable {n : Nat} {st : PinnedRun} {s : HeapState}

theorem Sound.crowded (h : Sound n st s) :
    Crowded n st.clients.pool.disk.header.pageCount.toNat st.clients.held s :=
  ⟨h.ok, h.clients.nodup, h.clients.exist, h.clients.within, h.clients.invalid⟩

/-- What the clients find on the listed pages is what the heap file has there. -/
theorem Sound.roomListed_iff (h : Sound n st s) (hone : st.clients.held.length < n) (k : UInt16) :
    st.RoomListed k ↔ s.RoomListed k := by
  rw [RoomListed, HeapState.RoomListed, h.heap]
  refine exists_congr fun id => and_congr_right fun hin => ?_
  obtain ⟨q, hq, -⟩ := h.ok.layout id (h.ok.listed id (h.heap ▸ hin))
  have hpin : (View.keeping n s.pages st.clients.held).pins id + 1 < 2 ^ 32 := by
    have hle : (View.keeping n s.pages st.clients.held).pins id ≤ 1 := View.keeping_pins_le id
    omega
  obtain ⟨p, hp, hsame⟩ := h.clients.shows.pageOf hq hpin
    (mt (View.keeping_exhausted_iff h.clients.nodup).mp (Nat.not_le.mpr hone))
  rw [hp, HasRoom, hq]
  simp [hasSpaceFor_congr hsame]

/-- **The step lemma.** -/
theorem Sound.step (h : Sound n st s) {op : PinnedOp} (hmeets : st.Meets op) :
    ∃ t, Sound n (st.step op) t := by
  cases op with
  -- a client changes no page of the heap file
  | client op =>
    obtain ⟨m, hm, hkept⟩ := h.clients.step hmeets.1 op
    have hchain : ∀ id ∈ s.chain, m id = s.pages id := fun id hid => by
      obtain ⟨q, hq, -⟩ := h.ok.layout id hid
      exact hkept id (by rw [hq]; rfl)
    obtain ⟨hok, hst⟩ := h.ok.congr_pages hchain
    exact ⟨_, hok, h.heap, h.first, hm, fun e he => hst ▸ h.stored e he⟩
  | insert a =>
    have hheap := h.heap
    have hsize : st.clients.pool.poolSize = n := h.clients.shows.frames
    have hlink : ∀ r, a = .data r → r.length ≠ 0 → s.Linkable n st.clients.held r := by
      rintro r rfl h0 hone
      have hl := hmeets.2 h0 (hone.trans hsize.symm)
      rwa [h.roomListed_iff (Nat.lt_of_succ_le (Nat.le_of_eq hone)), ← hheap] at hl
    have hwp : (st.heap.insertRecord a).wpc (fun r v => ∃ t : HeapState, r.2 = t.heap ∧
        v = View.keeping n t.pages st.clients.held ∧ (∃ p', Crowded n p' st.clients.held t) ∧
        s.Extends t ∧ s.Answers t a r.1) (View.keeping n s.pages st.clients.held) := by
      rw [← hheap]
      exact h.crowded.insertRecord hmeets.1 a hlink fun rid t hc hext hans =>
        ⟨t, rfl, rfl, hc, hext, hans⟩
    obtain ⟨_, ⟨t, hres, rfl, ⟨p', hc⟩, hext, hans⟩, hshows⟩ := h.clients.shows.exec_crowded hwp
    refine ⟨t, hext.ok, hres.symm, hext.head? h.first, ⟨hshows, hc.nodup, hc.exist⟩, fun e he => ?_⟩
    simp only [PinnedRun.step] at he
    rcases hans with ⟨hnil, hst⟩ | ⟨r, rfl, hvalid, hfree, hst⟩
    · -- nothing was stored, and nothing was acknowledged
      rw [hnil, if_neg (by decide)] at he
      rw [hst]
      exact h.stored e he
    · -- the record was acknowledged, and its place was free
      rw [if_pos hvalid] at he
      rw [hst]
      rcases List.mem_cons.mp he with rfl | he
      · exact Function.update_self ..
      · have hold := h.stored e he
        rw [Function.update_of_ne]
        · exact hold
        · intro heq
          rw [heq, hfree] at hold
          exact absurd hold (by simp)

/-- A new heap file in a pool with a frame left. -/
theorem sound_start {c : Clients} {m : PageId → Option Page} (hc : c.Sound n m) (hids : c.IdsLeft)
    (hfree : c.held.length < n) : ∃ s, Sound n (start c) s := by
  have hempty : Crowded n c.pool.disk.header.pageCount.toNat c.held
      ⟨⟨invalidPageId, invalidPageId, 0, 0, []⟩, m, []⟩ :=
    ⟨⟨List.nodup_nil, rfl, rfl, by simp, by simp, by simp⟩, hc.nodup, hc.exist,
      hc.within, hc.invalid⟩
  have hwp : HeapFile.create.wpc (fun heap v => ∃ t : HeapState, heap = t.heap ∧
      v = View.keeping n t.pages c.held ∧ t.Ok ∧ t.chain.head? = some t.heap.firstPageId ∧
      ∀ id ∈ c.held, (t.pages id).isSome) (View.keeping n m c.held) := by
    unfold HeapFile.create
    rw [PoolM.wpc, Program.wp_bind]
    refine hempty.allocateNewPage (Nat.lt_of_succ_lt hids) (fun _ _ => .inl rfl)
      (fun hle => absurd hfree (Nat.not_lt.mpr hle)) fun id t _ hap => ?_
    have hc' := hempty.append hap
    have hchain : t.chain = [id] := hap.chain
    have hlast : t.heap.lastPageId = id := by rw [← hc'.ok.last, hchain]; rfl
    refine ⟨{ t with heap := { t.heap with firstPageId := id, lastPageId := id } }, rfl,
      rfl, ?_, ?_,
      hc'.exist⟩
    · obtain ⟨h1, h2, h3, h4, h5, h6⟩ := hc'.ok
      exact ⟨h1, h2, h3.trans hlast, h4, h5, h6⟩
    · exact congrArg List.head? hchain
  obtain ⟨_, ⟨t, hheap, rfl, hok, hfirst, hexist⟩, hshows⟩ := hc.shows.exec_crowded hwp
  exact ⟨t, hok, hheap.symm, hfirst, ⟨hshows, hc.nodup, hexist⟩,
    fun e he => absurd he List.not_mem_nil⟩

/-- **The run lemma.** -/
theorem sound_run (hn : 0 < n) {before : List ClientOp}
    (hbefore : Run.StepsOk Clients.step (fun c _ => c.IdsLeft) ⟨overNewFile n, []⟩ before)
    (hids : (Clients.after n before).IdsLeft) (hfree : (Clients.after n before).held.length < n)
    {ops : List PinnedOp}
    (hops : Run.StepsOk PinnedRun.step Meets (start (Clients.after n before)) ops) :
    ∃ s, Sound n (ops.foldl PinnedRun.step (start (Clients.after n before))) s := by
  obtain ⟨m, hm⟩ := Clients.sound_after hn hbefore
  exact Run.invariant_of_stepsOk (I := fun st => ∃ s, Sound n st s)
    (fun _ _ ⟨_, hs⟩ hmeets => hs.step hmeets) (sound_start hm hids hfree) hops

/-- **Acknowledged records are found as long as no page is left without a link.** -/
theorem scan_finds (hn : 0 < n) {before : List ClientOp}
    (hbefore : Run.StepsOk Clients.step (fun c _ => c.IdsLeft) ⟨overNewFile n, []⟩ before)
    (hids : (Clients.after n before).IdsLeft) (hfree : (Clients.after n before).held.length < n)
    {ops : List PinnedOp}
    (hops : Run.StepsOk PinnedRun.step Meets (start (Clients.after n before)) ops) :
    ScanFinds (ops.foldl PinnedRun.step (start (Clients.after n before))) := by
  obtain ⟨s, hs⟩ := sound_run hn hbefore hids hfree hops
  generalize ops.foldl PinnedRun.step (start (Clients.after n before)) = st at hs
  have hwp : (st.heap.scan (s.contents.length + s.chain.length + 1)).wp .safe
      (fun r _ => r = some s.contents) (View.quiet n s.pages) := by
    rw [← hs.heap]
    exact hs.ok.scan (PoolMode.serves_safe hn) hs.first (Nat.lt_succ_self _) rfl
  obtain ⟨-, _, hres, -⟩ := hs.clients.releaseAll.exec_safe hwp
  refine ⟨_, s.contents, hres, fun e he => (mem_contents _).mpr ⟨hs.stored e he, rfl⟩⟩

/-- In a pool of two frames a client holds a page, the last page of the heap file, or both. -/
theorem scan_finds_held :
    ScanFinds ([PinnedOp.insert (.data (Page.recordOfLength 3000 (by decide))),
      .client (.pin 2), .insert (.data (Page.recordOfLength 2000 (by decide))),
      .client (.release 1 false), .insert (.data (Page.recordOfLength 2000 (by decide)))].foldl
        PinnedRun.step (start (Clients.after 2 [.new]))) :=
  scan_finds (by decide) (by decide +kernel) (by decide +kernel) (by decide +kernel)
    (by decide +kernel)

theorem longRecord_lt : 3000 < 2 ^ 16 := by decide

theorem shortRecord_lt : 2000 < 2 ^ 16 := by decide

/-- Two records that need two pages, in a pool of one frame. -/
def twoPages : PinnedRun :=
  [PinnedOp.insert (.data (Page.recordOfLength 3000 longRecord_lt)),
    .insert (.data (Page.recordOfLength 2000 shortRecord_lt))].foldl PinnedRun.step
      (start (Clients.after 1 []))

/-- The second page is never linked. -/
theorem scan_misses_record : ¬ ScanFinds twoPages := by
  rintro ⟨fuel, l, hscan, hall⟩
  have hvisited : ((twoPages.heap.scan 5).exec twoPages.clients.releaseAll).1.map
      (List.map Prod.fst) = some [⟨1, 0⟩] := by decide +kernel
  obtain ⟨l', hl', hrids⟩ := Option.map_eq_some_iff.mp hvisited
  obtain rfl := HeapFile.scan_unique hscan hl'
  have hacked : (⟨2, 0⟩ : RID) ∈ twoPages.acknowledged.map Prod.fst := by decide +kernel
  obtain ⟨e, he, hrid⟩ := List.mem_map.mp hacked
  have hmem := List.mem_map_of_mem (f := Prod.fst) (hall e he)
  rw [hrids, hrid] at hmem
  exact absurd hmem (by decide)

end PinnedRun

end CourtDB
