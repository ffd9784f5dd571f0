/-
# What a client sees of the pool

A `View` is the pool without eviction and disk: the pages there are, how many pins each has, and
which were changed by a client that has not said so in an unpin yet.  `Shows` connects a pool with
the view its clients have, and one theorem for each call says how the view changes: a fetch adds a
pin (`Shows.fetchPage`), `NewPage` adds an empty page (`Shows.newPage`), a write through a pointer
replaces the one page (`Shows.setResidentPage`).

Views are what the programs of heap files and trees are verified on.  A page of the view is there
whether or not it is in a frame, so the proofs above this module never meet an eviction.  Three
things of the pool remain visible:

* the number of frames: a fetch of an existing page, and `NewPage`, fail only when every frame is
  pinned (`View.Exhausted`);
* the pins, because a page without pins may leave its frame, and then a pointer to it means another
  page.  So reading and writing through a pointer ask for a pin;
* changes that were not declared: the last unpin of a page has to declare them, else the page on the
  disk is the old one.

Page 0 is not in the view.  It is the header of the file, and clients that fetch it get no page of
theirs.
-/
import CourtDB.Buffer.PoolProgram
import CourtDB.Buffer.PoolSpecs

namespace CourtDB

/-! ## 1. Views

The operations on views are those of the calls.  `Shows` has the invariant of the pool, the pages it
represents, and the pins; the pages come with a bound on their ids, which is the end of the file. -/

/-- The number of frames, the pages, the pins on them, and the pages with a change that was not
declared. -/
structure View where
  frames : Nat
  pages : PageId → Option Page
  pins : PageId → Nat
  changed : PageId → Bool

namespace View

/-- One more pin on page `id`. -/
def pin (v : View) (id : PageId) : View :=
  { v with pins := Function.update v.pins id (v.pins id + 1) }

/-- One pin less on page `id`, with its changes declared or not. -/
def unpin (v : View) (id : PageId) (isDirty : Bool) : View :=
  { v with
    pins := Function.update v.pins id (v.pins id - 1)
    changed := if isDirty then Function.update v.changed id false else v.changed }

/-- Page `id` is changed to `p`. -/
def write (v : View) (id : PageId) (p : Page) : View :=
  { v with
    pages := Function.update v.pages id (some p)
    changed := Function.update v.changed id true }

/-- An empty page `id` with one pin. -/
def add (v : View) (id : PageId) : View :=
  { v with
    pages := Function.update v.pages id (some (Page.ofId id))
    pins := Function.update v.pins id 1 }

/-- The view of a client when nobody has a page pinned. -/
def quiet (n : Nat) (m : PageId → Option Page) : View := ⟨n, m, fun _ => 0, fun _ => false⟩

/-- There are as many pinned pages as frames. -/
def Exhausted (v : View) : Prop :=
  ∃ ids : List PageId, ids.Nodup ∧ v.frames ≤ ids.length ∧ ∀ id ∈ ids, 0 < v.pins id

end View

namespace BufferPoolManager

variable {b b' : BufferPoolManager} {v : View}

/-- A frame that `FindFreeFrame` may hand out. -/
def Available (b : BufferPoolManager) (f : FrameId) : Prop :=
  f ∈ b.freeList ∨ f ∈ b.replacer.lruList

/-- The pins on page `id`. -/
def pinsOf (b : BufferPoolManager) (id : PageId) : Nat :=
  match b.pageTable id with
  | some f => (b.metadata f).pinCount.toNat
  | none => 0

/-- The frame holds a page that somebody has pinned. -/
def Pinned (b : BufferPoolManager) (v : View) (f : FrameId) : Prop :=
  ∃ id, b.pageTable id = some f ∧ 0 < v.pins id

/-- The pool represents every page of the file but the header page. -/
def Covers (b : BufferPoolManager) (m : PageId → Option Page) : Prop :=
  ∀ id, id ≠ 0 → id < b.disk.header.pageCount → (m id).isSome

/-- The pool `b` shows its clients the view `v`. -/
structure Shows (b : BufferPoolManager) (v : View) : Prop where
  frames : b.poolSize = v.frames
  rep : b.Represents v.pages fun id => v.changed id = true
  pins : ∀ id, b.pinsOf id = v.pins id
  covers : b.Covers v.pages
  available : ∀ f < b.poolSize, b.Available f ∨ b.Pinned v f

/-- The pages that exist are the ones in the view. -/
theorem Shows.isSome_iff (h : b.Shows v) {id : PageId} :
    (v.pages id).isSome ↔ id ≠ 0 ∧ id < b.disk.header.pageCount := by
  constructor
  · intro hs
    obtain ⟨q, hq⟩ := Option.isSome_iff_exists.mp hs
    exact ⟨(h.rep.holds id q hq).ne_zero, (h.rep.holds id q hq).lt⟩
  · exact fun hid => h.covers id hid.1 hid.2

theorem pinsOf_of_table {id : PageId} {f : FrameId} (hf : b.pageTable id = some f) :
    b.pinsOf id = (b.metadata f).pinCount.toNat := by rw [pinsOf, hf]

theorem pinsOf_of_absent {id : PageId} (hf : b.pageTable id = none) : b.pinsOf id = 0 := by
  rw [pinsOf, hf]

/-- Pinned pages are in different frames, so if every frame is pinned there are as many of them as
frames. -/
theorem Shows.exhausted (h : b.Shows v) (hall : ∀ f < b.poolSize, b.Pinned v f) :
    v.Exhausted := by
  choose! page hpage hpin using hall
  refine ⟨(List.range b.poolSize).map page, ?_, ?_, fun id hid => ?_⟩
  · refine List.Nodup.map_on (fun f hf g hg he => ?_) List.nodup_range
    have hf' := hpage f (List.mem_range.mp hf)
    have hg' := hpage g (List.mem_range.mp hg)
    exact Option.some.inj (hf'.symm.trans (he ▸ hg'))
  · simp [h.frames]
  · obtain ⟨f, hf, rfl⟩ := List.mem_map.mp hid
    exact hpin f (List.mem_range.mp hf)

/-! ## 2. Finding a frame

`FindFreeFrame` may evict a page, which the view does not notice.  In between, the pool has a frame
with no page in it; `ShowsBut` is the pool at that moment. -/

/-- The fields `EvictFrame` leaves alone. -/
theorem evictFrame_lists (b : BufferPoolManager) (f : FrameId) :
    (b.evictFrame f).freeList = b.freeList ∧ (b.evictFrame f).replacer = b.replacer ∧
      (b.evictFrame f).poolSize = b.poolSize ∧ (b.evictFrame f).disk.header = b.disk.header := by
  simp only [evictFrame]
  cases (b.metadata f).isDirty
  · exact ⟨rfl, rfl, rfl, rfl⟩
  · exact ⟨rfl, rfl, rfl, DiskManager.writePage_header _ _ _⟩

theorem evictFrame_metadata (b : BufferPoolManager) {f g : FrameId} (hg : g ≠ f) :
    (b.evictFrame f).metadata g = b.metadata g := by
  simp only [evictFrame]
  cases (b.metadata f).isDirty
  · exact Function.update_of_ne hg _ _
  · exact (Function.update_of_ne hg _ _).trans (Function.update_of_ne hg _ _)

/-- `FindFreeFrame` took frame `f` out of `b`, which left `b'`. -/
structure Freed (b : BufferPoolManager) (f : FrameId) (b' : BufferPoolManager) : Prop where
  poolSize : b'.poolSize = b.poolSize
  header : b'.disk.header = b.disk.header
  available : ∀ g, g ≠ f → b.Available g → b'.Available g
  metadata : ∀ g, g ≠ f → b'.metadata g = b.metadata g
  table : ∀ id g, g ≠ f → (b'.pageTable id = some g ↔ b.pageTable id = some g)
  unpinned : ∀ id, b.pageTable id = some f → (b.metadata f).pinCount = 0

theorem WellFormed.findFreeFrame (h : b.WellFormed) {f : FrameId}
    (hr : b.findFreeFrame = (some f, b')) : Freed b f b' := by
  simp only [BufferPoolManager.findFreeFrame] at hr
  split at hr
  · rename_i g rest hfree
    obtain ⟨hg, rfl⟩ := Prod.mk.inj hr
    obtain rfl := Option.some.inj hg
    have hf := h.free_lt g (hfree ▸ List.mem_cons_self)
    refine ⟨rfl, rfl, fun k hk hav => ?_, fun _ _ => rfl, fun _ _ _ => Iff.rfl, fun id hid => ?_⟩
    · refine hav.imp_left fun hmem => ?_
      rw [hfree] at hmem
      exact (List.mem_cons.mp hmem).resolve_left hk
    · exact absurd hid (h.not_resident hf.2 id)
  · cases hlast : b.replacer.lruList.getLast? with
    | none => simp [LRUReplacer.evict, hlast] at hr
    | some victim =>
      simp only [LRUReplacer.evict, hlast, Prod.mk.injEq, Option.some.injEq] at hr
      obtain ⟨rfl, rfl⟩ := hr
      have hmem : victim ∈ b.replacer.lruList := List.mem_of_getLast? hlast
      obtain ⟨⟨id₀, hid₀⟩, hpin⟩ := h.evictable victim hmem
      obtain ⟨h1, h2, h3, h4⟩ :=
        evictFrame_lists { b with replacer := ⟨b.replacer.lruList.dropLast⟩ } victim
      refine ⟨h3, h4, fun k hk hav => ?_, fun k hk => evictFrame_metadata _ hk, fun id k hk => ?_,
        fun _ _ => hpin⟩
      · rw [Available, h1, h2]
        refine hav.imp_right fun hin => ?_
        rw [← List.dropLast_append_getLast? _ hlast] at hin
        exact (List.mem_append.mp hin).resolve_right fun hv => hk (List.mem_singleton.mp hv)
      · rw [evictFrame_pageTable]
        have hpage : (b.metadata victim).pageId = id₀ := ((h.table_iff id₀ victim).mp hid₀).1
        split
        · rename_i heq
          have hid : id = id₀ := heq.trans hpage
          refine ⟨fun hn => absurd hn (by simp), fun hs => ?_⟩
          rw [hid, hid₀] at hs
          exact absurd (Option.some.inj hs).symm hk
        · rfl

/-- `FindFreeFrame` fails when no frame is available. -/
theorem findFreeFrame_none (hr : b.findFreeFrame = (none, b')) (f : FrameId) :
    ¬ b.Available f := by
  simp only [BufferPoolManager.findFreeFrame] at hr
  split at hr
  · exact absurd (Prod.mk.inj hr).1 (by simp)
  · rename_i hfree
    cases hlast : b.replacer.lruList.getLast? with
    | some victim => simp [LRUReplacer.evict, hlast] at hr
    | none =>
      rw [List.getLast?_eq_none_iff] at hlast
      rw [Available, hfree, hlast]
      simp

/-- A pool that shows `v`, but for the frame `f`, which is vacant and about to be filled. -/
structure ShowsBut (b : BufferPoolManager) (v : View) (f : FrameId) : Prop where
  frames : b.poolSize = v.frames
  rep : b.Represents v.pages fun id => v.changed id = true
  pins : ∀ id, b.pinsOf id = v.pins id
  vacant : b.Vacant f
  available : ∀ g < b.poolSize, g ≠ f → b.Available g ∨ b.Pinned v g

theorem Shows.findFreeFrame (h : b.Shows v) {f : FrameId} (hr : b.findFreeFrame = (some f, b')) :
    b'.ShowsBut v f ∧ b'.Covers v.pages := by
  have hfreed := h.rep.wf.findFreeFrame hr
  obtain ⟨hrep, hvac, -, habsent⟩ := h.rep.findFreeFrame hr
  refine ⟨⟨hfreed.poolSize.trans h.frames, hrep, fun id => ?_, hvac f rfl, fun g hg hne => ?_⟩,
    fun i h0 hi => h.covers i h0 (hfreed.header ▸ hi)⟩
  · rw [← h.pins id]
    cases ht : b'.pageTable id with
    | some g =>
      have hgf : g ≠ f := fun he => hrep.wf.not_resident (hvac f rfl).2.1 id (he ▸ ht)
      rw [pinsOf_of_table ht, hfreed.metadata g hgf,
        pinsOf_of_table ((hfreed.table id g hgf).mp ht)]
    | none =>
      rw [pinsOf_of_absent ht]
      cases ht' : b.pageTable id with
      | none => exact (pinsOf_of_absent ht').symm
      | some g =>
        -- the page that lost its frame was not pinned
        have hgf : g = f := by
          by_contra hne
          rw [(hfreed.table id g hne).mpr ht'] at ht
          exact absurd ht (by simp)
        subst hgf
        rw [pinsOf_of_table ht', hfreed.unpinned id ht']
        rfl
  · rcases h.available g (hfreed.poolSize ▸ hg) with hav | ⟨id, hid, hpin⟩
    · exact .inl (hfreed.available g hne hav)
    · exact .inr ⟨id, (hfreed.table id g hne).mpr hid, hpin⟩

/-- Filling the vacant frame with the page of `id`, which gets its first pin. -/
theorem ShowsBut.occupy {f : FrameId} (h : b.ShowsBut v f) {id : PageId} {page : Page} {d : Bool}
    {m : PageId → Option Page} (hno : b.pageTable id = none)
    (hrep : (b.occupy f id page d).Represents m fun i => v.changed i = true)
    (hm : ∀ i, (v.pages i).isSome → (m i).isSome)
    (hcov : ∀ i, i ≠ 0 → i < b.disk.header.pageCount → (v.pages i).isSome ∨ i = id)
    (hid : (m id).isSome) :
    (b.occupy f id page d).Shows
      { v with pages := m, pins := Function.update v.pins id 1 } := by
  have hunocc := h.rep.wf.not_resident h.vacant.2.1
  refine ⟨h.frames, hrep, fun i => ?_, fun i h0 hi => ?_, fun g hg => ?_⟩
  · change _ = Function.update v.pins id 1 i
    rw [Function.update_apply]
    split
    · rename_i hi
      have ht : (b.occupy f id page d).pageTable i = some f := by
        rw [occupy_pageTable, if_pos hi]
      rw [pinsOf_of_table ht, occupy_metadata, if_pos rfl]
      rfl
    · rename_i hi
      rw [← h.pins i, pinsOf, pinsOf, occupy_pageTable, if_neg hi]
      cases ht : b.pageTable i with
      | none => rfl
      | some g =>
        have hgf : g ≠ f := fun he => hunocc i (he ▸ ht)
        simp only [occupy_metadata, if_neg hgf]
  · rcases hcov i h0 hi with hi | rfl
    · exact hm i hi
    · exact hid
  · by_cases hgf : g = f
    · refine .inr ⟨id, by rw [occupy_pageTable, if_pos rfl, hgf], ?_⟩
      exact lt_of_lt_of_eq Nat.one_pos (Function.update_self id 1 v.pins).symm
    · rcases h.available g hg hgf with hav | ⟨i, hi, hpin⟩
      · exact .inl hav
      · have hne : i ≠ id := fun he => absurd (hno.symm.trans (he ▸ hi)) (by simp)
        refine .inr ⟨i, by rw [occupy_pageTable, if_neg hne, hi], ?_⟩
        exact lt_of_lt_of_eq hpin (Function.update_of_ne hne 1 v.pins).symm

/-! ## 3. The calls

One theorem for each call of `PoolCall`, under the names of the calls. -/

/-- A new pin, or one less, for the frame of a resident page. -/
theorem pinsOf_setMeta (hwf : b.WellFormed) {id : PageId} {f : FrameId}
    (hf : b.pageTable id = some f)
    (mt : FrameMetadata) (r : LRUReplacer) (i : PageId) :
    pinsOf ({ b with replacer := r }.setMeta f mt) i
      = if i = id then mt.pinCount.toNat else b.pinsOf i := by
  have hmeta : ∀ g, ({ b with replacer := r }.setMeta f mt).metadata g
      = if g = f then mt else b.metadata g := fun g => setMeta_metadata _ _ _ _
  split
  · rename_i hi
    have ht : ({ b with replacer := r }.setMeta f mt).pageTable i = some f := hi ▸ hf
    rw [pinsOf_of_table ht, hmeta, if_pos rfl]
  · rename_i hi
    cases ht : b.pageTable i with
    | none => rw [pinsOf_of_absent ht]; exact pinsOf_of_absent ht
    | some g =>
      have hg : ({ b with replacer := r }.setMeta f mt).pageTable i = some g := ht
      rw [pinsOf_of_table ht, pinsOf_of_table hg, hmeta, if_neg (hwf.frame_ne hf ht hi)]

/-- **FetchPage on a resident page** adds a pin. -/
theorem Shows.pinFrame (h : b.Shows v) {id : PageId} {f : FrameId} (hf : b.pageTable id = some f)
    (hlt : v.pins id + 1 < 2 ^ 32) : (b.pinFrame f).Shows (v.pin id) := by
  have hpins := h.pins id
  rw [pinsOf_of_table hf] at hpins
  have hnot : f ∉ b.freeList := fun hmem =>
    h.rep.wf.not_resident (h.rep.wf.free_lt f hmem).2 id hf
  refine ⟨h.frames, h.rep.pinFrame hf, fun i => ?_, h.covers, fun g hg => ?_⟩
  · change pinsOf _ i = Function.update v.pins id (v.pins id + 1) i
    rw [BufferPoolManager.pinFrame, pinsOf_setMeta h.rep.wf hf, Function.update_apply]
    split
    · change ((b.metadata f).pinCount + 1).toNat = _
      rw [UInt32.toNat_add, UInt32.toNat_one, hpins]
      exact Nat.mod_eq_of_lt hlt
    · exact h.pins i
  · by_cases hgf : g = f
    · refine .inr ⟨id, hgf ▸ hf, ?_⟩
      exact lt_of_lt_of_eq (Nat.succ_pos _) (Function.update_self id _ v.pins).symm
    · refine (h.available g hg).imp (fun hav => ?_) fun ⟨i, hi, hpin⟩ => ⟨i, hi, ?_⟩
      · refine hav.imp_right fun hmem => ?_
        simp only [BufferPoolManager.pinFrame, setMeta]
        split
        · exact (List.mem_erase_of_ne hgf).mpr hmem
        · exact hmem
      · have hne : i ≠ id := fun he => hgf (Option.some.inj (hi.symm.trans (he ▸ hf)))
        exact lt_of_lt_of_eq hpin (Function.update_of_ne hne _ v.pins).symm

/-- **FetchPage** adds a pin to a page that exists, and fails on such a page only if every frame
is pinned. -/
theorem Shows.fetchPage (h : b.Shows v) {id : PageId} (h0 : id ≠ 0)
    (hlt : v.pins id + 1 < 2 ^ 32) :
    ((b.fetchPage id).1 = none → (b.fetchPage id).2.Shows v ∧
      ((v.pages id).isSome → v.Exhausted)) ∧
    ∀ f, (b.fetchPage id).1 = some f → (v.pages id).isSome ∧
      (b.fetchPage id).2.Shows (v.pin id) := by
  obtain ⟨hrep, -⟩ := h.rep.fetchPage id
  simp only [BufferPoolManager.fetchPage] at hrep ⊢
  cases ht : b.pageTable id with
  -- a hit: the page is resident, and gets a pin
  | some f =>
    refine ⟨fun hn => absurd hn (by simp), fun g _ => ⟨?_, h.pinFrame ht hlt⟩⟩
    exact h.covers id h0 (h.rep.wf.resident_lt id f ht)
  | none =>
    simp only [ht] at hrep ⊢
    cases hfree : b.findFreeFrame with
    | mk r b' =>
      simp only [hfree] at hrep ⊢
      cases r with
      -- no frame was found, so all of them hold pinned pages
      | none =>
        obtain ⟨-, -, hsame, -⟩ := h.rep.findFreeFrame hfree
        obtain rfl := hsame rfl
        refine ⟨fun _ => ⟨h, fun _ => h.exhausted fun f hf => ?_⟩, fun g hg => absurd hg (by simp)⟩
        exact (h.available f hf).resolve_left (findFreeFrame_none hfree f)
      | some f =>
        obtain ⟨hbut, hcov⟩ := h.findFreeFrame hfree
        obtain ⟨-, -, -, habsent⟩ := h.rep.findFreeFrame hfree
        simp only [] at hrep ⊢
        cases hread : b'.disk.readPage id with
        -- the read failed, which it does not for a page that exists; the frame is free again
        | none =>
          simp only [hread] at hrep ⊢
          refine ⟨fun _ => ⟨⟨hbut.frames, hrep, hbut.pins, hcov, fun g hg => ?_⟩, fun hs => ?_⟩,
            fun g hg => absurd hg (by simp)⟩
          · by_cases hgf : g = f
            · exact .inl (.inl (hgf ▸ List.mem_append_right _ List.mem_cons_self))
            · rcases hbut.available g hg hgf with hav | hpin
              · exact .inl (hav.imp_left fun hmem => List.mem_append_left _ hmem)
              · exact .inr hpin
          · obtain ⟨q, hq⟩ := Option.isSome_iff_exists.mp hs
            have := DiskManager.readPage_of_lt b'.disk (hbut.rep.holds id q hq).lt
            exact absurd (hread.symm.trans this) (by simp)
        -- the page was read into a frame that no page was in
        | some buffer =>
          simp only [hread] at hrep ⊢
          obtain ⟨hidlt, -⟩ := DiskManager.readPage_eq_some hread
          have hs := hcov id h0 hidlt
          have hpin0 : v.pins id = 0 := (hbut.pins id).symm.trans (pinsOf_of_absent (habsent id ht))
          have hview : v.pin id = { v with pins := Function.update v.pins id 1 } := by
            rw [View.pin, hpin0]
          refine ⟨fun hn => absurd hn (by simp), fun g _ => ⟨hs, hview ▸ ?_⟩⟩
          exact hbut.occupy (habsent id ht) hrep (fun _ hi => hi)
            (fun i hi0 hi => .inl (hcov i hi0 hi)) hs

/-- **NewPage** adds an empty page, pinned once, and fails only if every frame is pinned. -/
theorem Shows.newPage (h : b.Shows v) (hvalid : b.newPageId ≠ some invalidPageId) :
    (b.newPageId = none → b.newPage.2.Shows v ∧ v.Exhausted) ∧
      ∀ id, b.newPageId = some id → id ≠ 0 ∧ id ≠ invalidPageId ∧ v.pages id = none ∧
        v.pins id = 0 ∧ b.newPage.2.Shows (v.add id) := by
  obtain ⟨hnone, hsome⟩ := h.rep.newPage hvalid
  simp only [newPageId, Option.map_eq_none_iff] at hvalid hsome ⊢
  refine ⟨fun hn => ⟨(hnone hn).symm ▸ h, h.exhausted fun f hf => ?_⟩, fun id hid => ?_⟩
  · -- no frame was found
    refine (h.available f hf).resolve_left ?_
    cases hfree : b.findFreeFrame with
    | mk r b' =>
      cases r with
      | none => exact findFreeFrame_none hfree f
      | some g => simp [BufferPoolManager.newPage, hfree] at hn
  · obtain ⟨f, hf, -⟩ := Option.map_eq_some_iff.mp hid
    obtain ⟨id', hid', hfresh, htab, hrep⟩ := hsome f hf
    obtain rfl := Option.some.inj (hid.symm.trans hid')
    have hold := hrep.holds id _ (Function.update_self _ _ _)
    have hne : id ≠ invalidPageId := fun he => hvalid (he ▸ hid)
    refine ⟨hold.ne_zero, hne, hfresh, ?_, ?_⟩
    · -- nobody has pinned a page that did not exist
      cases ht : b.pageTable id with
      | none => rw [← h.pins id, pinsOf_of_absent ht]
      | some g =>
        have hs := h.covers id hold.ne_zero (h.rep.wf.resident_lt id g ht)
        rw [hfresh] at hs
        exact absurd hs (by simp)
    · -- the frame that was found takes the new page
      cases hfree : b.findFreeFrame with
      | mk r b' =>
        cases r with
        | none => simp [BufferPoolManager.newPage, hfree] at hf
        | some g =>
          obtain ⟨hbut, hcov⟩ := h.findFreeFrame hfree
          have hnew : b.newPage = (some g, BufferPoolManager.occupy
              { b' with disk := b'.disk.allocatePage.2 } g b'.disk.allocatePage.1
              (Page.ofId b'.disk.allocatePage.1) true) := by
            simp only [BufferPoolManager.newPage, hfree]
          have hnewId : id = b'.disk.allocatePage.1 := by
            rw [hnew] at hid
            simp only [Option.map_some, occupy_pages, if_true, Option.some.injEq] at hid
            exact hid.symm
          rw [hnew, ← hnewId] at hrep ⊢
          obtain ⟨heq, -, hcount, -, -⟩ := hbut.rep.wf.growing.allocatePage (hnewId ▸ hne)
          have hbut' : ShowsBut { b' with disk := b'.disk.allocatePage.2 } v g :=
            ⟨hbut.frames, hbut.rep.allocate (hnewId ▸ hne), hbut.pins, hbut.vacant, hbut.available⟩
          have hno : b'.pageTable id = none := by
            refine Option.eq_none_iff_forall_ne_some.mpr fun k hk => ?_
            have hlt := hbut.rep.wf.resident_lt id k hk
            rw [hnewId, heq] at hlt
            exact UInt32.lt_irrefl _ hlt
          -- no page of the view goes
          have hmono : ∀ i, (v.pages i).isSome →
              (Function.update v.pages id (some (Page.ofId id)) i).isSome := by
            intro i hi
            rw [Function.update_apply]
            split
            · rfl
            · exact hi
          -- the file is longer by one page, and that is the new one
          refine hbut'.occupy hno hrep hmono (fun i h0 hi => ?_) (by rw [Function.update_self]; rfl)
          by_cases hi' : i < b'.disk.header.pageCount
          · exact .inl (hcov i h0 hi')
          · refine .inr (UInt32.toNat_inj.mp ?_)
            have h1 : i.toNat < b'.disk.allocatePage.2.header.pageCount.toNat :=
              UInt32.lt_iff_toNat_lt.mp hi
            have h2 := UInt32.le_iff_toNat_le.mp (UInt32.not_lt.mp hi')
            rw [hnewId, heq]
            omega

/-- `NewPage` returns the first page past the end of a file that only grows. -/
theorem WellFormed.newPageId (h : b.WellFormed) :
    b.newPageId = none ∨ b.newPageId = some b.disk.header.pageCount := by
  cases hfree : b.findFreeFrame with
  | mk r b' =>
    cases r with
    | none => exact .inl (by simp only [BufferPoolManager.newPageId, newPage, hfree]; rfl)
    | some f =>
      have hfreed := h.findFreeFrame hfree
      have hgrow : b'.disk.Growing := by
        have hrep : b.Represents (fun _ => none) fun _ => False :=
          ⟨h, fun _ h => h.elim, fun _ _ h => absurd h (by simp)⟩
        exact (hrep.findFreeFrame hfree).1.wf.growing
      refine .inr ?_
      simp only [BufferPoolManager.newPageId, newPage, hfree, Option.map_some, occupy_pages,
        if_true, hgrow.allocatePage_eq, hfreed.header]
      rfl

/-- **UnpinPage**: a page without pins is refused; the last unpin of a page that was changed has
to declare the change. -/
theorem Shows.unpinPage (h : b.Shows v) (id : PageId) (isDirty : Bool) :
    (v.pins id = 0 → (b.unpinPage id isDirty).1 = false ∧ (b.unpinPage id isDirty).2.Shows v) ∧
      (v.pins id ≠ 0 → (v.pins id = 1 → v.changed id = true → isDirty = true) →
        (b.unpinPage id isDirty).1 = true ∧
          (b.unpinPage id isDirty).2.Shows (v.unpin id isDirty)) := by
  refine ⟨fun h0 => ?_, fun h0 hlast => ?_⟩
  · -- nobody has page `id` pinned, and the call is refused
    simp only [BufferPoolManager.unpinPage]
    cases ht : b.pageTable id with
    | none => exact ⟨rfl, h⟩
    | some f =>
      have hpin : (b.metadata f).pinCount = 0 := by
        refine UInt32.toNat_inj.mp ?_
        rw [← pinsOf_of_table ht, h.pins id, h0]
        rfl
      simp only [hpin, if_true]
      exact ⟨trivial, h⟩
  · cases ht : b.pageTable id with
    | none => exact absurd ((h.pins id).symm.trans (pinsOf_of_absent ht)) h0
    | some f =>
      have hpins := (pinsOf_of_table ht).symm.trans (h.pins id)
      have hpin : ¬ (b.metadata f).pinCount = 0 :=
        fun he => by rw [he] at hpins; exact h0 hpins.symm
      -- the last pin of a changed page has to declare the change
      have hdecl : b.IsLastPin id → v.changed id = true → isDirty = true := by
        rintro ⟨g, hg, hone⟩
        obtain rfl := Option.some.inj (ht.symm.trans hg)
        rw [hone] at hpins
        exact hlast hpins.symm
      have hrep := h.rep.unpinPage hdecl
      have hlru : f ∈ b.freeList → False := fun hmem =>
        h.rep.wf.not_resident (h.rep.wf.free_lt f hmem).2 id ht
      have hpred : ((b.metadata f).pinCount - 1).toNat = v.pins id - 1 := by
        rw [UInt32.toNat_sub_of_le, hpins]
        · rfl
        · exact UInt32.le_iff_toNat_le.mpr (by rw [hpins]; exact Nat.one_le_iff_ne_zero.mpr h0)
      simp only [BufferPoolManager.unpinPage, ht, hpin, if_false] at hrep ⊢
      -- a frame whose last pin went is one that can be handed out
      refine ⟨trivial, h.frames, hrep.of_iff fun i => ?_, fun i => ?_, h.covers, fun g hg => ?_⟩
      · simp only [View.unpin]
        cases isDirty
        · simp
        · by_cases hi : i = id <;> simp [hi]
      · change pinsOf _ i = Function.update v.pins id (v.pins id - 1) i
        rw [pinsOf_setMeta h.rep.wf ht, Function.update_apply]
        split
        · exact hpred
        · exact h.pins i
      · -- the frames that can be handed out, and those whose pages are pinned
        by_cases hgf : g = f
        · by_cases hz : (b.metadata f).pinCount - 1 = 0
          · simp only [Available, setMeta, hz, if_true, LRUReplacer.recordAccess]
            exact .inl (.inr (hgf ▸ List.mem_cons_self))
          · refine .inr ⟨id, hgf ▸ ht, ?_⟩
            refine lt_of_lt_of_eq ?_ (Function.update_self id _ v.pins).symm
            rw [← hpred]
            exact Nat.pos_of_ne_zero fun he => hz (UInt32.toNat_inj.mp he)
        · refine (h.available g hg).imp (fun hav => ?_) fun ⟨i, hi, hp⟩ => ⟨i, hi, ?_⟩
          · refine hav.imp_right fun hmem => ?_
            simp only [setMeta]
            split
            · exact List.mem_cons_of_mem _ ((List.mem_erase_of_ne hgf).mpr hmem)
            · exact hmem
          · have hne : i ≠ id := fun he => hgf (Option.some.inj (hi.symm.trans (he ▸ ht)))
            exact lt_of_lt_of_eq hp (Function.update_of_ne hne _ v.pins).symm

/-- A pinned page is resident. -/
theorem Shows.resident (h : b.Shows v) {id : PageId} (hpin : 0 < v.pins id) :
    ∃ f, b.pageTable id = some f ∧ (b.metadata f).pinCount ≠ 0 := by
  cases ht : b.pageTable id with
  | none => rw [← h.pins id, pinsOf_of_absent ht] at hpin; exact absurd hpin (Nat.lt_irrefl 0)
  | some f =>
    refine ⟨f, rfl, fun hz => ?_⟩
    rw [← h.pins id, pinsOf_of_table ht, hz] at hpin
    exact absurd hpin (Nat.lt_irrefl 0)

/-- **Reading through a pointer** gives the page, up to the bytes that serialization owns. -/
theorem Shows.residentPage (h : b.Shows v) {id : PageId} {q : Page} (hq : v.pages id = some q)
    (hpin : 0 < v.pins id) : (b.residentPage id).SameContent q := by
  obtain ⟨f, hf, -⟩ := h.resident hpin
  rw [BufferPoolManager.residentPage, hf]
  exact ((h.rep.holds id q hq).present f hf).1

/-- **Writing through a pointer** replaces the page. -/
theorem Shows.setResidentPage (h : b.Shows v) {id : PageId} (hs : (v.pages id).isSome)
    (hpin : 0 < v.pins id) {p : Page} (hp : p.DirectoryFits) :
    (b.setResidentPage id p).Shows (v.write id p) := by
  obtain ⟨f, hf, hne⟩ := h.resident hpin
  have hrep := h.rep.setPage hf hne hp
  have hm : (fun i => if i = id ∧ (v.pages i).isSome then some p else v.pages i)
      = Function.update v.pages id (some p) := by
    funext i
    rw [Function.update_apply]
    by_cases hi : i = id
    · rw [if_pos hi, if_pos ⟨hi, hi ▸ hs⟩]
    · rw [if_neg hi, if_neg fun h => hi h.1]
  rw [hm] at hrep
  rw [BufferPoolManager.setResidentPage, hf]
  refine ⟨h.frames, hrep.of_iff fun i => ?_, h.pins, fun i h0 hi => ?_, h.available⟩
  · simp only [View.write, Function.update_apply]
    by_cases hi : i = id <;> simp [hi]
  · simp only [View.write, Function.update_apply]
    split
    · rfl
    · exact h.covers i h0 hi

theorem flushFrame_lists (b : BufferPoolManager) (f : FrameId) :
    (b.flushFrame f).freeList = b.freeList ∧ (b.flushFrame f).replacer = b.replacer ∧
      (b.flushFrame f).poolSize = b.poolSize ∧ (b.flushFrame f).disk.header = b.disk.header := by
  simp only [flushFrame]
  split
  · exact ⟨rfl, rfl, rfl, DiskManager.writePage_header _ _ _⟩
  · exact ⟨rfl, rfl, rfl, rfl⟩

theorem flushFrame_pins (b : BufferPoolManager) (f : FrameId) :
    (b.flushFrame f).pageTable = b.pageTable ∧
      ∀ g, ((b.flushFrame f).metadata g).pinCount = (b.metadata g).pinCount := by
  simp only [flushFrame]
  split
  · refine ⟨rfl, fun g => ?_⟩
    rw [writeBack_metadata]
    split
    · rename_i hg; rw [hg]
    · rfl
  · exact ⟨rfl, fun _ => rfl⟩

/-- **Flushing** changes nothing that clients see. -/
theorem Shows.flushAllPages (h : b.Shows v) :
    b.flushAllPages.Shows v ∧ b.flushAllPages.disk.header = b.disk.header := by
  refine Run.invariant (I := fun b' : BufferPoolManager =>
    b'.Shows v ∧ b'.disk.header = b.disk.header) (fun b' f ⟨h', hh⟩ => ?_) ⟨h, rfl⟩ _
  obtain ⟨h1, h2, h3, h4⟩ := flushFrame_lists b' f
  obtain ⟨h5, h6⟩ := flushFrame_pins b' f
  refine ⟨⟨h3.trans h'.frames, h'.rep.flushFrame f, fun i => ?_, fun i h0 hi =>
    h'.covers i h0 (h4 ▸ hi), ?_⟩,
    h4.trans hh⟩
  · rw [← h'.pins i, pinsOf, pinsOf, h5]
    cases b'.pageTable i with
    | none => rfl
    | some g => exact congrArg UInt32.toNat (h6 g)
  · intro g hg
    rw [Available, h1, h2, Pinned, h5]
    exact h'.available g (h3 ▸ hg)

end BufferPoolManager

end CourtDB
