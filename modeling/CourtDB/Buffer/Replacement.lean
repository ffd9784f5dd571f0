/-
# Which page is evicted

The policy of the pool is about the past: the page to go is the one whose last pin was given back
longest ago.  The pool has no clock.  It has a list of frames, and a map into that list that lets it
take frames out of the middle when their pages are fetched again.

`History` is a pool with what its callers know of the past: the pins they hold on each page, and
when the last pin on it was given back.  Both are counted by the callers from the answers they get,
not read from the pool, so the policy can be stated without the pool's own books (`Policy`):

* a page with pins stays in its frame;
* a call is refused for want of a frame only when every frame has a page with pins;
* a page that loses its frame has no pins, and of all such pages it was left longest ago.

`Tracked` is the invariant: the list of the replacer holds the frames of the pages without pins, in
order of recency, the front being the latest.  `UnpinPage` puts a frame at the front when the last
pin goes, `FetchPage` takes it out, and a victim is taken from the end.

Deleted pages are left out: `DeletePage` frees a frame outside the policy.
-/
import CourtDB.Buffer.FrameClasses
import CourtDB.Lib.Recency

namespace CourtDB

open BufferPoolManager Recency

/-! ## 1. Histories

Time is the number of calls made.  A page that was never given back has no time, and it needs none:
it is pinned as long as it is resident. -/

/-- A pool, the pins its callers hold, and the time at which each page was left without pins. -/
structure History where
  pool : BufferPoolManager
  pins : PageId → Nat
  released : PageId → Nat
  time : Nat

namespace History

/-- A new pool over the disk `d`. -/
def start (n : Nat) (d : DiskManager) : History := ⟨create n d, fun _ => 0, fun _ => 0, 0⟩

/-- The callers count their pins by what the calls return. -/
def countPins (s : History) : FrameCall → PageId → Nat
  | .newPage =>
    match s.pool.newPageId with
    | some id => Function.update s.pins id 1
    | none => s.pins
  | .fetchPage id =>
    if (s.pool.fetchPage id).1.isSome then Function.update s.pins id (s.pins id + 1) else s.pins
  | .unpinPage id isDirty =>
    if (s.pool.unpinPage id isDirty).1 then Function.update s.pins id (s.pins id - 1) else s.pins
  | .deletePage _ | .flushPage _ | .flushAllPages => s.pins

/-- They note the time when they give back the last pin on a page. -/
def noteRelease (s : History) : FrameCall → PageId → Nat
  | .unpinPage id isDirty =>
    if (s.pool.unpinPage id isDirty).1 ∧ s.pins id = 1 then Function.update s.released id s.time
    else s.released
  | .newPage | .fetchPage _ | .deletePage _ | .flushPage _ | .flushAllPages => s.released

def step (s : History) (c : FrameCall) : History :=
  ⟨s.pool.call c, s.countPins c, s.noteRelease c, s.time + 1⟩

/-- The calls in question: no page is deleted, pages that are fetched have been allocated, page ids
and pin counters have not run out. -/
def Served (s : History) : FrameCall → Prop
  | .newPage => s.pool.newPageId ≠ some invalidPageId
  | .fetchPage id => id < s.pool.disk.header.pageCount ∧ s.pins id + 1 < 2 ^ 32
  | .unpinPage _ _ | .flushPage _ | .flushAllPages => True
  | .deletePage _ => False

instance (s : History) : DecidablePred s.Served
  | .newPage => inferInstanceAs (Decidable (s.pool.newPageId ≠ some invalidPageId))
  | .fetchPage id =>
    inferInstanceAs (Decidable (id < s.pool.disk.header.pageCount ∧ s.pins id + 1 < 2 ^ 32))
  | .unpinPage _ _ | .flushPage _ | .flushAllPages => inferInstanceAs (Decidable True)
  | .deletePage _ => inferInstanceAs (Decidable False)

/-- Every frame holds a page that somebody has pinned. -/
def AllPinned (s : History) : Prop :=
  ∀ f < s.pool.poolSize, ∃ id, s.pool.pageTable id = some f ∧ 0 < s.pins id

/-- **The replacement policy**, for the next call: pinned pages stay where they are, a call is
refused for want of a frame only when every frame is pinned, and a page that goes is the one that
has been without pins for longest. -/
structure Policy (s : History) (c : FrameCall) : Prop where
  counted : ∀ id, s.pool.pinsOf id = s.pins id
  stays : ∀ id, 0 < s.pins id →
    ∃ f, s.pool.pageTable id = some f ∧ (s.step c).pool.pageTable id = some f
  newPage_null : c = .newPage → s.pool.newPage.1 = none → s.AllPinned
  fetchPage_null : ∀ id, c = .fetchPage id → (s.pool.fetchPage id).1 = none →
    s.pool.pageTable id = none ∧ s.AllPinned
  evicts : ∀ id f, s.pool.pageTable id = some f → (s.step c).pool.pageTable id ≠ some f →
    s.pool.freeList = [] ∧ s.pins id = 0 ∧
      ∀ id', (s.pool.pageTable id').isSome → s.pins id' = 0 → id' ≠ id →
        s.released id < s.released id'

/-! ## 2. The invariant

What the callers count and what the metadata hold is the same, for resident pages. -/

/-- When the page in a frame was left without pins. -/
def lastUse (s : History) (f : FrameId) : Nat := s.released (s.pool.metadata f).pageId

/-- The replacer lists the frames in order of recency. -/
structure Tracked (s : History) : Prop where
  accounted : s.pool.Accounted none
  rep : ∃ m, s.pool.Represents m fun _ => False
  pins : ∀ id, s.pool.pinsOf id = s.pins id
  recent : Recent s.lastUse s.pool.replacer.lruList
  past : ∀ f ∈ s.pool.replacer.lruList, s.lastUse f < s.time

theorem tracked_start (n : Nat) {d : DiskManager} (hd : d.Growing) : (start n d).Tracked where
  accounted := accounted_create n d
  rep := ⟨fun _ => none, wellFormed_create n hd, fun _ h => h.elim, fun _ _ h => absurd h (by simp)⟩
  pins _ := rfl
  recent := recent_nil
  past _ hf := absurd hf List.not_mem_nil

variable {s t : History} {b b' c : BufferPoolManager} {id : PageId} {f : FrameId}

namespace Tracked

/-- A page without pins is in the replacer's list. -/
theorem mem_lru (h : s.Tracked) (hf : s.pool.pageTable id = some f) :
    f ∈ s.pool.replacer.lruList ↔ s.pins id = 0 := by
  rw [h.accounted.mem_lru hf, ← h.pins id, pinsOf_of_table hf]
  exact ⟨fun hz => by rw [hz]; rfl, fun hz => UInt32.toNat_inj.mp hz⟩

/-- The last use of a frame is the last time its page was given back. -/
theorem lastUse_eq (h : s.Tracked) (hf : s.pool.pageTable id = some f) :
    s.lastUse f = s.released id := by
  rw [lastUse, ((h.accounted.table_iff id f).mp hf).2.1]

/-- A pool with nothing free and nothing to evict has all its frames pinned. -/
theorem allPinned (h : s.Tracked) (hfree : s.pool.freeList = [])
    (hlru : s.pool.replacer.lruList = []) : s.AllPinned := by
  intro f hf
  have hocc : (s.pool.metadata f).pageId ≠ invalidPageId := by
    intro hno
    have hmem := (h.accounted.free_iff f).mpr ⟨hf, hno⟩
    simp [hfree] at hmem
  have htable := (h.accounted.table_iff _ f).mpr ⟨hf, rfl, hocc⟩
  refine ⟨_, htable, Nat.pos_of_ne_zero fun hz => ?_⟩
  have hmem := (h.mem_lru htable).mpr hz
  rw [hlru] at hmem
  exact List.not_mem_nil hmem

/-- A page that has a pin is resident. -/
theorem resident (h : s.Tracked) (hpin : 0 < s.pins id) : ∃ f, s.pool.pageTable id = some f := by
  rw [← h.pins id] at hpin
  cases hf : s.pool.pageTable id with
  | some f => exact ⟨f, rfl⟩
  | none =>
    rw [pinsOf_of_absent hf] at hpin
    exact absurd hpin (Nat.lt_irrefl 0)

end Tracked

/-! ## 3. Taking a frame

A free frame is taken before any page is evicted.  `Taken` and `Filled` describe a pool before and
after the new page is in the frame; `FetchPage` and `NewPage` share both. -/

/-- `FindFreeFrame` in its three cases. -/
theorem findFreeFrame_cases (b : BufferPoolManager) :
    (∃ f rest, b.freeList = f :: rest ∧ b.findFreeFrame = (some f, { b with freeList := rest })) ∨
    (b.freeList = [] ∧ b.replacer.lruList = [] ∧ b.findFreeFrame = (none, b)) ∨
    ∃ rest victim, b.freeList = [] ∧ b.replacer.lruList = rest ++ [victim] ∧
      b.findFreeFrame = (some victim, { b with replacer := ⟨rest⟩ }.evictFrame victim) := by
  unfold BufferPoolManager.findFreeFrame
  cases hfree : b.freeList with
  | cons f rest => exact Or.inl ⟨f, rest, rfl, rfl⟩
  | nil =>
    cases hlast : b.replacer.lruList.getLast? with
    | none => exact Or.inr (Or.inl ⟨rfl, List.getLast?_eq_none_iff.mp hlast, by
        simp only [LRUReplacer.evict, hlast]⟩)
    | some victim => exact Or.inr (Or.inr ⟨_, victim, rfl,
        (List.dropLast_append_getLast? _ hlast).symm, by simp only [LRUReplacer.evict, hlast]⟩)

/-- Frame `f` was taken out of `b`, which left `b'`: the page in it, if there was one, was at the
end of the replacer's list. -/
structure Taken (b : BufferPoolManager) (f : FrameId) (b' : BufferPoolManager) : Prop where
  freed : Freed b f b'
  vacant : ∀ id, b'.pageTable id ≠ some f
  sublist : b'.replacer.lruList.Sublist b.replacer.lruList
  notMem : f ∉ b'.replacer.lruList
  last : ∀ id, b.pageTable id = some f →
    b.freeList = [] ∧ b.replacer.lruList = b'.replacer.lruList ++ [f]

theorem Tracked.taken (h : s.Tracked) (hfind : s.pool.findFreeFrame = (some f, b')) :
    Taken s.pool f b' := by
  obtain ⟨m, hrep⟩ := h.rep
  have hfreed := hrep.wf.findFreeFrame hfind
  obtain ⟨hrep', hvac, -, -⟩ := hrep.findFreeFrame hfind
  have hvacant := hrep'.wf.not_resident (hvac f rfl).2.1
  rcases findFreeFrame_cases s.pool with ⟨g, rest, hfree, heq⟩ | ⟨-, -, heq⟩ |
    ⟨rest, victim, hfree, hlru, heq⟩ <;> rw [heq] at hfind
  · obtain ⟨hg, rfl⟩ := Prod.mk.inj hfind
    obtain rfl := Option.some.inj hg
    have hno := ((h.accounted.free_iff g).mp (Or.inl (hfree ▸ List.mem_cons_self))).2
    refine ⟨hfreed, hvacant, List.Sublist.refl _, fun hmem => ?_, fun id hid => ?_⟩
    · exact ((h.accounted.lru_iff g).mp hmem).2.1 hno
    · exact absurd hid (hrep.wf.not_resident hno id)
  · exact absurd (Prod.mk.inj hfind).1 (by simp)
  · obtain ⟨hg, rfl⟩ := Prod.mk.inj hfind
    obtain rfl := Option.some.inj hg
    have hlists := (evictFrame_lists { s.pool with replacer := ⟨rest⟩ } victim).2.1
    have hnodup := hlru ▸ h.accounted.lru_nodup
    refine ⟨hfreed, hvacant, ?_, ?_, fun _ _ => ⟨hfree, ?_⟩⟩ <;> rw [hlists]
    · rw [hlru]
      exact List.sublist_append_left rest [victim]
    · intro hmem
      exact (List.nodup_append.mp hnodup).2.2 victim hmem victim List.mem_cons_self rfl
    · exact hlru

/-- The frame that was taken holds page `id` now, with one pin. -/
structure Filled (b' : BufferPoolManager) (f : FrameId) (id : PageId) (c : BufferPoolManager) :
    Prop where
  absent : b'.pageTable id = none
  table : c.pageTable = Function.update b'.pageTable id (some f)
  lru : c.replacer = b'.replacer
  metadata : ∀ g, g ≠ f → c.metadata g = b'.metadata g
  pinCount : (c.metadata f).pinCount = 1

theorem filled_occupy (habsent : b'.pageTable id = none) (d : DiskManager) (page : Page)
    (isDirty : Bool) : Filled b' f id (({ b' with disk := d } : BufferPoolManager).occupy f id page
      isDirty) :=
  ⟨habsent, rfl, rfl, fun _ hg => Function.update_of_ne hg _ _, by
    rw [occupy_metadata, if_pos rfl]⟩

/-- The pages that are still resident are still in their frames. -/
theorem Taken.table (ht : Taken b f b') (hc : Filled b' f id c) {i : PageId} {g : FrameId}
    (hi : b.pageTable i = some g) (hg : g ≠ f) : c.pageTable i = some g := by
  have hkept := (ht.freed.table i g hg).mpr hi
  have hne : i ≠ id := by
    rintro rfl
    rw [hc.absent] at hkept
    exact absurd hkept (by simp)
  rw [hc.table, Function.update_of_ne hne]
  exact hkept

/-- The search for a frame pins nothing. -/
theorem Taken.pinsOf (ht : Taken b f b') (i : PageId) : b'.pinsOf i = b.pinsOf i := by
  cases hnew : b'.pageTable i with
  | some g =>
    have hg : g ≠ f := fun he => ht.vacant i (he ▸ hnew)
    rw [pinsOf_of_table hnew, pinsOf_of_table ((ht.freed.table i g hg).mp hnew),
      ht.freed.metadata g hg]
  | none =>
    rw [pinsOf_of_absent hnew]
    cases hold : b.pageTable i with
    | none => exact (pinsOf_of_absent hold).symm
    | some g =>
      have hg : g = f := by
        by_contra hne
        rw [(ht.freed.table i g hne).mpr hold] at hnew
        exact absurd hnew (by simp)
      subst hg
      rw [pinsOf_of_table hold, ht.freed.unpinned i hold]
      rfl

/-- One pin on the new page, and the others as before. -/
theorem Taken.pinsOf_filled (ht : Taken b f b') (hc : Filled b' f id c) (i : PageId) :
    c.pinsOf i = Function.update b.pinsOf id 1 i := by
  by_cases hi : i = id
  · subst hi
    have hself : c.pageTable i = some f := by rw [hc.table, Function.update_self]
    rw [Function.update_self, pinsOf_of_table hself, hc.pinCount]
    rfl
  · have hsame : c.pageTable i = b'.pageTable i := by rw [hc.table, Function.update_of_ne hi]
    rw [Function.update_of_ne hi, ← ht.pinsOf i]
    cases hg : b'.pageTable i with
    | none => rw [pinsOf_of_absent hg, pinsOf_of_absent (hsame.trans hg)]
    | some g =>
      have hgf : g ≠ f := fun he => ht.vacant i (he ▸ hg)
      rw [pinsOf_of_table hg, pinsOf_of_table (hsame.trans hg), hc.metadata g hgf]

/-- The frames that are left in the list are those of the same pages. -/
theorem Tracked.recent_filled (h : s.Tracked) (ht : Taken s.pool f b') (hc : Filled b' f id c)
    (hpool : t.pool = c) (hrel : t.released = s.released) (htime : t.time = s.time + 1) :
    Recent t.lastUse t.pool.replacer.lruList ∧
      ∀ g ∈ t.pool.replacer.lruList, t.lastUse g < t.time := by
  have hlru : t.pool.replacer.lruList = b'.replacer.lruList := by rw [hpool, hc.lru]
  have hsame : ∀ g ∈ b'.replacer.lruList, t.lastUse g = s.lastUse g := by
    intro g hg
    have hgf : g ≠ f := fun he => ht.notMem (he ▸ hg)
    rw [lastUse, lastUse, hrel, hpool, hc.metadata g hgf, ht.freed.metadata g hgf]
  rw [hlru, htime]
  refine ⟨(h.recent.sublist ht.sublist).congr hsame, fun g hg => ?_⟩
  rw [hsame g hg]
  exact Nat.lt_succ_of_lt (h.past g (ht.sublist.subset hg))

/-- **What is evicted.** -/
theorem Tracked.evicts (h : s.Tracked) (ht : Taken s.pool f b') (hc : Filled b' f id c)
    {i : PageId} {g : FrameId} (hi : s.pool.pageTable i = some g) (hgone : c.pageTable i ≠ some g) :
    s.pool.freeList = [] ∧ s.pins i = 0 ∧
      ∀ i', (s.pool.pageTable i').isSome → s.pins i' = 0 → i' ≠ i →
        s.released i < s.released i' := by
  have hg : g = f := by
    by_contra hne
    exact hgone (ht.table hc hi hne)
  subst hg
  obtain ⟨hfree, hlru⟩ := ht.last i hi
  have hmem : g ∈ s.pool.replacer.lruList := by rw [hlru]; simp
  refine ⟨hfree, (h.mem_lru hi).mp hmem, fun i' hres hpin hne => ?_⟩
  obtain ⟨g', hi'⟩ := Option.isSome_iff_exists.mp hres
  have hne' : g' ≠ g := by
    rintro rfl
    have h1 := ((h.accounted.table_iff i' g').mp hi').2.1
    exact hne (h1.symm.trans ((h.accounted.table_iff i g').mp hi).2.1)
  have hmem' := (h.mem_lru hi').mpr hpin
  rw [hlru] at hmem'
  have hrest := (List.mem_append.mp hmem').resolve_right fun he => hne' (List.mem_singleton.mp he)
  have hlt := (hlru ▸ h.recent).last_lt hrest
  rwa [h.lastUse_eq hi, h.lastUse_eq hi'] at hlt

/-! ## 4. The calls

One lemma for each call: the policy was followed, and the books are in order again. -/

/-- A call that leaves every page where it is. -/
theorem Tracked.policy_of_table {c : FrameCall} (h : s.Tracked)
    (htable : (s.pool.call c).pageTable = s.pool.pageTable)
    (hnew : c = .newPage → s.pool.newPage.1 = none → s.AllPinned)
    (hfetch : ∀ id, c = .fetchPage id → (s.pool.fetchPage id).1 = none →
      s.pool.pageTable id = none ∧ s.AllPinned) : s.Policy c where
  counted := h.pins
  stays id hpin := by
    obtain ⟨f, hf⟩ := h.resident hpin
    exact ⟨f, hf, (congrFun htable id).trans hf⟩
  newPage_null := hnew
  fetchPage_null := hfetch
  evicts id f hf hgone := absurd ((congrFun htable id).trans hf) hgone

/-- A call that fills a frame it took. -/
theorem Tracked.policy_of_filled {c : FrameCall} (h : s.Tracked) (ht : Taken s.pool f b')
    (hc : Filled b' f id (s.pool.call c))
    (hnew : c = .newPage → s.pool.newPage.1 ≠ none)
    (hfetch : ∀ id, c = .fetchPage id → (s.pool.fetchPage id).1 ≠ none) : s.Policy c where
  counted := h.pins
  stays i hpin := by
    obtain ⟨g, hg⟩ := h.resident hpin
    refine ⟨g, hg, ht.table hc hg ?_⟩
    rintro rfl
    have hzero := ht.freed.unpinned i hg
    rw [← h.pins i, pinsOf_of_table hg, hzero] at hpin
    exact absurd hpin (Nat.lt_irrefl 0)
  newPage_null hc hnull := absurd hnull (hnew hc)
  fetchPage_null id hc hnull := absurd hnull (hfetch id hc)
  evicts _ _ hi hgone := h.evicts ht hc hi hgone

/-- Pins and dirty bits do not change when a page was in use. -/
theorem lastUse_congr (hrel : t.released = s.released)
    (hmeta : ∀ g, (t.pool.metadata g).pageId = (s.pool.metadata g).pageId) (g : FrameId) :
    t.lastUse g = s.lastUse g := by rw [lastUse, lastUse, hrel, hmeta g]

namespace Tracked

theorem pageId_setMeta {m : FrameMetadata} (hm : m.pageId = (b.metadata f).pageId)
    (r : LRUReplacer) (g : FrameId) :
    (({ b with replacer := r }.setMeta f m).metadata g).pageId = (b.metadata g).pageId := by
  rw [setMeta_metadata]
  split
  · rename_i hg
    rw [hg, hm]
  · rfl

/-- With no frame to be had every frame is pinned. -/
theorem allPinned_of_none (h : s.Tracked) (hfind : s.pool.findFreeFrame = (none, b')) :
    s.AllPinned := by
  have hno := findFreeFrame_none hfind
  refine h.allPinned (List.eq_nil_iff_forall_not_mem.mpr fun f hf => hno f (Or.inl hf))
    (List.eq_nil_iff_forall_not_mem.mpr fun f hf => hno f (Or.inr hf))

/-- A call that changes nothing. -/
theorem wait {c : FrameCall} (h : s.Tracked) (hpool : s.pool.call c = s.pool)
    (hpins : s.countPins c = s.pins) (hrel : s.noteRelease c = s.released) :
    (s.step c).Tracked := by
  rw [step, hpool, hpins, hrel]
  exact ⟨h.accounted, h.rep, h.pins, h.recent, fun f hf => Nat.lt_succ_of_lt (h.past f hf)⟩

/-- **NewPage.** -/
theorem newPage (h : s.Tracked) (hs : s.Served .newPage) :
    s.Policy .newPage ∧ (s.step .newPage).Tracked := by
  obtain ⟨m, hrep⟩ := h.rep
  obtain ⟨-, hsome⟩ := hrep.newPage hs
  cases hfind : s.pool.findFreeFrame with
  | mk r b' =>
    obtain ⟨hrep', -, hsame, -⟩ := hrep.findFreeFrame hfind
    cases r with
    -- no frame was found: every page is pinned, and nothing changed
    | none =>
      have hnull : s.pool.newPage = (none, s.pool) := by
        simp only [BufferPoolManager.newPage, hfind, hsame rfl]
      have hcall : s.pool.call .newPage = s.pool := congrArg Prod.snd hnull
      have hid : s.pool.newPageId = none := by rw [newPageId, hnull]; rfl
      refine ⟨h.policy_of_table (by rw [hcall]) (fun _ _ => h.allPinned_of_none hfind)
        (fun _ hc => by simp at hc), h.wait hcall ?_ rfl⟩
      rw [countPins, hid]
    -- the frame that was taken holds a page that did not exist before
    | some f =>
      let id := b'.disk.allocatePage.1
      have hnew : s.pool.newPage = (some f, BufferPoolManager.occupy
          { b' with disk := b'.disk.allocatePage.2 } f id (Page.ofId id) true) := by
        simp only [BufferPoolManager.newPage, hfind, id]
      have hid : s.pool.newPageId = some id := by
        rw [newPageId, hnew, Option.map_some, occupy_pages, if_pos rfl]
        rfl
      have hvalid : id ≠ invalidPageId := fun he => hs (he ▸ hid)
      obtain ⟨heq, -⟩ := hrep'.wf.growing.allocatePage hvalid
      have habsent : b'.pageTable id = none := by
        refine Option.eq_none_iff_forall_ne_some.mpr fun g hg => ?_
        exact absurd (heq ▸ hrep'.wf.resident_lt _ g hg) (UInt32.lt_irrefl _)
      have ht := h.taken hfind
      have hc : Filled b' f id (s.pool.call .newPage) := by
        rw [call, hnew]
        exact filled_occupy habsent _ _ _
      have hrecent := h.recent_filled ht hc (t := s.step .newPage) rfl rfl rfl
      refine ⟨h.policy_of_filled ht hc (fun _ => by rw [hnew]; simp) (fun _ hc => by simp at hc),
        ?_, ?_, fun i => ?_, hrecent.1, hrecent.2⟩
      · -- the id is the end of the file, and what is resident lies below it
        have hnext : s.pool.disk.nextPageId = id := by
          change _ = b'.disk.allocatePage.1
          rw [DiskManager.allocatePage_fst, DiskManager.nextPageId, DiskManager.nextPageId,
            ht.freed.header]
        refine h.accounted.newPage_iff.1 (Or.inr ⟨hnext ▸ hvalid, Or.inl ?_⟩)
        rw [hnext]
        refine Option.eq_none_iff_forall_ne_some.mpr fun g hg => ?_
        have hlt := hrep.wf.resident_lt _ g hg
        rw [← ht.freed.header, ← heq] at hlt
        exact UInt32.lt_irrefl _ hlt
      · obtain ⟨_, _, _, _, hrep''⟩ := hsome f (by rw [hnew])
        exact ⟨_, hrep''⟩
      · change (s.pool.call .newPage).pinsOf i = s.countPins .newPage i
        rw [ht.pinsOf_filled hc, countPins, hid, funext h.pins]

/-- **FetchPage.** -/
theorem fetchPage (h : s.Tracked) {id : PageId} (hs : s.Served (.fetchPage id)) :
    s.Policy (.fetchPage id) ∧ (s.step (.fetchPage id)).Tracked := by
  obtain ⟨m, hrep⟩ := h.rep
  obtain ⟨hlt, hpins⟩ := hs
  have hrep' := (hrep.fetchPage id).1
  have hacc : (s.pool.fetchPage id).2.Accounted none := by
    refine h.accounted.fetchPage fun f hf hz => ?_
    have hcount := h.pins id
    rw [pinsOf_of_table hf] at hcount
    have hover := congrArg UInt32.toNat hz
    rw [UInt32.toNat_add, hcount, UInt32.toNat_one, Nat.mod_eq_of_lt hpins] at hover
    exact absurd hover (Nat.succ_ne_zero _)
  cases hf : s.pool.pageTable id with
  | some f =>
    -- one more pin, and the frame leaves the replacer if it was there
    have hcall : s.pool.fetchPage id = (some f, s.pool.pinFrame f) := by
      simp only [BufferPoolManager.fetchPage, hf]
    have hpool : s.pool.call (.fetchPage id) = s.pool.pinFrame f := congrArg Prod.snd hcall
    have hmeta : ∀ g, ((s.step (.fetchPage id)).pool.metadata g).pageId
        = (s.pool.metadata g).pageId := by
      intro g
      change ((s.pool.call (.fetchPage id)).metadata g).pageId = _
      rw [hpool, BufferPoolManager.pinFrame]
      refine pageId_setMeta ?_ _ g
      rfl
    have hsub : (s.step (.fetchPage id)).pool.replacer.lruList.Sublist s.pool.replacer.lruList := by
      change (s.pool.call (.fetchPage id)).replacer.lruList.Sublist _
      rw [hpool, BufferPoolManager.pinFrame]
      simp only [setMeta]
      split
      · exact List.erase_sublist
      · exact List.Sublist.refl _
    have hsame : ∀ g, (s.step (.fetchPage id)).lastUse g = s.lastUse g := lastUse_congr rfl hmeta
    refine ⟨h.policy_of_table (by rw [hpool]; rfl) (fun hc => by simp at hc) fun i hi hnull => ?_,
      hacc, ⟨m, hrep'⟩, fun i => ?_, (h.recent.sublist hsub).congr fun g _ => hsame g,
      fun g hg => ?_⟩
    · obtain rfl := FrameCall.fetchPage.inj hi
      rw [hcall] at hnull
      exact absurd hnull (by simp)
    · change (s.pool.call (.fetchPage id)).pinsOf i = s.countPins (.fetchPage id) i
      have hcount := h.pins id
      rw [pinsOf_of_table hf] at hcount
      rw [hpool, countPins, hcall, if_pos (Option.isSome_some (a := f)), BufferPoolManager.pinFrame,
        pinsOf_setMeta hrep.wf hf, Function.update_apply]
      split
      · change ((s.pool.metadata f).pinCount + 1).toNat = _
        rw [UInt32.toNat_add, UInt32.toNat_one, hcount]
        exact Nat.mod_eq_of_lt hpins
      · exact h.pins i
    · rw [hsame g]
      exact Nat.lt_succ_of_lt (h.past g (hsub.subset hg))
  -- a miss: a frame has to be found
  | none =>
    cases hfind : s.pool.findFreeFrame with
    | mk r b' =>
      obtain ⟨-, -, hkeep, hno⟩ := hrep.findFreeFrame hfind
      cases r with
      -- no frame was found
      | none =>
        have hcall : s.pool.fetchPage id = (none, s.pool) := by
          simp only [BufferPoolManager.fetchPage, hf, hfind, hkeep rfl]
        have hpool : s.pool.call (.fetchPage id) = s.pool := congrArg Prod.snd hcall
        refine ⟨h.policy_of_table (by rw [hpool]) (fun hc => by simp at hc) fun i hi _ => ?_,
          h.wait hpool ?_ rfl⟩
        · obtain rfl := FrameCall.fetchPage.inj hi
          exact ⟨hf, h.allPinned_of_none hfind⟩
        · rw [countPins, hcall]
          rfl
      -- the frame that was taken holds the page, with one pin
      | some f =>
        have ht := h.taken hfind
        have hread : b'.disk.readPage id = some (b'.disk.file id) :=
          DiskManager.readPage_of_lt b'.disk (by rw [ht.freed.header]; exact hlt)
        have hcall : s.pool.fetchPage id
            = (some f, b'.occupy f id ((b'.pages f).loadFrom (b'.disk.file id)) false) := by
          simp only [BufferPoolManager.fetchPage, hf, hfind, hread]
        have hc : Filled b' f id (s.pool.call (.fetchPage id)) := by
          rw [call, hcall]
          exact filled_occupy (hno id hf) b'.disk _ _
        have hrecent := h.recent_filled ht hc (t := s.step (.fetchPage id)) rfl rfl rfl
        refine ⟨h.policy_of_filled ht hc (fun hc => by simp at hc) (fun i hi => ?_), hacc,
          ⟨m, hrep'⟩, fun i => ?_, hrecent.1, hrecent.2⟩
        · obtain rfl := FrameCall.fetchPage.inj hi
          rw [hcall]
          simp
        · change (s.pool.call (.fetchPage id)).pinsOf i = s.countPins (.fetchPage id) i
          have hzero : s.pins id = 0 := by rw [← h.pins id, pinsOf_of_absent hf]
          rw [ht.pinsOf_filled hc, countPins, hcall, if_pos (Option.isSome_some (a := f)), hzero,
            funext h.pins]

/-- The list of the replacer is still in order when nothing was given back. -/
theorem recent_kept (h : s.Tracked) (hrel : t.released = s.released)
    (hmeta : ∀ g, (t.pool.metadata g).pageId = (s.pool.metadata g).pageId) :
    Recent t.lastUse s.pool.replacer.lruList ∧
      ∀ g ∈ s.pool.replacer.lruList, t.lastUse g < s.time + 1 := by
  have hsame : ∀ g, t.lastUse g = s.lastUse g := lastUse_congr hrel hmeta
  refine ⟨h.recent.congr fun g _ => hsame g, fun g hg => ?_⟩
  rw [hsame g]
  exact Nat.lt_succ_of_lt (h.past g hg)

/-- A frame that is given back now comes to the front, and the order of the others stays. -/
theorem recent_touched (h : s.Tracked) (hf : s.pool.pageTable id = some f)
    (hrel : t.released = Function.update s.released id s.time)
    (hmeta : ∀ g, (t.pool.metadata g).pageId = (s.pool.metadata g).pageId) :
    Recent t.lastUse (s.pool.replacer.recordAccess f).lruList ∧
      ∀ g ∈ (s.pool.replacer.recordAccess f).lruList, t.lastUse g < s.time + 1 := by
  obtain ⟨m, hrep⟩ := h.rep
  have hself : t.lastUse f = s.time := by
    rw [lastUse, hmeta f, hrel, ((h.accounted.table_iff id f).mp hf).2.1, Function.update_self]
  have hother : ∀ g ∈ s.pool.replacer.lruList, g ≠ f → t.lastUse g = s.lastUse g := by
    intro g hg hne
    -- another frame that can be evicted has another page
    obtain ⟨⟨i, hi⟩, -⟩ := hrep.wf.evictable g hg
    have hid : (s.pool.metadata g).pageId ≠ id := by
      rw [((h.accounted.table_iff i g).mp hi).2.1]
      rintro rfl
      exact hne (Option.some.inj (hi.symm.trans hf))
    rw [lastUse, hmeta g, hrel, Function.update_of_ne hid, lastUse]
  refine ⟨h.recent.touch hself hother h.past h.accounted.lru_nodup, fun g hg => ?_⟩
  rcases List.mem_cons.mp hg with rfl | hg
  · rw [hself]
    exact Nat.lt_succ_self _
  · obtain ⟨hne, hmem⟩ := h.accounted.lru_nodup.mem_erase_iff.mp hg
    rw [hother g hmem hne]
    exact Nat.lt_succ_of_lt (h.past g hmem)

/-- **UnpinPage.** -/
theorem unpinPage (h : s.Tracked) (id : PageId) (isDirty : Bool) :
    s.Policy (.unpinPage id isDirty) ∧ (s.step (.unpinPage id isDirty)).Tracked := by
  obtain ⟨m, hrep⟩ := h.rep
  have hacc := h.accounted.unpinPage id isDirty
  have hrep' : (s.pool.unpinPage id isDirty).2.Represents m fun _ => False :=
    (hrep.unpinPage fun _ hf => hf.elim).of_iff fun _ => ⟨False.elim, fun hp => hp.1⟩
  -- a page without pins is refused, and nothing changes
  have hrefused : s.pool.unpinPage id isDirty = (false, s.pool) →
      s.Policy (.unpinPage id isDirty) ∧ (s.step (.unpinPage id isDirty)).Tracked := by
    intro hcall
    have hpool : s.pool.call (.unpinPage id isDirty) = s.pool := congrArg Prod.snd hcall
    refine ⟨h.policy_of_table (by rw [hpool]) (fun hc => by simp at hc) (fun _ hc => by simp at hc),
      h.wait hpool ?_ ?_⟩
    · rw [countPins, hcall]
      rfl
    · rw [noteRelease, hcall]
      simp
  cases hf : s.pool.pageTable id with
  | none => exact hrefused (by simp only [BufferPoolManager.unpinPage, hf])
  | some f =>
    by_cases hzero : (s.pool.metadata f).pinCount = 0
    · exact hrefused (by simp only [BufferPoolManager.unpinPage, hf, hzero, if_true])
    · -- the metadata of the frame after the call, and the replacer
      let mt : FrameMetadata := { s.pool.metadata f with
        pinCount := (s.pool.metadata f).pinCount - 1
        isDirty := (s.pool.metadata f).isDirty || isDirty }
      let r := if mt.pinCount = 0 then s.pool.replacer.recordAccess f else s.pool.replacer
      have hcall : s.pool.unpinPage id isDirty
          = (true, ({ s.pool with replacer := r } : BufferPoolManager).setMeta f mt) := by
        simp only [BufferPoolManager.unpinPage, hf, hzero, if_false]
        rfl
      have hpool : (s.step (.unpinPage id isDirty)).pool
          = ({ s.pool with replacer := r } : BufferPoolManager).setMeta f mt :=
        congrArg Prod.snd hcall
      have hcount := h.pins id
      rw [pinsOf_of_table hf] at hcount
      have hpos : 0 < s.pins id := by
        rw [← hcount]
        exact Nat.pos_of_ne_zero fun he => hzero (UInt32.toNat_inj.mp he)
      have hpred : mt.pinCount.toNat = s.pins id - 1 := by
        change ((s.pool.metadata f).pinCount - 1).toNat = _
        rw [UInt32.toNat_sub_of_le, hcount]
        · rfl
        · exact UInt32.le_iff_toNat_le.mpr (by rw [hcount]; exact hpos)
      have hmeta : ∀ g, ((s.step (.unpinPage id isDirty)).pool.metadata g).pageId
          = (s.pool.metadata g).pageId := by
        intro g
        rw [hpool]
        refine pageId_setMeta ?_ _ g
        rfl
      have hlru : (s.step (.unpinPage id isDirty)).pool.replacer = r := by rw [hpool]; rfl
      -- the callers note the time if this was the last pin
      have hrel : (s.step (.unpinPage id isDirty)).released
          = if s.pins id = 1 then Function.update s.released id s.time else s.released := by
        change s.noteRelease (.unpinPage id isDirty) = _
        rw [noteRelease, hcall]
        simp
      -- the list of the replacer, in order of recency
      have hrecent : Recent (s.step (.unpinPage id isDirty)).lastUse r.lruList ∧
          ∀ g ∈ r.lruList, (s.step (.unpinPage id isDirty)).lastUse g < s.time + 1 := by
        by_cases hlast : s.pins id = 1
        · -- the frame comes to the front, at the time of this call
          have hr : r = s.pool.replacer.recordAccess f := by
            refine if_pos (UInt32.toNat_inj.mp ?_)
            rw [hpred, hlast]
            rfl
          rw [if_pos hlast] at hrel
          rw [hr]
          exact h.recent_touched hf hrel hmeta
        · -- other pins are left, and the list stays as it is
          have hr : r = s.pool.replacer := by
            refine if_neg fun he => hlast ?_
            rw [he] at hpred
            have : (0 : UInt32).toNat = 0 := rfl
            omega
          rw [if_neg hlast] at hrel
          rw [hr]
          exact h.recent_kept hrel hmeta
      have htable : (s.step (.unpinPage id isDirty)).pool.pageTable = s.pool.pageTable := by
        rw [hpool]
        rfl
      refine ⟨h.policy_of_table htable (fun hc => by simp at hc)
        (fun _ hc => by simp at hc), hacc, ⟨m, hrep'⟩, fun i => ?_, ?_, fun g hg => ?_⟩
      · rw [hpool]
        change _ = s.countPins (.unpinPage id isDirty) i
        rw [countPins, hcall, if_pos rfl, pinsOf_setMeta hrep.wf hf, Function.update_apply, hpred,
          h.pins i]
      · rw [hlru]
        exact hrecent.1
      · rw [hlru] at hg
        exact hrecent.2 g hg

/-- A call that writes frames back. -/
theorem flush {c : FrameCall} (h : s.Tracked) (hacc : (s.pool.call c).Accounted none)
    (hrep : ∃ m, (s.pool.call c).Represents m fun _ => False)
    (htable : (s.pool.call c).pageTable = s.pool.pageTable)
    (hlru : (s.pool.call c).replacer = s.pool.replacer)
    (hmeta : ∀ g, ((s.pool.call c).metadata g).pageId = (s.pool.metadata g).pageId ∧
      ((s.pool.call c).metadata g).pinCount = (s.pool.metadata g).pinCount)
    (hpins : s.countPins c = s.pins) (hrel : s.noteRelease c = s.released)
    (hnew : c ≠ .newPage) (hfetch : ∀ id, c ≠ .fetchPage id) :
    s.Policy c ∧ (s.step c).Tracked := by
  obtain ⟨hrecent, hpast⟩ := h.recent_kept (t := s.step c) hrel fun g => (hmeta g).1
  have hlist : (s.step c).pool.replacer.lruList = s.pool.replacer.lruList :=
    congrArg LRUReplacer.lruList hlru
  refine ⟨h.policy_of_table htable (fun hc => absurd hc hnew) (fun id hc => absurd hc (hfetch id)),
    hacc, hrep, fun i => ?_, ?_, fun g hg => ?_⟩
  · change (s.pool.call c).pinsOf i = s.countPins c i
    rw [hpins, ← h.pins i, pinsOf, pinsOf, htable]
    cases s.pool.pageTable i with
    | none => rfl
    | some g => exact congrArg UInt32.toNat (hmeta g).2
  · rw [hlist]
    exact hrecent
  · rw [hlist] at hg
    exact hpast g hg

end Tracked

/-- What flushing leaves alone. -/
structure SameFrames (b b' : BufferPoolManager) : Prop where
  table : b'.pageTable = b.pageTable
  lru : b'.replacer = b.replacer
  metadata : ∀ g, (b'.metadata g).pageId = (b.metadata g).pageId ∧
    (b'.metadata g).pinCount = (b.metadata g).pinCount

/-- Writing a page back leaves the frames. -/
theorem sameFrames_writeBack (b : BufferPoolManager) (f : FrameId) (id : PageId) :
    SameFrames b (b.writeBack f id) := by
  refine ⟨rfl, rfl, fun g => ?_⟩
  rw [writeBack_metadata]
  split
  · rename_i hg
    rw [hg]
    exact ⟨rfl, rfl⟩
  · exact ⟨rfl, rfl⟩

/-- Writing back all pages leaves the frames. -/
theorem sameFrames_flushAllPages (b : BufferPoolManager) : SameFrames b b.flushAllPages := by
  refine Run.invariant (I := SameFrames b) (fun b' f h => ?_) ⟨rfl, rfl, fun _ => ⟨rfl, rfl⟩⟩ _
  unfold flushFrame
  split
  · have hw := sameFrames_writeBack b' f (b'.metadata f).pageId
    exact ⟨hw.table.trans h.table, hw.lru.trans h.lru, fun g =>
      ⟨(hw.metadata g).1.trans (h.metadata g).1, (hw.metadata g).2.trans (h.metadata g).2⟩⟩
  · exact h

/-- **The step lemma.** -/
theorem Tracked.step (h : s.Tracked) {c : FrameCall} (hs : s.Served c) :
    s.Policy c ∧ (s.step c).Tracked := by
  obtain ⟨m, hrep⟩ := h.rep
  cases c with
  | newPage => exact h.newPage hs
  | fetchPage id => exact h.fetchPage hs
  | unpinPage id isDirty => exact h.unpinPage id isDirty
  | deletePage id => exact hs.elim
  | flushPage id =>
    have hsame : SameFrames s.pool (s.pool.call (.flushPage id)) := by
      change SameFrames s.pool (s.pool.flushPage id).2
      unfold BufferPoolManager.flushPage
      cases s.pool.pageTable id with
      | none => exact ⟨rfl, rfl, fun _ => ⟨rfl, rfl⟩⟩
      | some f => exact sameFrames_writeBack s.pool f id
    exact h.flush (h.accounted.flushPage id) ⟨m, hrep.flushPage id⟩ hsame.table hsame.lru
      hsame.metadata rfl rfl (by simp) (by simp)
  | flushAllPages =>
    have hsame := sameFrames_flushAllPages s.pool
    exact h.flush h.accounted.flushAllPages ⟨m, hrep.flushAllPages⟩ hsame.table hsame.lru
      hsame.metadata rfl rfl (by simp) (by simp)

/-! ## 5. The theorem -/

/-- **LRU replacement.**  In every run of a pool of any size over a file in which no page was
deallocated, each call follows the policy. -/
theorem lru_policy (n : Nat) {d : DiskManager} (hd : d.Growing) {calls : List FrameCall}
    (hserved : Run.StepsOk step Served (start n d) calls) {pre post : List FrameCall}
    {c : FrameCall} (hsplit : calls = pre ++ c :: post) :
    (pre.foldl step (start n d)).Policy c := by
  rw [hsplit, Run.stepsOk_append] at hserved
  have hpre : (pre.foldl step (start n d)).Tracked :=
    Run.invariant_of_stepsOk (I := Tracked) (fun _ _ h hs => (h.step hs).2) (tracked_start n hd)
      hserved.1
  exact (hpre.step hserved.2.1).1

/-- In a pool of two frames page 1 is fetched again, so page 2 has been without pins for longest
when page 3 is made. -/
theorem lru_policy_refetched :
    let s := ([.newPage, .unpinPage 1 true, .newPage, .unpinPage 2 true, .fetchPage 1,
      .unpinPage 1 false] : List FrameCall).foldl step (start 2 .initializeNewFile)
    s.Policy .newPage ∧ s.pool.pageTable 2 = some 1 ∧
      (s.step .newPage).pool.pageTable 2 = none := by
  intro s
  have hserved : Run.StepsOk step Served (start 2 .initializeNewFile) [.newPage,
      .unpinPage 1 true, .newPage, .unpinPage 2 true, .fetchPage 1, .unpinPage 1 false,
      .newPage] := by decide +kernel
  have hpolicy : s.Policy .newPage :=
    @lru_policy 2 _ DiskManager.growing_initializeNewFile _ hserved _ [] _ rfl
  exact ⟨hpolicy, by decide +kernel, by decide +kernel⟩

end History

end CourtDB
