/-
# The frames of a pool, over any sequence of calls

A frame is free, evictable or pinned, and a page is in one frame at most.  No operation keeps this
from every state: `NewPage` trusts the id that the disk manager allocates, and the free list of the
disk can hand out a page that is still in a frame, after a page was deallocated twice or was fetched
again after it was deallocated.  So the bookkeeping holds through a run exactly when no `NewPage` of
the run is handed a resident page (`bookkeeping_iff`).

The two statements have different shapes.  `Bookkeeping` is what a reader of the pool would want to
know: each frame is in one class, each page in one frame, and the page table finds it there.
`Accounted` is the same in the form the operations keep it.  It has a place for one more frame, the
one in the hands of the caller between `FindFreeFrame` and the end of a call, so the lemmas about
the parts of a call can be composed.

All calls but `NewPage` keep `Accounted` on any disk.  For `NewPage` there is an equivalence
(`Accounted.newPage_iff`): an id that is resident, but for the frame that is being evicted, breaks
it at once.  So on a run the first bad id is the first state out of order.

A pin count that passes its 32 bits would make a pinned frame evictable; runs in which that happens
are left out (`PinsFit`).
-/
import CourtDB.Lib.Run
import CourtDB.Buffer.PoolView

namespace CourtDB

/-! ## 1. The classes of a frame -/

inductive FrameClass
  | free
  | evictable
  | pinned
deriving DecidableEq, Repr

/-- The id that `AllocatePage` returns. -/
def DiskManager.nextPageId (d : DiskManager) : PageId :=
  if d.header.freeListHead ≠ invalidPageId then d.header.freeListHead else d.header.pageCount

theorem DiskManager.allocatePage_fst (d : DiskManager) : d.allocatePage.1 = d.nextPageId := by
  unfold allocatePage nextPageId
  split <;> rfl

namespace BufferPoolManager

variable {b b' : BufferPoolManager}

/-- Frame `f` is in a class. -/
def InClass (b : BufferPoolManager) (f : FrameId) : FrameClass → Prop
  | .free => f ∈ b.freeList ∧ (b.metadata f).isOccupied = false
  | .evictable => f ∈ b.replacer.lruList ∧ (b.metadata f).pinCount = 0
  | .pinned => (b.metadata f).isOccupied = true ∧ 0 < (b.metadata f).pinCount

/-- A page is in one frame at most, the page table finds it there, and every frame is in exactly
one class. -/
structure Bookkeeping (b : BufferPoolManager) : Prop where
  frame_unique : ∀ f < b.poolSize, ∀ g < b.poolSize, (b.metadata f).isOccupied = true →
    (b.metadata f).pageId = (b.metadata g).pageId → f = g
  table_iff : ∀ id f, b.pageTable id = some f ↔
    f < b.poolSize ∧ (b.metadata f).isOccupied = true ∧ (b.metadata f).pageId = id
  class_unique : ∀ f < b.poolSize, ∃! c, b.InClass f c

/-! ## 2. The invariant

The replacer's list, the free list and the pin counts say where a frame is, and the page table says
which frame a page is in. -/

/-- Every frame is accounted for, `held` by the caller if it is in nobody else's hands. -/
structure Accounted (held : Option FrameId) (b : BufferPoolManager) : Prop where
  table_iff : ∀ id f, b.pageTable id = some f ↔
    f < b.poolSize ∧ (b.metadata f).pageId = id ∧ id ≠ invalidPageId
  free_iff : ∀ f, f ∈ b.freeList ∨ held = some f ↔
    f < b.poolSize ∧ (b.metadata f).pageId = invalidPageId
  free_nodup : b.freeList.Nodup
  held_not_free : ∀ f, held = some f → f ∉ b.freeList
  lru_iff : ∀ f, f ∈ b.replacer.lruList ↔
    f < b.poolSize ∧ (b.metadata f).pageId ≠ invalidPageId ∧ (b.metadata f).pinCount = 0
  lru_nodup : b.replacer.lruList.Nodup

theorem isOccupied_iff {m : FrameMetadata} : m.isOccupied = true ↔ m.pageId ≠ invalidPageId := by
  simp [FrameMetadata.isOccupied]

/-- **What the invariant says.** -/
theorem Accounted.bookkeeping (h : b.Accounted none) : b.Bookkeeping where
  frame_unique f hf g hg hocc hid := by
    have hne := isOccupied_iff.mp hocc
    have h1 := (h.table_iff _ f).mpr ⟨hf, rfl, hne⟩
    have h2 := (h.table_iff _ g).mpr ⟨hg, hid.symm, hne⟩
    exact Option.some.inj (h1.symm.trans h2)
  table_iff id f := by
    rw [h.table_iff, isOccupied_iff]
    constructor
    · rintro ⟨hf, rfl, hne⟩; exact ⟨hf, hne, rfl⟩
    · rintro ⟨hf, hne, rfl⟩; exact ⟨hf, rfl, hne⟩
  class_unique f hf := by
    have hfree : f ∈ b.freeList ↔ (b.metadata f).pageId = invalidPageId := by
      have hiff := h.free_iff f
      simpa [hf] using hiff
    have hlru : f ∈ b.replacer.lruList ↔
        (b.metadata f).pageId ≠ invalidPageId ∧ (b.metadata f).pinCount = 0 := by
      have hiff := h.lru_iff f
      simpa [hf] using hiff
    by_cases hocc : (b.metadata f).pageId = invalidPageId
    · refine ⟨.free, ⟨hfree.mpr hocc, by simp [FrameMetadata.isOccupied, hocc]⟩, ?_⟩
      rintro (_ | _ | _) hc
      · rfl
      · exact absurd hocc (hlru.mp hc.1).1
      · exact absurd hocc (isOccupied_iff.mp hc.1)
    · by_cases hpin : (b.metadata f).pinCount = 0
      · refine ⟨.evictable, ⟨hlru.mpr ⟨hocc, hpin⟩, hpin⟩, ?_⟩
        rintro (_ | _ | _) hc
        · exact absurd (hfree.mp hc.1) hocc
        · rfl
        · exact absurd hc.2 (by rw [hpin]; decide)
      · refine ⟨.pinned, ⟨isOccupied_iff.mpr hocc, UInt32.pos_iff_ne_zero.mpr hpin⟩, ?_⟩
        rintro (_ | _ | _) hc
        · exact absurd (hfree.mp hc.1) hocc
        · exact absurd hc.2 hpin
        · rfl

theorem accounted_create (n : Nat) (d : DiskManager) : (create n d).Accounted none where
  table_iff id f := by
    constructor
    · intro hf; cases hf
    · rintro ⟨-, rfl, hne⟩; exact absurd rfl hne
  free_iff f := by simp [create]
  free_nodup := List.nodup_range
  held_not_free _ hf := by cases hf
  lru_iff f := by simp [create]
  lru_nodup := List.nodup_nil

namespace Accounted

variable {held : Option FrameId}

/-- The bookkeeping looks at the page ids, the pin counts, the lists and the table only. -/
theorem congr (h : b.Accounted held) (hsize : b'.poolSize = b.poolSize)
    (htable : b'.pageTable = b.pageTable) (hfree : b'.freeList = b.freeList)
    (hlru : b'.replacer = b.replacer)
    (hmeta : ∀ f, (b'.metadata f).pageId = (b.metadata f).pageId ∧
      (b'.metadata f).pinCount = (b.metadata f).pinCount) : b'.Accounted held where
  table_iff id f := by rw [htable, hsize, (hmeta f).1]; exact h.table_iff id f
  free_iff f := by rw [hfree, hsize, (hmeta f).1]; exact h.free_iff f
  free_nodup := hfree ▸ h.free_nodup
  held_not_free f hf := hfree ▸ h.held_not_free f hf
  lru_iff f := by rw [hlru, hsize, (hmeta f).1, (hmeta f).2]; exact h.lru_iff f
  lru_nodup := hlru ▸ h.lru_nodup

theorem writeBack (h : b.Accounted held) (f : FrameId) (id : PageId) :
    (b.writeBack f id).Accounted held := by
  refine h.congr rfl rfl rfl rfl fun g => ?_
  rw [writeBack_metadata]
  by_cases hg : g = f
  · rw [if_pos hg, hg]; exact ⟨rfl, rfl⟩
  · rw [if_neg hg]; exact ⟨rfl, rfl⟩

/-- Another disk, or another page in some frame. -/
theorem setDisk (h : b.Accounted held) (d : DiskManager) :
    ({ b with disk := d } : BufferPoolManager).Accounted held :=
  h.congr rfl rfl rfl rfl fun _ => ⟨rfl, rfl⟩

/-! ### Finding a frame -/

/-- The front of the free list goes to the caller. -/
theorem takeFree (h : b.Accounted none) {f : FrameId} {rest : List FrameId}
    (hfree : b.freeList = f :: rest) :
    ({ b with freeList := rest } : BufferPoolManager).Accounted (some f) := by
  have hnodup := hfree ▸ h.free_nodup
  rw [List.nodup_cons] at hnodup
  refine { h with free_iff := fun g => ?_, free_nodup := hnodup.2, held_not_free := ?_ }
  · have hiff := h.free_iff g
    rw [hfree, List.mem_cons] at hiff
    rw [← hiff]
    constructor
    · rintro (hg | hg)
      · exact Or.inl (Or.inr hg)
      · exact Or.inl (Or.inl (Option.some.inj hg).symm)
    · rintro ((rfl | hg) | hg)
      · exact Or.inr rfl
      · exact Or.inl hg
      · cases hg
  · rintro g hg
    rw [← Option.some.inj hg]
    exact hnodup.1

/-- The frame of a page goes to the caller, out of the replacer and the page table. -/
theorem vacate (h : b.Accounted none) {id : PageId} {f : FrameId} (hf : b.pageTable id = some f)
    {r : LRUReplacer} (hr : ∀ g, g ∈ r.lruList ↔ g ≠ f ∧ g ∈ b.replacer.lruList)
    (hnodup : r.lruList.Nodup) :
    (({ b with replacer := r } : BufferPoolManager).vacate f id).Accounted (some f) := by
  obtain ⟨hlt, hpage, hne⟩ := (h.table_iff id f).mp hf
  constructor
  · -- the page table
    intro id' g
    rw [vacate_pageTable, vacate_metadata]
    change _ ↔ g < b.poolSize ∧ _
    by_cases hg : g = f
    · subst hg
      rw [if_pos rfl]
      refine ⟨fun ht => ?_, fun ⟨_, hid, hinvalid⟩ => absurd hid.symm hinvalid⟩
      by_cases hid : id' = id
      · rw [if_pos hid] at ht; cases ht
      · rw [if_neg hid] at ht
        exact absurd (((h.table_iff id' g).mp ht).2.1.symm.trans hpage) hid
    · rw [if_neg hg]
      change _ ↔ g < b.poolSize ∧ (b.metadata g).pageId = id' ∧ id' ≠ invalidPageId
      rw [← h.table_iff id' g]
      by_cases hid : id' = id
      · rw [if_pos hid, hid, hf]
        exact ⟨fun ht => absurd ht (by simp), fun ht => absurd (Option.some.inj ht).symm hg⟩
      · rw [if_neg hid]
  · -- the free frames, with `f` in the hands of the caller
    intro g
    rw [vacate_metadata]
    have hiff := h.free_iff g
    simp only [reduceCtorEq, or_false] at hiff
    by_cases hg : g = f
    · subst hg
      rw [if_pos rfl]
      exact ⟨fun _ => ⟨hlt, rfl⟩, fun _ => Or.inr rfl⟩
    · rw [if_neg hg]
      exact ⟨fun hin => hiff.mp (hin.resolve_right fun he => hg (Option.some.inj he).symm),
        fun hin => Or.inl (hiff.mpr hin)⟩
  · -- no free frame is listed twice
    exact h.free_nodup
  · -- `f` was occupied, so it is not on the free list
    rintro g hg hin
    obtain rfl := Option.some.inj hg
    exact hne (hpage.symm.trans ((h.free_iff f).mp (Or.inl hin)).2)
  · -- the frames that can be evicted
    intro g
    rw [vacate_metadata]
    refine (hr g).trans ?_
    by_cases hg : g = f
    · subst hg
      rw [if_pos rfl]
      exact ⟨fun hin => absurd rfl hin.1, fun hin => absurd rfl hin.2.1⟩
    · rw [if_neg hg]
      change _ ↔ g < b.poolSize ∧ (b.metadata g).pageId ≠ _ ∧ (b.metadata g).pinCount = 0
      rw [← h.lru_iff g]
      exact ⟨fun hin => hin.2, fun hin => ⟨hg, hin⟩⟩
  · exact hnodup

/-- The victim of the replacer goes to the caller. -/
theorem evict (h : b.Accounted none) {victim : FrameId} {rest : List FrameId}
    (hlru : b.replacer.lruList = rest ++ [victim]) :
    (({ b with replacer := ⟨rest⟩ } : BufferPoolManager).evictFrame victim).Accounted
      (some victim) := by
  obtain ⟨hlt, hocc, -⟩ := (h.lru_iff victim).mp (by simp [hlru])
  have htable := (h.table_iff _ victim).mpr ⟨hlt, rfl, hocc⟩
  have hnodup := hlru ▸ h.lru_nodup
  have hlast : victim ∉ rest := fun hin =>
    (List.nodup_append.mp hnodup).2.2 victim hin victim List.mem_cons_self rfl
  have hrest : ∀ g, g ∈ rest ↔ g ≠ victim ∧ g ∈ b.replacer.lruList := by
    intro g
    rw [hlru, List.mem_append, List.mem_singleton]
    refine ⟨fun hin => ⟨?_, Or.inl hin⟩, fun ⟨hne, hin⟩ => hin.resolve_right hne⟩
    rintro rfl
    exact hlast hin
  have hnodupRest := (List.nodup_append.mp hnodup).1
  let b₁ : BufferPoolManager := { b with replacer := ⟨rest⟩ }
  cases hd : (b.metadata victim).isDirty with
  | false =>
    have heq : b₁.evictFrame victim
        = BufferPoolManager.vacate b₁ victim (b.metadata victim).pageId := by
      simp only [BufferPoolManager.evictFrame, b₁, hd, Bool.false_eq_true, if_false]; rfl
    rw [show evictFrame _ victim = BufferPoolManager.vacate b₁ victim _ from heq]
    exact h.vacate htable hrest hnodupRest
  | true =>
    have heq : b₁.evictFrame victim
        = BufferPoolManager.vacate (b₁.writeBack victim (b.metadata victim).pageId) victim
          (b.metadata victim).pageId := by
      simp only [BufferPoolManager.evictFrame, b₁, hd, if_true]; rfl
    rw [show evictFrame _ victim = BufferPoolManager.vacate _ victim _ from heq]
    exact (h.writeBack victim _).vacate htable hrest hnodupRest

/-- **FindFreeFrame** fails when no frame is free or evictable, and gives the caller a frame
otherwise.  The victim's page leaves the page table, and no other page does. -/
theorem findFreeFrame (h : b.Accounted none) :
    (b.findFreeFrame = (none, b) ∧ b.freeList = [] ∧ b.replacer.lruList = []) ∨
      ∃ f b', b.findFreeFrame = (some f, b') ∧ b'.Accounted (some f) ∧
        b'.disk.header = b.disk.header ∧ b'.poolSize = b.poolSize ∧
        ∀ id, b'.pageTable id = none ↔ b.pageTable id = none ∨
          b.freeList = [] ∧ b.pageTable id = b.replacer.lruList.getLast? := by
  unfold BufferPoolManager.findFreeFrame
  split
  · rename_i f rest hfree
    refine Or.inr ⟨f, _, rfl, h.takeFree hfree, rfl, rfl, fun id => ?_⟩
    simp [hfree]
  · rename_i hfree
    cases hlast : b.replacer.lruList.getLast? with
    | none =>
      refine Or.inl ⟨?_, hfree, List.getLast?_eq_none_iff.mp hlast⟩
      simp only [LRUReplacer.evict, hlast]
    | some victim =>
      let b₁ : BufferPoolManager := { b with replacer := ⟨b.replacer.lruList.dropLast⟩ }
      obtain ⟨-, -, hsize, hheader⟩ := evictFrame_lists b₁ victim
      obtain ⟨hlt, hocc, -⟩ := (h.lru_iff victim).mp (List.mem_of_getLast? hlast)
      refine Or.inr ⟨victim, b₁.evictFrame victim, ?_,
        h.evict (List.dropLast_append_getLast? _ hlast).symm, hheader, hsize, fun id => ?_⟩
      · simp only [LRUReplacer.evict, hlast]; rfl
      · rw [evictFrame_pageTable]
        change (if id = (b.metadata victim).pageId then none else b.pageTable id) = none ↔ _
        by_cases hid : id = (b.metadata victim).pageId
        · have hresident := (h.table_iff id victim).mpr ⟨hlt, hid.symm, hid ▸ hocc⟩
          rw [if_pos hid]
          exact ⟨fun _ => Or.inr ⟨hfree, hresident⟩, fun _ => rfl⟩
        · rw [if_neg hid]
          refine ⟨Or.inl, fun hin => hin.resolve_right fun hv => hid ?_⟩
          exact ((h.table_iff id victim).mp hv.2).2.1.symm

/-! ### Giving the frame back -/

/-- The caller puts its frame on the free list. -/
theorem giveBack {f : FrameId} (h : b.Accounted (some f)) :
    ({ b with freeList := b.freeList ++ [f] } : BufferPoolManager).Accounted none := by
  have hnot := h.held_not_free f rfl
  refine { h with free_iff := fun g => ?_, free_nodup := ?_, held_not_free := ?_ }
  · rw [← h.free_iff g]
    simp only [List.mem_append, List.mem_singleton, reduceCtorEq, or_false, Option.some.injEq,
      @eq_comm _ g f]
  · refine List.nodup_append.mpr ⟨h.free_nodup, List.nodup_singleton f, ?_⟩
    rintro g hg g' hg' rfl
    exact hnot (List.mem_singleton.mp hg' ▸ hg)
  · rintro g hg
    cases hg

/-- The caller's frame takes a page that no other frame holds. -/
theorem occupy {f : FrameId} (h : b.Accounted (some f)) {id : PageId}
    (habsent : b.pageTable id = none) (hid : id ≠ invalidPageId) (page : Page) (isDirty : Bool) :
    (b.occupy f id page isDirty).Accounted none := by
  obtain ⟨hlt, hvacant⟩ := (h.free_iff f).mp (Or.inr rfl)
  have hmeta : ∀ g, (b.occupy f id page isDirty).metadata g
      = if g = f then ⟨id, 1, isDirty⟩ else b.metadata g :=
    fun g => Function.update_apply _ _ _ _
  have htable : ∀ id', (b.occupy f id page isDirty).pageTable id'
      = if id' = id then some f else b.pageTable id' :=
    fun id' => Function.update_apply _ _ _ _
  constructor
  · -- the page table: no other frame holds page `id`
    intro id' g
    change _ ↔ g < b.poolSize ∧ _
    rw [htable, hmeta]
    by_cases hg : g = f
    · subst hg
      rw [if_pos rfl]
      by_cases hid' : id' = id
      · rw [if_pos hid', hid']; exact ⟨fun _ => ⟨hlt, rfl, hid⟩, fun _ => rfl⟩
      · rw [if_neg hid']
        refine ⟨fun ht => ?_, fun ht => absurd ht.2.1.symm hid'⟩
        obtain ⟨-, hv, hne⟩ := (h.table_iff id' g).mp ht
        exact absurd (hv.symm.trans hvacant) hne
    · rw [if_neg hg, ← h.table_iff id' g]
      by_cases hid' : id' = id
      · rw [if_pos hid', hid', habsent]
        exact ⟨fun ht => absurd (Option.some.inj ht).symm hg, fun ht => by cases ht⟩
      · rw [if_neg hid']
  · -- the free frames
    intro g
    change g ∈ b.freeList ∨ none = some g ↔ g < b.poolSize ∧ _
    rw [hmeta]
    by_cases hg : g = f
    · subst hg
      rw [if_pos rfl]
      refine ⟨fun hin => ?_, fun hin => absurd hin.2 hid⟩
      exact absurd (hin.resolve_right (by simp)) (h.held_not_free g rfl)
    · rw [if_neg hg, ← h.free_iff g]
      refine or_congr_right ⟨fun he => (nomatch he), fun he => ?_⟩
      exact absurd (Option.some.inj he).symm hg
  · exact h.free_nodup
  · rintro g hg
    cases hg
  · -- the frames that can be evicted: `f` is pinned now
    intro g
    change g ∈ b.replacer.lruList ↔ g < b.poolSize ∧ _
    rw [hmeta]
    by_cases hg : g = f
    · subst hg
      rw [if_pos rfl, h.lru_iff g]
      exact ⟨fun hin => absurd hvacant hin.2.1, fun hin =>
        absurd hin.2.2 (show (1 : UInt32) ≠ 0 by decide)⟩
    · rw [if_neg hg]; exact h.lru_iff g
  · exact h.lru_nodup

/-- The pin count of a resident page changes, and the replacer with it. -/
theorem repin (h : b.Accounted none) {id : PageId} {f : FrameId} (hf : b.pageTable id = some f)
    {m : FrameMetadata} (hm : m.pageId = (b.metadata f).pageId) {r : LRUReplacer}
    (hr : ∀ g, g ∈ r.lruList ↔ g = f ∧ m.pinCount = 0 ∨ g ≠ f ∧ g ∈ b.replacer.lruList)
    (hnodup : r.lruList.Nodup) :
    (({ b with replacer := r } : BufferPoolManager).setMeta f m).Accounted none := by
  obtain ⟨hlt, hpage, hne⟩ := (h.table_iff id f).mp hf
  have hocc : (b.metadata f).pageId ≠ invalidPageId := by rwa [hpage]
  have hid : ∀ g, ((({ b with replacer := r } : BufferPoolManager).setMeta f m).metadata g).pageId
      = (b.metadata g).pageId := by
    intro g
    rw [setMeta_metadata]
    by_cases hg : g = f
    · rw [if_pos hg, hg, hm]
    · rw [if_neg hg]
  constructor
  · intro id' g; rw [hid]; exact h.table_iff id' g
  · intro g; rw [hid]; exact h.free_iff g
  · exact h.free_nodup
  · exact h.held_not_free
  · intro g
    rw [hid, setMeta_metadata]
    refine (hr g).trans ?_
    by_cases hg : g = f
    · subst hg
      rw [if_pos rfl]
      exact ⟨fun hin => ⟨hlt, hocc, (hin.resolve_right fun hn => hn.1 rfl).2⟩,
        fun hin => Or.inl ⟨rfl, hin.2.2⟩⟩
    · rw [if_neg hg]
      change _ ↔ g < b.poolSize ∧ (b.metadata g).pageId ≠ _ ∧ (b.metadata g).pinCount = 0
      rw [← h.lru_iff g]
      exact ⟨fun hin => (hin.resolve_left fun hn => hg hn.1).2, fun hin => Or.inr ⟨hg, hin⟩⟩
  · exact hnodup

/-- A frame is in the replacer when it is occupied and nobody has it pinned. -/
theorem mem_lru (h : b.Accounted none) {id : PageId} {f : FrameId} (hf : b.pageTable id = some f) :
    f ∈ b.replacer.lruList ↔ (b.metadata f).pinCount = 0 := by
  obtain ⟨hlt, hpage, hne⟩ := (h.table_iff id f).mp hf
  rw [h.lru_iff f]
  exact ⟨fun hin => hin.2.2, fun hpin => ⟨hlt, by rwa [hpage], hpin⟩⟩

/-- The list without `f`. -/
theorem mem_remove (h : b.Accounted none) (f g : FrameId) :
    g ∈ (b.replacer.remove f).lruList ↔ g ≠ f ∧ g ∈ b.replacer.lruList :=
  h.lru_nodup.mem_erase_iff

/-! ### The calls -/

theorem pinFrame (h : b.Accounted none) {id : PageId} {f : FrameId} (hf : b.pageTable id = some f)
    (hpins : (b.metadata f).pinCount + 1 ≠ 0) : (b.pinFrame f).Accounted none := by
  have hmem := h.mem_lru hf
  unfold BufferPoolManager.pinFrame
  by_cases hfirst : (b.metadata f).pinCount + 1 = 1
  · refine h.repin hf ?_ (fun g => ?_) ?_
    · rfl
    · rw [if_pos hfirst, h.mem_remove]
      exact ⟨Or.inr, fun hin => hin.resolve_left fun hn => hpins hn.2⟩
    · rw [if_pos hfirst]; exact h.lru_nodup.erase f
  · refine h.repin hf ?_ (fun g => ?_) ?_
    · rfl
    · rw [if_neg hfirst]
      refine ⟨fun hin => Or.inr ⟨?_, hin⟩, fun hin => (hin.resolve_left fun hn => hpins hn.2).2⟩
      rintro rfl
      exact hfirst (by rw [hmem.mp hin]; rfl)
    · rw [if_neg hfirst]; exact h.lru_nodup

theorem unpinPage (h : b.Accounted none) (id : PageId) (isDirty : Bool) :
    (b.unpinPage id isDirty).2.Accounted none := by
  unfold BufferPoolManager.unpinPage
  cases hf : b.pageTable id with
  | none => exact h
  | some f =>
    have hmem := h.mem_lru hf
    dsimp only
    by_cases hzero : (b.metadata f).pinCount = 0
    · rw [if_pos hzero]; exact h
    · rw [if_neg hzero]
      by_cases hlast : (b.metadata f).pinCount - 1 = 0
      · refine h.repin hf ?_ (fun g => ?_) ?_
        · rfl
        · rw [if_pos hlast]
          change g ∈ f :: (b.replacer.remove f).lruList ↔ _
          rw [List.mem_cons, h.mem_remove]
          exact or_congr_left ⟨fun hg => ⟨hg, hlast⟩, fun hg => hg.1⟩
        · rw [if_pos hlast]
          refine List.nodup_cons.mpr ⟨fun hin => ?_, h.lru_nodup.erase f⟩
          exact ((h.mem_remove f f).mp hin).1 rfl
      · refine h.repin hf ?_ (fun g => ?_) ?_
        · rfl
        · rw [if_neg hlast]
          refine ⟨fun hin => Or.inr ⟨?_, hin⟩, fun hin => (hin.resolve_left fun hn => hlast hn.2).2⟩
          rintro rfl
          exact hzero (hmem.mp hin)
        · rw [if_neg hlast]; exact h.lru_nodup

theorem fetchPage (h : b.Accounted none) {id : PageId}
    (hpins : ∀ f, b.pageTable id = some f → (b.metadata f).pinCount + 1 ≠ 0) :
    (b.fetchPage id).2.Accounted none := by
  unfold BufferPoolManager.fetchPage
  cases hf : b.pageTable id with
  | some f => exact h.pinFrame hf (hpins f hf)
  | none =>
    rcases h.findFreeFrame with ⟨hfind, -, -⟩ | ⟨f, b', hfind, h', -, -, htable⟩
    · simp only [hfind]; exact h
    · have habsent := (htable id).mpr (Or.inl hf)
      simp only [hfind]
      cases hread : b'.disk.readPage id with
      | none => exact h'.giveBack
      | some buffer =>
        refine h'.occupy habsent ?_ _ _
        rintro rfl
        have hlt := (DiskManager.readPage_eq_some hread).1
        exact absurd (UInt32.lt_iff_toNat_lt.mp hlt) (Nat.not_lt.mpr (Nat.le_of_lt_succ
          b'.disk.header.pageCount.toNat_lt))

theorem flushPage (h : b.Accounted none) (id : PageId) : (b.flushPage id).2.Accounted none := by
  unfold BufferPoolManager.flushPage
  cases b.pageTable id with
  | none => exact h
  | some f => exact h.writeBack f id

theorem flushFrame (h : b.Accounted none) (f : FrameId) : (b.flushFrame f).Accounted none := by
  unfold BufferPoolManager.flushFrame
  split
  · exact h.writeBack f _
  · exact h

theorem flushAllPages (h : b.Accounted none) : b.flushAllPages.Accounted none :=
  Run.invariant (fun _ f hb => hb.flushFrame f) h _

theorem deletePage (h : b.Accounted none) (id : PageId) : (b.deletePage id).2.Accounted none := by
  unfold BufferPoolManager.deletePage
  cases hf : b.pageTable id with
  | none => exact h.setDisk _
  | some f =>
    dsimp only
    by_cases hpin : (b.metadata f).pinCount > 0
    · rw [if_pos hpin]; exact h
    · rw [if_neg hpin]
      -- the frame leaves the replacer as a victim does, and goes to the free list
      have hvacate := h.vacate hf (h.mem_remove f) (h.lru_nodup.erase f)
      exact hvacate.giveBack.setDisk _

end Accounted

/-! ## 3. When NewPage keeps the invariant

`NewPage` puts the new id into the page table whatever stands there.  If the id is resident, two
frames have it. -/

/-- If `NewPage` gets a frame, the id that is allocated for it is a page id, and no frame holds
that page but the one that is about to be evicted. -/
def NewPageSafe (b : BufferPoolManager) : Prop :=
  b.freeList = [] ∧ b.replacer.lruList = [] ∨
    b.disk.nextPageId ≠ invalidPageId ∧
      (b.pageTable b.disk.nextPageId = none ∨
        b.freeList = [] ∧ b.pageTable b.disk.nextPageId = b.replacer.lruList.getLast?)

instance (b : BufferPoolManager) : Decidable b.NewPageSafe :=
  inferInstanceAs (Decidable (_ ∧ _ ∨ _ ∧ (_ ∨ _ ∧ _)))

/-- **`NewPage` keeps the bookkeeping exactly when the id it is given is safe.** -/
theorem Accounted.newPage_iff (h : b.Accounted none) :
    (b.NewPageSafe → b.newPage.2.Accounted none) ∧ (b.newPage.2.Bookkeeping → b.NewPageSafe) := by
  unfold BufferPoolManager.newPage NewPageSafe
  rcases h.findFreeFrame with ⟨hfind, hfree, hlru⟩ | ⟨f, b', hfind, h', hheader, hsize, htable⟩
  · simp only [hfind]
    exact ⟨fun _ => h, fun _ => Or.inl ⟨hfree, hlru⟩⟩
  · have hnext : b'.disk.allocatePage.1 = b.disk.nextPageId := by
      rw [DiskManager.allocatePage_fst, DiskManager.nextPageId, DiskManager.nextPageId, hheader]
    simp only [hfind, hnext]
    obtain ⟨hlt, hvacant⟩ := (h'.free_iff f).mp (Or.inr rfl)
    constructor
    · rintro (⟨hfree, hlru⟩ | ⟨hid, habsent⟩)
      · simp [BufferPoolManager.findFreeFrame, hfree, hlru, LRUReplacer.evict] at hfind
      · exact (h'.setDisk b'.disk.allocatePage.2).occupy ((htable _).mpr habsent) hid _ _
    · intro hbook
      have hmeta : ∀ g, (({ b' with disk := b'.disk.allocatePage.2 } : BufferPoolManager).occupy f
          b.disk.nextPageId (Page.ofId b.disk.nextPageId) true).metadata g
          = if g = f then ⟨b.disk.nextPageId, 1, true⟩ else b'.metadata g :=
        fun g => Function.update_apply _ _ _ _
      have hid : b.disk.nextPageId ≠ invalidPageId := by
        intro hinvalid
        -- the frame has a pin, but no page: it is in no class
        obtain ⟨c, hc, -⟩ := hbook.class_unique f hlt
        cases c with
        | free => exact h'.held_not_free f rfl hc.1
        | evictable => exact ((h'.lru_iff f).mp hc.1).2.1 hvacant
        | pinned =>
          have hocc := isOccupied_iff.mp hc.1
          rw [hmeta, if_pos rfl] at hocc
          exact hocc hinvalid
      refine Or.inr ⟨hid, (htable _).mp ?_⟩
      by_contra hresident
      obtain ⟨g, hg⟩ := Option.ne_none_iff_exists'.mp hresident
      obtain ⟨hglt, hpage, -⟩ := (h'.table_iff _ g).mp hg
      have hne : f ≠ g := by
        rintro rfl
        exact hid (hpage.symm.trans hvacant)
      -- both frames hold the page now
      refine hne (hbook.frame_unique f hlt g hglt ?_ ?_)
      · rw [hmeta, if_pos rfl]; exact isOccupied_iff.mpr hid
      · rw [hmeta, hmeta, if_pos rfl, if_neg hne.symm, hpage]

/-! ## 4. Runs

The disk is any, and calls may deallocate pages of it in between, through `DeletePage`. -/

/-- A call on a pool. -/
inductive FrameCall
  | newPage
  | fetchPage (id : PageId)
  | unpinPage (id : PageId) (isDirty : Bool)
  | deletePage (id : PageId)
  | flushPage (id : PageId)
  | flushAllPages
deriving DecidableEq, Repr

def call (b : BufferPoolManager) : FrameCall → BufferPoolManager
  | .newPage => b.newPage.2
  | .fetchPage id => (b.fetchPage id).2
  | .unpinPage id isDirty => (b.unpinPage id isDirty).2
  | .deletePage id => (b.deletePage id).2
  | .flushPage id => (b.flushPage id).2
  | .flushAllPages => b.flushAllPages

/-- The call does not take a pin count past 32 bits. -/
def PinsFit (b : BufferPoolManager) : FrameCall → Prop
  | .fetchPage id => ∀ f ∈ b.pageTable id, (b.metadata f).pinCount + 1 ≠ 0
  | _ => True

instance (b : BufferPoolManager) : DecidablePred b.PinsFit
  | .fetchPage id => inferInstanceAs (Decidable (∀ f ∈ b.pageTable id, _ ≠ _))
  | .newPage | .unpinPage _ _ | .deletePage _ | .flushPage _ | .flushAllPages =>
    inferInstanceAs (Decidable True)

/-- A `NewPage` of the run is not handed a resident page. -/
def CallSafe (b : BufferPoolManager) : FrameCall → Prop
  | .newPage => b.NewPageSafe
  | _ => True

instance (b : BufferPoolManager) : DecidablePred b.CallSafe
  | .newPage => inferInstanceAs (Decidable b.NewPageSafe)
  | .fetchPage _ | .unpinPage _ _ | .deletePage _ | .flushPage _ | .flushAllPages =>
    inferInstanceAs (Decidable True)

/-- One call. -/
theorem Accounted.call (h : b.Accounted none) {c : FrameCall} (hpins : b.PinsFit c)
    (hsafe : b.CallSafe c) : (b.call c).Accounted none := by
  cases c with
  | newPage => exact h.newPage_iff.1 hsafe
  | fetchPage id => exact h.fetchPage hpins
  | unpinPage id isDirty => exact h.unpinPage id isDirty
  | deletePage id => exact h.deletePage id
  | flushPage id => exact h.flushPage id
  | flushAllPages => exact h.flushAllPages

theorem Accounted.callSafe (h : b.Accounted none) {c : FrameCall}
    (hbook : (b.call c).Bookkeeping) : b.CallSafe c := by
  cases c with
  | newPage => exact h.newPage_iff.2 hbook
  | fetchPage | unpinPage | deletePage | flushPage | flushAllPages => trivial

theorem Accounted.run_iff {calls : List FrameCall} : ∀ {b : BufferPoolManager},
    b.Accounted none → Run.StepsOk BufferPoolManager.call PinsFit b calls →
    ((∀ pre, pre <+: calls → (pre.foldl BufferPoolManager.call b).Bookkeeping) ↔
      Run.StepsOk BufferPoolManager.call CallSafe b calls) := by
  induction calls with
  | nil =>
    rintro b h -
    refine ⟨fun _ => trivial, fun _ pre hpre => ?_⟩
    rw [List.prefix_nil.mp hpre]
    exact h.bookkeeping
  | cons c calls ih =>
    rintro b h ⟨hpins, hrest⟩
    constructor
    · intro hall
      have hsafe := h.callSafe (hall [c] ⟨calls, rfl⟩)
      refine ⟨hsafe, (ih (h.call hpins hsafe) hrest).mp fun pre hpre => ?_⟩
      exact hall (c :: pre) (List.cons_prefix_cons.mpr ⟨rfl, hpre⟩)
    · rintro ⟨hsafe, hsafes⟩ pre hpre
      cases pre with
      | nil => exact h.bookkeeping
      | cons c' pre =>
        obtain ⟨rfl, htail⟩ := List.cons_prefix_cons.mp hpre
        exact (ih (h.call hpins hsafe) hrest).mpr hsafes pre htail

/-- **Frame bookkeeping.**  Along every run from a new pool, over any disk, in which no pin
count overflows, each state has its bookkeeping in order exactly when each `NewPage` that gets a
frame is given a page id that no frame holds, the evicted one apart. -/
theorem bookkeeping_iff (n : Nat) (d : DiskManager) {calls : List FrameCall}
    (hpins : Run.StepsOk call PinsFit (create n d) calls) :
    (∀ pre, pre <+: calls → (pre.foldl call (create n d)).Bookkeeping) ↔
      Run.StepsOk call CallSafe (create n d) calls :=
  (accounted_create n d).run_iff hpins

/-- A page is deleted, its id is handed out again, and it is evicted. -/
theorem bookkeeping_recycled :
    let calls : List FrameCall := [.newPage, .unpinPage 1 false, .deletePage 1, .newPage,
      .fetchPage 1, .unpinPage 1 true, .unpinPage 1 true, .newPage]
    ∀ pre, pre <+: calls →
      (pre.foldl call (create 1 .initializeNewFile)).Bookkeeping :=
  (bookkeeping_iff 1 .initializeNewFile (by decide +kernel)).mpr (by decide +kernel)

/-- Page 1 is deallocated twice, and two frames end up with it. -/
theorem page_in_two_frames :
    ¬ ([FrameCall.newPage, .unpinPage 1 false, .deletePage 1, .deletePage 1, .newPage,
      .newPage].foldl call (create 2 .initializeNewFile)).Bookkeeping := by
  intro h
  exact absurd (h.frame_unique 0 (by decide +kernel) 1 (by decide +kernel) (by decide +kernel)
    (by decide +kernel)) (by decide)

end BufferPoolManager

end CourtDB
