/-
# The pins of tidy programs on any pool

What the pages of a pool hold, and what is on its disk, does not matter for its pins.  A pool whose
bookkeeping is in order (`Accounted`) keeps a tally: a fetch that succeeds, and a `NewPage`, add one
pin to one page, an `UnpinPage` takes one away, and an eviction concerns pages without pins.  So
after a tidy program the pins are those of the others and those of the pages it still holds
(`Tallies.exec_tidy`), under any pattern of refusals.

A program is tidy or not by its text alone: that is proved in `Buffer.OwnPins` and the modules above
it, without a pool.  Here such a program is run on a pool.  Two conditions remain that no program
can keep by itself (`RefusedOrSafe`): no pin count is taken past its 32 bits, and `NewPage` is not
handed the id of a page that is in a frame already, which would leave two frames with one id.
-/
import CourtDB.Buffer.FrameClasses
import CourtDB.Buffer.OwnPins

namespace CourtDB

namespace BufferPoolManager

variable {b b' : BufferPoolManager} {held : Option FrameId} {id x : PageId} {f : FrameId}

/-! ## 1. The pins after each call

The pins of a page are the pin count of the frame that the page table names for it, so each lemma
looks at the table and at the metadata. -/

/-- Pins depend on the table and the pin counts only. -/
theorem pinsOf_congr (htable : b'.pageTable x = b.pageTable x)
    (hmeta : ∀ g, b.pageTable x = some g → (b'.metadata g).pinCount = (b.metadata g).pinCount) :
    b'.pinsOf x = b.pinsOf x := by
  rw [pinsOf, pinsOf, htable]
  cases hf : b.pageTable x with
  | none => rfl
  | some g => simp only [hmeta g hf]

/-- A pin count that does not overflow. -/
theorem toNat_succ_of_ne {a : UInt32} (h : a + 1 ≠ 0) : (a + 1).toNat = a.toNat + 1 := by
  have hadd : (a + 1).toNat = (a.toNat + 1) % 2 ^ 32 := UInt32.toNat_add a 1
  have hne : (a + 1).toNat ≠ 0 := fun h0 => h (UInt32.toNat_inj.mp h0)
  have hlt := a.toNat_lt
  omega

/-- Two resident pages are in different frames. -/
theorem Accounted.frame_ne (h : b.Accounted held) {g : FrameId} (hf : b.pageTable id = some f)
    (hg : b.pageTable x = some g) (hne : x ≠ id) : g ≠ f := by
  rintro rfl
  exact hne (((h.table_iff x g).mp hg).2.1.symm.trans ((h.table_iff id g).mp hf).2.1)

/-- **Eviction** takes no pins away. -/
theorem Accounted.pinsOf_findFreeFrame (h : b.Accounted none) {r : Option FrameId}
    (hr : b.findFreeFrame = (r, b')) (x : PageId) : b'.pinsOf x = b.pinsOf x := by
  unfold BufferPoolManager.findFreeFrame at hr
  split at hr
  · obtain ⟨-, rfl⟩ := Prod.mk.inj hr
    rfl
  · cases hlast : b.replacer.lruList.getLast? with
    | none =>
      simp only [LRUReplacer.evict, hlast] at hr
      obtain ⟨-, rfl⟩ := Prod.mk.inj hr
      rfl
    | some victim =>
      simp only [LRUReplacer.evict, hlast] at hr
      obtain ⟨-, rfl⟩ := Prod.mk.inj hr
      obtain ⟨hlt, hocc, hzero⟩ := (h.lru_iff victim).mp (List.mem_of_getLast? hlast)
      have hresident := (h.table_iff _ victim).mpr ⟨hlt, rfl, hocc⟩
      by_cases hx : x = (b.metadata victim).pageId
      · have hgone : (evictFrame { b with replacer := ⟨b.replacer.lruList.dropLast⟩ }
          victim).pageTable x
            = none := by
          rw [evictFrame_pageTable, if_pos hx]
        rw [pinsOf_of_absent hgone, pinsOf_of_table (hx ▸ hresident), hzero]
        rfl
      · refine pinsOf_congr ?_ fun g hg => ?_
        · rw [evictFrame_pageTable, if_neg hx]
        · rw [evictFrame_metadata _ (h.frame_ne hresident hg hx)]

/-- The frame that was taken gets a page. -/
theorem Accounted.pinsOf_occupy (h : b.Accounted (some f)) (habsent : b.pageTable id = none)
    (page : Page) (isDirty : Bool) (x : PageId) :
    (b.occupy f id page isDirty).pinsOf x = b.pinsOf x + if x = id then 1 else 0 := by
  obtain ⟨-, hvacant⟩ := (h.free_iff f).mp (Or.inr rfl)
  by_cases hx : x = id
  · subst hx
    have htable : (b.occupy f x page isDirty).pageTable x = some f := Function.update_self _ _ _
    have hmeta : (b.occupy f x page isDirty).metadata f = ⟨x, 1, isDirty⟩ :=
      Function.update_self _ _ _
    rw [pinsOf_of_table htable, pinsOf_of_absent habsent, hmeta, if_pos rfl]
    rfl
  · rw [if_neg hx, Nat.add_zero]
    refine pinsOf_congr (Function.update_of_ne hx _ _) fun g hg => ?_
    obtain ⟨-, hpage, hne⟩ := (h.table_iff x g).mp hg
    have hgf : g ≠ f := by
      rintro rfl
      exact hne (hpage.symm.trans hvacant)
    exact congrArg FrameMetadata.pinCount (Function.update_of_ne hgf _ _)

/-- One more pin on a resident page. -/
theorem Accounted.pinsOf_pinFrame (h : b.Accounted none) (hf : b.pageTable id = some f)
    (hpins : (b.metadata f).pinCount + 1 ≠ 0) (x : PageId) :
    (b.pinFrame f).pinsOf x = b.pinsOf x + if x = id then 1 else 0 := by
  have htable : ∀ y, (b.pinFrame f).pageTable y = b.pageTable y := fun _ => rfl
  have hmeta : ∀ g, ((b.pinFrame f).metadata g).pinCount
      = if g = f then (b.metadata f).pinCount + 1 else (b.metadata g).pinCount := by
    intro g
    unfold BufferPoolManager.pinFrame
    rw [setMeta_metadata]
    split <;> rfl
  by_cases hx : x = id
  · subst hx
    rw [pinsOf_of_table ((htable x).trans hf), pinsOf_of_table hf, hmeta, if_pos rfl, if_pos rfl]
    exact toNat_succ_of_ne hpins
  · rw [if_neg hx, Nat.add_zero]
    refine pinsOf_congr (htable x) fun g hg => ?_
    rw [hmeta, if_neg (h.frame_ne hf hg hx)]

/-- **FetchPage.** -/
theorem Accounted.pinsOf_fetchPage (h : b.Accounted none) (hfit : b.PinsFit (.fetchPage id))
    (x : PageId) : (b.fetchPage id).2.pinsOf x
      = b.pinsOf x + if (b.fetchPage id).1.isSome ∧ x = id then 1 else 0 := by
  unfold BufferPoolManager.fetchPage
  cases hf : b.pageTable id with
  | some f =>
    simp only [Option.isSome_some, true_and]
    exact h.pinsOf_pinFrame hf (hfit f hf) x
  | none =>
    rcases h.findFreeFrame with ⟨hfind, -, -⟩ | ⟨f, b', hfind, h', -, -, htable⟩
    · simp [hfind]
    · have hkept := h.pinsOf_findFreeFrame hfind
      have habsent := (htable id).mpr (Or.inl hf)
      simp only [hfind]
      cases hread : b'.disk.readPage id with
      | none =>
        rw [if_neg (by simp), Nat.add_zero, ← hkept x]
        rfl
      | some buffer =>
        simp only [Option.isSome_some, true_and]
        rw [← hkept x]
        exact h'.pinsOf_occupy habsent _ _ x

/-- **NewPage**, with an id that no frame holds. -/
theorem Accounted.pinsOf_newPage (h : b.Accounted none) (hsafe : b.NewPageSafe) (x : PageId) :
    b.newPage.2.pinsOf x = b.pinsOf x + if b.newPageId = some x then 1 else 0 := by
  rcases h.findFreeFrame with ⟨hfind, -, -⟩ | ⟨f, b', hfind, h', hheader, -, htable⟩
  · simp [newPageId, BufferPoolManager.newPage, hfind]
  · have hkept := h.pinsOf_findFreeFrame hfind
    have hnext : b'.disk.allocatePage.1 = b.disk.nextPageId := by
      rw [DiskManager.allocatePage_fst, DiskManager.nextPageId, DiskManager.nextPageId, hheader]
    have habsent : b'.pageTable b.disk.nextPageId = none := by
      rcases hsafe with ⟨hfree, hlru⟩ | ⟨-, habsent⟩
      · simp [BufferPoolManager.findFreeFrame, hfree, hlru, LRUReplacer.evict] at hfind
      · exact (htable _).mpr habsent
    have hid : b.newPageId = some b.disk.nextPageId := by
      simp [newPageId, BufferPoolManager.newPage, hfind, BufferPoolManager.occupy, setMeta, setPage,
        hnext, Page.getPageId, Page.ofId]
    rw [hid]
    simp only [BufferPoolManager.newPage, hfind, hnext]
    rw [← hkept x, (h'.setDisk b'.disk.allocatePage.2).pinsOf_occupy habsent]
    simp only [Option.some.injEq, @eq_comm _ x]
    rfl

/-- **UnpinPage** of a pinned page. -/
theorem Accounted.pinsOf_unpinPage (h : b.Accounted none) (hpos : 0 < b.pinsOf id) (isDirty : Bool)
    (x : PageId) :
    (b.unpinPage id isDirty).2.pinsOf x = b.pinsOf x - if x = id then 1 else 0 := by
  cases hf : b.pageTable id with
  | none =>
    rw [pinsOf_of_absent hf] at hpos
    exact absurd hpos (Nat.lt_irrefl 0)
  | some f =>
    rw [pinsOf_of_table hf] at hpos
    have hne : (b.metadata f).pinCount ≠ 0 := fun h0 => by
      rw [h0] at hpos
      exact absurd hpos (Nat.lt_irrefl 0)
    simp only [BufferPoolManager.unpinPage, hf, if_neg hne]
    by_cases hx : x = id
    · subst hx
      rw [if_pos rfl, pinsOf_of_table hf]
      have htable : ∀ (r : LRUReplacer) (m : FrameMetadata),
          (({ b with replacer := r } : BufferPoolManager).setMeta f m).pageTable x = some f :=
        fun _ _ => hf
      rw [pinsOf_of_table (htable _ _), setMeta_metadata, if_pos rfl]
      exact UInt32.toNat_sub_of_le _ _ (UInt32.le_iff_toNat_le.mpr hpos)
    · rw [if_neg hx, Nat.sub_zero]
      refine pinsOf_congr rfl fun g hg => ?_
      rw [setMeta_metadata, if_neg (h.frame_ne hf hg hx)]

theorem pinsOf_setResidentPage (b : BufferPoolManager) (p : Page) :
    (b.setResidentPage id p).pinsOf x = b.pinsOf x := by
  unfold setResidentPage
  cases b.pageTable id <;> rfl

theorem Accounted.setResidentPage (h : b.Accounted held) (p : Page) :
    (b.setResidentPage id p).Accounted held := by
  unfold BufferPoolManager.setResidentPage
  cases b.pageTable id with
  | none => exact h
  | some f => exact h.congr rfl rfl rfl rfl fun _ => ⟨rfl, rfl⟩

theorem pinsOf_writeBack (b : BufferPoolManager) (f : FrameId) (id : PageId) :
    (b.writeBack f id).pinsOf x = b.pinsOf x := by
  refine pinsOf_congr rfl fun g _ => ?_
  rw [writeBack_metadata]
  split
  · rename_i hg
    rw [hg]
  · rfl

/-- **FlushAllPages.** -/
theorem pinsOf_flushAllPages (b : BufferPoolManager) : b.flushAllPages.pinsOf x = b.pinsOf x := by
  refine Run.invariant (I := fun c : BufferPoolManager => c.pinsOf x = b.pinsOf x)
    (fun c f hc => ?_) rfl _
  unfold flushFrame
  split
  · rw [pinsOf_writeBack, hc]
  · exact hc

/-! ## 2. Tidy programs -/

/-- The bookkeeping is in order, and each page has the pins `base` and one for each time it is
held. -/
def Tallies (base : PageId → Nat) (s : Refusals × BufferPoolManager) (held : List PageId) : Prop :=
  s.2.Accounted none ∧ ∀ id, s.2.pinsOf id = base id + held.count id

/-- The call is refused by the pattern, or takes no pin count past 32 bits, and is handed no page id
that is in a frame. -/
def RefusedOrSafe (s : Refusals × BufferPoolManager) : PoolCall → Prop
  | .fetch id => s.1.headD false = true ∨ s.2.PinsFit (.fetchPage id)
  | .new => s.1.headD false = true ∨ s.2.NewPageSafe
  | .unpin _ _ | .read _ | .write _ _ | .flushAll => True

instance (s : Refusals × BufferPoolManager) : DecidablePred (RefusedOrSafe s)
  | .fetch id => inferInstanceAs (Decidable (_ ∨ s.2.PinsFit (.fetchPage id)))
  | .new => inferInstanceAs (Decidable (_ ∨ s.2.NewPageSafe))
  | .unpin _ _ | .read _ | .write _ _ | .flushAll => inferInstanceAs (Decidable True)

/-- **One call of a tidy program.** -/
theorem Tallies.handle {base : PageId → Nat} {k : Nat} (o : PoolCall)
    {s : Refusals × BufferPoolManager} {held : List PageId} {Q : o.Result → List PageId → Prop}
    (h : Tallies base s held) (ho : RefusedOrSafe s o) (hspec : (tidySpec k).call o Q held) :
    ∃ held', Q (handleRefusing o s).1 held' ∧ Tallies base (handleRefusing o s).2 held' := by
  obtain ⟨ps, b⟩ := s
  obtain ⟨hacc, hpins⟩ : b.Accounted none ∧ ∀ id, b.pinsOf id = base id + held.count id := h
  have hcons : ∀ id x, base x + held.count x + (if x = id then 1 else 0)
      = base x + (id :: held).count x := by
    intro id x
    rw [List.count_cons, Nat.add_assoc]
    simp only [beq_iff_eq, @eq_comm _ x]
  cases o with
  | fetch id =>
    by_cases hr : ps.headD false = true
    · -- the request is refused, and the client has no page more
      rw [handleRefusing, if_pos hr]
      exact ⟨held, hspec.1, hacc, hpins⟩
    · rw [handleRefusing, if_neg hr]
      have hfit := Or.resolve_left ho hr
      have hsum := hacc.pinsOf_fetchPage hfit
      have hacc' := hacc.fetchPage hfit
      simp only [BufferPoolManager.handle]
      cases hf : (b.fetchPage id).1 with
      -- no frame is left, or the read failed
      | none =>
        refine ⟨held, hspec.1, hacc', fun x => ?_⟩
        rw [hsum x, hf, if_neg (by simp), Nat.add_zero, hpins]
      -- page `id` has one pin more
      | some f =>
        refine ⟨id :: held, hspec.2.2, hacc', fun x => ?_⟩
        rw [hsum x, hf, ← hcons, hpins]
        simp only [Option.isSome_some, true_and]
  | new =>
    by_cases hr : ps.headD false = true
    · rw [handleRefusing, if_pos hr]
      exact ⟨held, hspec.1, hacc, hpins⟩
    · rw [handleRefusing, if_neg hr]
      have hsafe := Or.resolve_left ho hr
      have hsum := hacc.pinsOf_newPage hsafe
      have hacc' := hacc.newPage_iff.1 hsafe
      simp only [BufferPoolManager.handle]
      cases hf : b.newPageId with
      -- no frame is left
      | none =>
        refine ⟨held, hspec.1, hacc', fun x => ?_⟩
        rw [hsum x, hf, if_neg (by simp), Nat.add_zero, hpins]
      | some id =>
        refine ⟨id :: held, hspec.2.2 id, hacc', fun x => ?_⟩
        rw [hsum x, hf, ← hcons, hpins]
        simp only [Option.some.injEq, @eq_comm _ x]
  | unpin id isDirty =>
    have hpos : 0 < b.pinsOf id := by
      rw [hpins]
      exact Nat.add_pos_right _ (List.count_pos_iff.mpr hspec.1)
    refine ⟨held.erase id, hspec.2 _, hacc.unpinPage id isDirty, fun x => ?_⟩
    change (b.unpinPage id isDirty).2.pinsOf x = _
    rw [hacc.pinsOf_unpinPage hpos, hpins]
    by_cases hx : x = id
    · have hcount := List.count_pos_iff.mpr hspec.1
      rw [hx, if_pos rfl, List.count_erase_self]
      omega
    · rw [if_neg hx, List.count_erase_of_ne hx, Nat.sub_zero]
  | read id => exact ⟨held, hspec _, hacc, hpins⟩
  | write id p =>
    refine ⟨held, hspec, hacc.setResidentPage p, fun x => ?_⟩
    exact (pinsOf_setResidentPage b p).trans (hpins x)
  | flushAll =>
    refine ⟨held, hspec, hacc.flushAllPages, fun x => ?_⟩
    exact (pinsOf_flushAllPages b).trans (hpins x)

/-- **A tidy program keeps the tally**, whatever the pages hold and whichever requests are refused.
-/
theorem Tallies.exec_tidy {α : Type} {m : PoolM α} {k : Nat} {T : α → List PageId → Prop}
    {base : PageId → Nat} {s : Refusals × BufferPoolManager} {held : List PageId}
    (h : Tallies base s held) (hok : m.CallsOk handleRefusing RefusedOrSafe s)
    (hT : m.Tidy k T held) :
    ∃ held', T (m.run handleRefusing s).1 held' ∧ Tallies base (m.run handleRefusing s).2 held' :=
  Program.wp_sound (fun o _ _ _ hs ho hspec => hs.handle o ho hspec) h hok hT

end BufferPoolManager

end CourtDB
