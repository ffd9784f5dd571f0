/-
# One page at a time

A pool between two calls of a client that holds no pins is `Idle`.  On such a pool a page that
exists can always be fetched, whatever the number of frames, so a client that pins one page,
changes it and unpins it as dirty finds the pool idle again, with exactly that page changed
(`Idle.withPage`).

This is all that logging and recovery need of the pool: the pages they see are the ones the
pool represents.
-/
import CourtDB.Buffer.PoolLogic

namespace CourtDB

/-! ## 1. Views of one pin -/

namespace View

variable {n : Nat} {m : PageId → Option Page} {id : PageId}

theorem not_exhausted_quiet (hn : 0 < n) : ¬ (quiet n m).Exhausted := by
  rintro ⟨ids, -, hlen, hpins⟩
  cases ids with
  | nil => exact absurd hlen (Nat.not_le.mpr hn)
  | cons id ids => exact absurd (hpins id List.mem_cons_self) (Nat.lt_irrefl 0)

/-- A page is pinned, changed, and given back as changed. -/
theorem quiet_access (p : Page) :
    (((quiet n m).pin id).write id p).unpin id true
      = quiet n (Function.update m id (some p)) := by
  simp [quiet, pin, write, unpin]

/-- A page is created and given back. -/
theorem quiet_add :
    ((quiet n m).add id).unpin id true
      = quiet n (Function.update m id (some (Page.ofId id))) := by
  simp [quiet, add, unpin]

end View

namespace BufferPoolManager

variable {b : BufferPoolManager} {m : PageId → Option Page}

/-! ## 2. Idle pools -/

/-- Nobody holds a pin, no change is undeclared, and `m` is the pages of the file. -/
structure Idle (b : BufferPoolManager) (m : PageId → Option Page) : Prop where
  shows : b.Shows (View.quiet b.poolSize m)
  size_pos : 0 < b.poolSize

theorem Shows.idle {n : Nat} (h : b.Shows (View.quiet n m)) (hn : 0 < n) : b.Idle m := by
  have hsize : b.poolSize = n := h.frames
  exact ⟨hsize.symm ▸ h, hsize.symm ▸ hn⟩

/-- The pages that exist are the ones an idle pool represents. -/
theorem Idle.isSome_iff (h : b.Idle m) {id : PageId} :
    (m id).isSome ↔ id ≠ 0 ∧ id < b.disk.header.pageCount := h.shows.isSome_iff

/-- A new pool over a file whose images hold the pages of `m`. -/
theorem idle_create {n : Nat} (hn : 0 < n) {d : DiskManager} (hd : d.Growing)
    (hm : ∀ id q, m id = some q → q.DirectoryFits ∧ id ≠ 0 ∧ id < d.header.pageCount ∧
      q.StoredIn (d.file id))
    (hcov : ∀ id, id ≠ 0 → id < d.header.pageCount → (m id).isSome) : (create n d).Idle m where
  shows :=
    { frames := rfl
      rep :=
        { wf := wellFormed_create n hd
          pinned := fun _ hf => absurd hf Bool.false_ne_true
          holds := fun id q hq =>
            { fits := (hm id q hq).1
              ne_zero := (hm id q hq).2.1
              lt := (hm id q hq).2.2.1
              absent := fun _ => (hm id q hq).2.2.2
              present := fun _ hf => absurd hf (by simp [create]) } }
      pins := fun _ => rfl
      covers := hcov
      available := fun _ hf => .inl (.inl (List.mem_range.mpr hf)) }
  size_pos := hn

/-- A pool over a new file. -/
def overNewFile (n : Nat) : BufferPoolManager := create n DiskManager.initializeNewFile

theorem idle_overNewFile {n : Nat} (hn : 0 < n) : (overNewFile n).Idle fun _ => none := by
  refine idle_create hn DiskManager.growing_initializeNewFile
    (fun _ _ hq => absurd hq (by simp)) fun id h0 hlt => absurd ?_ h0
  have h1 := UInt32.lt_iff_toNat_lt.mp hlt
  have h2 : DiskManager.initializeNewFile.header.pageCount.toNat = 1 := rfl
  exact UInt32.toNat_inj.mp (by simp; omega)

/-- With a frame left, **FetchPage succeeds** for every page that exists. -/
theorem Shows.fetchPage_some {v : View} (h : b.Shows v) {id : PageId} (hs : (v.pages id).isSome)
    (hpin : v.pins id + 1 < 2 ^ 32) (hfree : ¬ v.Exhausted) :
    ∃ f, (b.fetchPage id).1 = some f ∧ (b.fetchPage id).2.Shows (v.pin id) := by
  obtain ⟨hnull, hptr⟩ := h.fetchPage (h.isSome_iff.mp hs).1 hpin
  cases hf : (b.fetchPage id).1 with
  | none => exact absurd ((hnull hf).2 hs) hfree
  | some f => exact ⟨f, rfl, (hptr f hf).2⟩

/-- So it does on an idle pool. -/
theorem Idle.fetchPage (h : b.Idle m) {id : PageId} (hs : (m id).isSome) :
    ∃ f, (b.fetchPage id).1 = some f ∧
      (b.fetchPage id).2.Shows ((View.quiet b.poolSize m).pin id) :=
  h.shows.fetchPage_some hs (by simp [View.quiet]) (View.not_exhausted_quiet h.size_pos)

/-! ## 3. What a client sees -/

/-- The page a client gets when it fetches `id`. -/
def pageOf (b : BufferPoolManager) (id : PageId) : Option Page :=
  (b.fetchPage id).1.map (b.fetchPage id).2.pages

/-- The record a client finds in a slot of page `id`. -/
def recordOf (b : BufferPoolManager) (id : PageId) (slotId : UInt16) : Option (List UInt8) :=
  (b.pageOf id).bind fun p => p.getRecord slotId

/-- The page a client gets is the one in the frame that `FetchPage` returns. -/
theorem Represents.pageOf {pending : PageId → Prop} (h : b.Represents m pending) {id : PageId}
    {f : FrameId} (hf : (b.fetchPage id).1 = some f) :
    b.pageOf id = some ((b.fetchPage id).2.residentPage id) := by
  obtain ⟨htab, -⟩ := (h.fetchPage id).2 f hf
  rw [BufferPoolManager.pageOf, hf, residentPage, htab]
  rfl

theorem Shows.pageOf {v : View} (h : b.Shows v) {id : PageId} {q : Page} (hq : v.pages id = some q)
    (hpin : v.pins id + 1 < 2 ^ 32) (hfree : ¬ v.Exhausted) :
    ∃ p, b.pageOf id = some p ∧ p.SameContent q := by
  obtain ⟨f, hf, hshows⟩ := h.fetchPage_some (by rw [hq]; rfl) hpin hfree
  refine ⟨_, h.rep.pageOf hf, hshows.residentPage hq ?_⟩
  simp [View.pin]

theorem Idle.pageOf (h : b.Idle m) {id : PageId} {q : Page} (hq : m id = some q) :
    ∃ p, b.pageOf id = some p ∧ p.SameContent q :=
  h.shows.pageOf hq (by simp [View.quiet]) (View.not_exhausted_quiet h.size_pos)

/-- Only a represented page can be fetched. -/
theorem Idle.of_pageOf (h : b.Idle m) {id : PageId} {p : Page} (h0 : id ≠ 0)
    (hp : b.pageOf id = some p) : ∃ q, m id = some q ∧ p.SameContent q := by
  have hpins : (View.quiet b.poolSize m).pins id + 1 < 2 ^ 32 := by simp [View.quiet]
  obtain ⟨f, hf, -⟩ := Option.map_eq_some_iff.mp hp
  obtain ⟨q, hq⟩ := Option.isSome_iff_exists.mp ((h.shows.fetchPage h0 hpins).2 f hf).1
  obtain ⟨p', hp', hsame⟩ := h.pageOf hq
  exact ⟨q, hq, Option.some.inj (hp.symm.trans hp') ▸ hsame⟩

/-- The records a client finds are those of the represented page. -/
theorem Idle.recordOf (h : b.Idle m) {id : PageId} {q : Page} (hq : m id = some q)
    (hlay : q.Layout) (slotId : UInt16) : b.recordOf id slotId = q.getRecord slotId := by
  obtain ⟨p, hp, hsame⟩ := h.pageOf hq
  rw [BufferPoolManager.recordOf, hp, Option.bind_some,
    hsame.getRecord (hsame.symm.layout hlay) slotId]

/-! ## 4. Accesses -/

/-- **One access to an idle pool.**  The program fetches the page, changes it and unpins it as
dirty: the pool then represents the page the program left. -/
theorem Idle.withPage (h : b.Idle m) {α : Type} {id : PageId} {q : Page} (hq : m id = some q)
    {f : Page → α × Page} (dflt : α)
    (hfits : ∀ p, b.pageOf id = some p → p.SameContent q → (f p).2.DirectoryFits) :
    ∃ p, b.pageOf id = some p ∧ p.SameContent q ∧
      ((CourtDB.withPage id f dflt).exec b).1 = (f p).1 ∧
      ((CourtDB.withPage id f dflt).exec b).2.Idle (Function.update m id (some (f p).2)) := by
  have hs : (m id).isSome := by rw [hq]; rfl
  obtain ⟨fr, hfr, hpin⟩ := h.fetchPage hs
  have hpos : 0 < ((View.quiet b.poolSize m).pin id).pins id := by simp [View.pin, View.quiet]
  have hpage := hpin.residentPage hq hpos
  have hof := h.shows.rep.pageOf hfr
  have hwrite := hpin.setResidentPage hs hpos (hfits _ hof hpage)
  obtain ⟨-, hun⟩ := hwrite.unpinPage id true
  obtain ⟨-, hidle⟩ := hun (by simp [View.pin, View.quiet, View.write]) fun _ _ => rfl
  rw [View.quiet_access] at hidle
  refine ⟨_, hof, hpage, ?_⟩
  simp only [CourtDB.withPage, PoolM.exec_bind, PoolM.exec_fetchPage, hfr, Option.isSome_some,
    if_true, PoolM.exec_readPage, PoolM.exec_writePage, PoolM.exec_unpinPage, PoolM.exec_pure]
  exact ⟨trivial, hidle.idle h.size_pos⟩

/-- **A client creates a page** in an idle pool and gives it back. -/
theorem Idle.newPage (h : b.Idle m) (hid : b.disk.header.pageCount ≠ invalidPageId) :
    b.newPageId = some b.disk.header.pageCount ∧
      (b.newPage.2.unpinPage b.disk.header.pageCount true).2.Idle
        (Function.update m b.disk.header.pageCount
          (some (Page.ofId b.disk.header.pageCount))) := by
  have hcases := h.shows.rep.wf.newPageId
  have hvalid : b.newPageId ≠ some invalidPageId := by
    rcases hcases with hn | hn <;> rw [hn]
    · simp
    · exact fun he => hid (Option.some.inj he)
  obtain ⟨hnull, hptr⟩ := h.shows.newPage hvalid
  have hnew := hcases.resolve_left fun hn =>
    View.not_exhausted_quiet h.size_pos (hnull hn).2
  obtain ⟨-, -, -, -, hadd⟩ := hptr _ hnew
  obtain ⟨-, hun⟩ := hadd.unpinPage b.disk.header.pageCount true
  obtain ⟨-, hidle⟩ := hun (by simp [View.add]) fun _ _ => rfl
  rw [View.quiet_add] at hidle
  exact ⟨hnew, hidle.idle h.size_pos⟩

/-! ## 5. Flushing and reopening -/

/-- Flushing leaves an idle pool idle. -/
theorem Idle.flushAllPages (h : b.Idle m) :
    b.flushAllPages.Idle m ∧ b.flushAllPages.disk.header = b.disk.header :=
  ⟨h.shows.flushAllPages.1.idle h.size_pos, h.shows.flushAllPages.2⟩

/-- Closing the pool and opening one of `n` frames over the same disk. -/
theorem Idle.reopen (h : b.Idle m) {n : Nat} (hn : 0 < n) : (b.reopen n).Idle m where
  shows :=
    { frames := rfl
      rep := h.shows.rep.reopen (fun _ hf => absurd hf Bool.false_ne_true) n |>.of_iff
        fun _ => ⟨fun hf => absurd hf Bool.false_ne_true, False.elim⟩
      pins := fun _ => rfl
      covers := fun i h0 hi => h.flushAllPages.1.shows.covers i h0 hi
      available := fun _ hf => .inl (.inl (List.mem_range.mpr hf)) }
  size_pos := hn

end BufferPoolManager

end CourtDB
