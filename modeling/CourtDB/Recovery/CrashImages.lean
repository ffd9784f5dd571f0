/-
# Crashes that leave pages of different ages

A crash may leave each page on disk as it was after any part of its operations (`CrashDisk`).
With a log that reaches back to the creation of the pages, every insert that recovery repeats
lands in the slot its log record names (`redo_inserts_in_place`): the comment in `RedoRecord`
that hopes for it is right there.

After a checkpoint and a truncation the log starts from pages that hold records already, and a
repeated insert can land in a slot that those records left since (`checkpoint_loses_record`).
Recovery restores the database where no insert goes astray in this way
(`recover_after_checkpoint`).
-/
import CourtDB.Recovery.CrashRecovery

namespace CourtDB

open RedoLog

namespace Database

open BufferPoolManager (RedoOk RoomFor)

variable {d : Database} {m : PageId → Option Page} {start : PageId → Store (List UInt8)}

/-! ## 1. Crash images -/

/-- What a crash in the run of `ops` from `d` leaves on disk: the header, which every allocation
writes, and each page as it was after some of the operations. -/
structure CrashDisk (d : Database) (ops : List LoggedOp) (disk : DiskManager) : Prop where
  growing : disk.Growing
  pageCount : disk.header.pageCount = (d.run ops).pool.disk.header.pageCount
  image : ∀ id, (d.run ops).OnPage id → ∃ before after, ops = before ++ after ∧
    ∃ p, (d.run before).pool.pageOf id = some p ∧ p.StoredIn (disk.file id)

theorem run_append (d : Database) (before after : List LoggedOp) :
    d.run (before ++ after) = (d.run before).run after := List.foldl_append

/-- Closing the database is a crash that leaves every page as it is now. -/
theorem Upholds.crashDisk {P : PageId → List LogRecord → Page → Prop} {ops : List LoggedOp}
    (h : (d.run ops).Upholds P m) : CrashDisk d ops (d.run ops).pool.flushAllPages.disk where
  growing := h.idle.flushAllPages.1.shows.rep.wf.growing
  pageCount := congrArg _ h.idle.flushAllPages.2
  image id hid := by
    obtain ⟨q, hq⟩ := Option.isSome_iff_exists.mp (h.idle.isSome_iff.mpr hid)
    obtain ⟨p, hp, hsame⟩ := h.idle.pageOf hq
    have hstored := ((h.idle.reopen Nat.one_pos).shows.rep.holds id q hq).absent rfl
    exact ⟨ops, [], (List.append_nil ops).symm, p, hp, fun frame =>
      (hstored frame).trans hsame.symm⟩

/-- **Crash images are images of the past** of the pages. -/
theorem Upholds.images (h : d.Upholds (Past start) m) {ops : List LoggedOp}
    (ok : Run.StepsOk Database.step (Allowed Page.UpdateInBounds) d ops) {disk : DiskManager}
    (hdisk : CrashDisk d ops disk) {n : Nat} (hn : 0 < n) :
    ∃ seen m₀, (d.run ops).Images start seen (.create n disk) m₀ := by
  -- a page has the image of some moment of the run
  have himage : ∀ id, ∃ (q : Page) (ops' : List (Op (List UInt8))),
      (d.run ops).OnPage id → q.Layout ∧ q.recordAt = RedoLog.run (start id) ops' ∧
        ops' <+: pageOps id (d.run ops).log ∧ q.StoredIn (disk.file id) := by
    intro id
    by_cases hid : (d.run ops).OnPage id
    · obtain ⟨before, after, rfl, p, hp, hstored⟩ := hdisk.image id hid
      -- the run up to that moment upholds the past of the page
      obtain ⟨m₁, h₁, -⟩ := h.run stands_past (Run.stepsOk_append.mp ok).1
      obtain ⟨q, hq, hsame⟩ := h₁.idle.of_pageOf hid.1 hp
      have hpast := pageInvariant_past.congr (h₁.page id q hq) hsame
      -- the log has grown since then, so what the page has seen is a prefix
      obtain ⟨rest, hrest⟩ := log_prefix after (d.run before)
      refine ⟨p, _, fun _ => ⟨hpast.layout, hpast.records, ?_, hstored⟩⟩
      rw [run_append, ← hrest, pageOps_append]
      exact List.prefix_append _ _
    · -- a page that does not exist has no image
      exact ⟨Page.ofId id, [], fun h => absurd h hid⟩
  choose image seen himage using himage
  have hfile : ∀ id q, (if (d.run ops).OnPage id then some (image id) else none) = some q →
      (d.run ops).OnPage id ∧ image id = q := by
    intro id q hq
    by_cases hid : (d.run ops).OnPage id
    · rw [if_pos hid] at hq
      exact ⟨hid, Option.some.inj hq⟩
    · rw [if_neg hid] at hq
      exact absurd hq (by simp)
  refine ⟨seen, fun id => if (d.run ops).OnPage id then some (image id) else none, ?_, ?_, ?_, ?_⟩
  · -- the file is one that a pool can be opened on
    refine BufferPoolManager.idle_create hn hdisk.growing (fun id q hq => ?_) fun id h0 hlt => ?_
    · obtain ⟨hid, rfl⟩ := hfile id q hq
      obtain ⟨hlay, -, -, hstored⟩ := himage id hid
      exact ⟨hlay.directoryFits, hid.1, hdisk.pageCount ▸ hid.2, hstored⟩
    · rw [if_pos ⟨h0, hdisk.pageCount ▸ hlt⟩]; rfl
  · -- each image is laid out
    intro id q hq
    obtain ⟨hid, rfl⟩ := hfile id q hq
    exact (himage id hid).1
  · -- holds the records of a past state
    intro id q hq
    obtain ⟨hid, rfl⟩ := hfile id q hq
    exact (himage id hid).2.1
  · -- and that state is one of its log
    intro id q hq
    obtain ⟨hid, rfl⟩ := hfile id q hq
    exact (himage id hid).2.2.1

/-- The images are those of the pages that exist. -/
theorem Images.isSome_iff {seen : PageId → List (Op (List UInt8))} {disk : DiskManager} {n : Nat}
    {m₀ : PageId → Option Page} {ops : List LoggedOp}
    (hi : (d.run ops).Images start seen (.create n disk) m₀) (hdisk : CrashDisk d ops disk)
    (h : (d.run ops).Upholds (Past start) m) (id : PageId) :
    (m id).isSome ↔ (m₀ id).isSome := by
  rw [h.idle.isSome_iff, hi.idle.isSome_iff, ← hdisk.pageCount]
  rfl

/-! ## 2. A log that reaches back to the creation of the pages -/

/-- If the redo of `r` calls `InsertRecord` on the page it fetched, the call returns the slot
that `r` names. -/
abbrev InsertsInPlace : BufferPoolManager → LogRecord → Prop := RedoOk fun p r =>
  r.getType = .insert → p.getRecord r.getSlotId = none →
    (p.insertRecord r.getInsertData).1 = some r.getSlotId

/-- On a page of a replay, an insert that finds room takes its own slot. -/
theorem Replayed.insertRecord {seen : PageId → List (Op (List UInt8))} {id : PageId}
    {pre : List LogRecord} {q : Page} {r : LogRecord} {op : Op (List UInt8)}
    (hq : Replayed start seen id pre q) (hop : r.op = some op)
    (hen : op.Enabled (RedoLog.run (start id) (pageOps id pre)))
    (hns : ¬ Stray (RedoLog.run (start id) (seen id)) (pageOps id pre) op) (hfit : q.RedoFits r)
    (hins : r.getType = .insert) (hnone : q.getRecord r.getSlotId = none) :
    (q.insertRecord r.getInsertData).1 = some r.getSlotId := by
  have hfits := hfit.1 hins hnone
  simp only [LogRecord.op, hins] at hop
  cases hdata : r.getInsertData with
  | null n => simp [hdata] at hop
  | data data =>
    simp only [hdata] at hop hfits
    by_cases h0 : data.length = 0
    · simp [h0] at hop
    · rw [if_neg h0, Option.some.injEq] at hop
      subst hop
      rw [Page.getRecord_eq hq.layout.slots_length] at hnone
      have hfirst := hq.replaying.firstFree hen (fun _ => hns) hnone
      have hslot : q.insertSlot = r.getSlotId :=
        UInt16.toNat_inj.mp ((Page.firstFree_insertSlot hq.layout).unique hfirst)
      have hf : q.fits data.length = true := hfits
      simp only [Page.insertRecord, h0, if_false, hf, if_true, hslot]

/-- **Redo with a complete log puts records back in their slots.**  For every run of logged
operations, every crash that leaves each page as it was after some of them, and the replay of
the whole log over what it left, if no update of the run places its record below the
free-space offset and every repeated insert and update finds room: every call of `InsertRecord`
that `RedoRecord` makes returns the slot of its log record. -/
theorem redo_inserts_in_place {n n' : Nat} (hn : 0 < n) (hn' : 0 < n') (ops : List LoggedOp)
    (ok : Run.StepsOk step (Allowed Page.UpdateInBounds) (create n) ops) (disk : DiskManager)
    (hdisk : CrashDisk (create n) ops disk)
    (room : Run.StepsOk BufferPoolManager.redoStep RoomFor (.create n' disk)
      ((create n).run ops).log) :
    Run.StepsOk BufferPoolManager.redoStep InsertsInPlace (.create n' disk)
      ((create n).run ops).log := by
  obtain ⟨m, h, -⟩ := (past_create hn).run stands_past ok
  obtain ⟨seen, m₀, hi⟩ := (past_create hn).images ok hdisk hn'
  refine Run.stepsOk_of_forall fun pre r post hlog p hp hins hnone => ?_
  have hroom := room
  rw [hlog, Run.stepsOk_append] at hroom
  obtain ⟨m', hidle, hsome, hm'⟩ :=
    hi.replayed h (hi.isSome_iff hdisk h) (h.noneStray seen) hlog hroom.1
  have hmem : r ∈ ((create n).run ops).log :=
    hlog ▸ List.mem_append_right _ List.mem_cons_self
  have hon : r.onPage = true := by rw [LogRecord.onPage, hins]
  -- the page that the redo fetches is one of the replay
  have hs := h.logged r hmem hon
  obtain ⟨q₀, hq₀⟩ := Option.isSome_iff_exists.mp hs
  have hs' : (m' r.getPageId).isSome := (hsome _).trans ((hi.isSome_iff hdisk h _).mp hs)
  obtain ⟨q, hq⟩ := Option.isSome_iff_exists.mp hs'
  obtain ⟨p', hp', hsame⟩ := hidle.pageOf hq
  obtain rfl := Option.some.inj (hp'.symm.trans hp)
  have hpast := h.page _ q₀ hq₀
  obtain ⟨op, hop⟩ := Option.isSome_iff_exists.mp (hpast.described r hmem hon rfl)
  obtain ⟨-, hen⟩ := hpast.split hlog rfl hop
  exact (pageInvariant_replayed.congr (hm' _ q hq).1 hsame).insertRecord hop hen
    (h.noneStray seen pre r post op hlog hop) (hroom.2.1 p' hp) hins hnone

/-- A record is logged and synced before the crash, its page is written as it was created. -/
theorem redo_inserts_in_place_new_page :
    let ops := [.newPage, .insert 1 ⟨[7, 8, 9], by decide⟩, .delete 1 0,
      .insert 1 ⟨[5, 6], by decide⟩]
    Run.StepsOk BufferPoolManager.redoStep InsertsInPlace
      (.create 1 ((create 1).run (ops.take 1)).pool.flushAllPages.disk)
        ((create 1).run ops).log := by
  intro ops
  have hnew : (create 1).pool.disk.header.pageCount ≠ invalidPageId := by decide
  have hpage : ∀ k ∈ [1, 2, 3], ((create 1).run (ops.take k)).OnPage 1 := by decide +kernel
  have ok : Run.StepsOk step (Allowed Page.UpdateInBounds) (create 1) ops :=
    ⟨hnew, hpage 1 (by decide), hpage 2 (by decide), hpage 3 (by decide), trivial⟩
  have hroom : Run.StepsOk BufferPoolManager.redoStep RoomFor
      (.create 1 ((create 1).run (ops.take 1)).pool.flushAllPages.disk)
      ((create 1).run ops).log := by decide +kernel
  have ok' : Run.StepsOk step (Allowed Page.UpdateInBounds) (create 1) (ops.take 1) :=
    ⟨hnew, trivial⟩
  obtain ⟨m, h, -⟩ := (past_create Nat.one_pos).run stands_past ok'
  have hclose := h.crashDisk
  refine redo_inserts_in_place Nat.one_pos Nat.one_pos ops ok _ ?_ hroom
  refine ⟨hclose.growing, hclose.pageCount.trans (by decide +kernel), fun id hid => ?_⟩
  have hid' : ((create 1).run (ops.take 1)).OnPage id :=
    ⟨hid.1, lt_of_lt_of_eq hid.2 (by decide +kernel)⟩
  obtain ⟨before, after, hsplit, himage⟩ := hclose.image id hid'
  refine ⟨before, after ++ ops.drop 1, ?_, himage⟩
  rw [← List.append_assoc, ← hsplit, List.take_append_drop]

/-! ## 3. A log that starts at a checkpoint -/

/-- Repeating `r` after `pre` over the images in `b` would lead an insert astray: below the slot
it names there is one that is free in the image and that `pre` does not mention, and the insert
is one that is repeated. -/
def GoesAstray (b : BufferPoolManager) (pre : List LogRecord) (r : LogRecord) : Prop :=
  ∃ p op, b.pageOf r.getPageId = some p ∧ r.op = some op ∧
    Stray p.recordAt (pageOps r.getPageId pre) op

/-- The records of the pages that a checkpoint flushed. -/
def recordsAt (m : PageId → Option Page) (id : PageId) : Store (List UInt8) :=
  match m id with
  | some q => q.recordAt
  | none => fun _ => none

/-- **After a checkpoint and a truncation** the past of each page starts at the checkpoint. -/
theorem Upholds.checkpoint (h : d.Upholds (Past start) m) :
    d.checkpoint.truncate.Upholds (Past (recordsAt m)) m where
  idle := h.idle.flushAllPages.1
  page id q hq :=
    { layout := (h.page id q hq).layout
      enabled := trivial
      records := by simp only [recordsAt, hq]; rfl
      described := fun r hr => absurd hr List.not_mem_nil }
  fresh id hid :=
    { layout := Page.layout_ofId id
      enabled := trivial
      records := by simp only [recordsAt, hid]; rfl
      described := fun r hr => absurd hr List.not_mem_nil }
  logged r hr := absurd hr List.not_mem_nil

/-- **Recovery from a checkpoint restores the database**, for every run of logged operations
before the checkpoint, every run after it, and every crash that leaves each page as it was
after some of the later operations: as long as no update of the runs places its record below
the free-space offset, every repeated insert and update finds room, and no insert that the log
repeats goes astray in the image of its page. -/
theorem recover_after_checkpoint {n n' : Nat} (hn : 0 < n) (hn' : 0 < n')
    (ops₁ ops₂ : List LoggedOp)
    (ok₁ : Run.StepsOk step (Allowed Page.UpdateInBounds) (create n) ops₁)
    (ok₂ : Run.StepsOk step (Allowed Page.UpdateInBounds)
      ((create n).run ops₁).checkpoint.truncate ops₂)
    (disk : DiskManager) (hdisk : CrashDisk ((create n).run ops₁).checkpoint.truncate ops₂ disk)
    (room : Run.StepsOk BufferPoolManager.redoStep RoomFor (.create n' disk)
      (((create n).run ops₁).checkpoint.truncate.run ops₂).log)
    (hns : ∀ pre r post, (((create n).run ops₁).checkpoint.truncate.run ops₂).log
      = pre ++ r :: post → ¬ GoesAstray (.create n' disk) pre r)
    (id : PageId) (hid : (((create n).run ops₁).checkpoint.truncate.run ops₂).OnPage id)
    (slotId : UInt16) :
    ((((create n).run ops₁).checkpoint.truncate.run ops₂).crash disk n').recover.pool.recordOf
        id slotId
      = (((create n).run ops₁).checkpoint.truncate.run ops₂).pool.recordOf id slotId := by
  obtain ⟨m₁, h₁, -⟩ := (past_create hn).run stands_past ok₁
  obtain ⟨m, h, -⟩ := h₁.checkpoint.run stands_past ok₂
  obtain ⟨seen, m₀, hi⟩ := h₁.checkpoint.images ok₂ hdisk hn'
  have hsome := hi.isSome_iff hdisk h
  have hnone : NoneStray (recordsAt m₁) seen
      (((create n).run ops₁).checkpoint.truncate.run ops₂).log := by
    intro pre r post op hlog hop hstray
    have hon : r.onPage = true := by
      by_contra hno
      rw [LogRecord.op_of_not_onPage (Bool.not_eq_true _ ▸ hno)] at hop
      exact absurd hop (by simp)
    have hmem : r ∈ (((create n).run ops₁).checkpoint.truncate.run ops₂).log :=
      hlog ▸ List.mem_append_right _ List.mem_cons_self
    obtain ⟨q, hq⟩ := Option.isSome_iff_exists.mp ((hsome _).mp (h.logged r hmem hon))
    obtain ⟨p, hp, hsame⟩ := hi.idle.pageOf hq
    have hrec : p.recordAt = RedoLog.run (recordsAt m₁ r.getPageId) (seen r.getPageId) :=
      (funext fun j => hsame.recordAt (hsame.symm.layout (hi.layout _ q hq)) j).trans
        (hi.records _ q hq)
    exact hns pre r post hlog ⟨p, op, hp, hop, hrec ▸ hstray⟩
  obtain ⟨m', hr, hsome'⟩ := hi.restored h hsome hnone room
  exact hr.recordOf h (fun id => (hsome id).trans (by rw [hsome' id])) hid slotId

/-- A record is inserted after the checkpoint, and its page written before the crash. -/
theorem recover_after_checkpoint_insert :
    let d := ((create 1).run [.newPage, .insert 1 ⟨[1], by decide⟩]).checkpoint.truncate
    let ops := [.insert 1 ⟨[2], by decide⟩]
    ((d.run ops).crash (d.run ops).pool.flushAllPages.disk 1).recover.pool.recordOf 1 1
      = (d.run ops).pool.recordOf 1 1 := by
  intro d ops
  have hnew : (create 1).pool.disk.header.pageCount ≠ invalidPageId := by decide
  have hpage : ((create 1).step .newPage).OnPage 1 := by decide
  have hpage' : d.OnPage 1 := by decide +kernel
  have ok₁ : Run.StepsOk step (Allowed Page.UpdateInBounds) (create 1)
    [.newPage, .insert 1 ⟨[1], by decide⟩] := ⟨hnew, hpage, trivial⟩
  have ok₂ : Run.StepsOk step (Allowed Page.UpdateInBounds) d ops := ⟨hpage', trivial⟩
  obtain ⟨m₁, h₁, -⟩ := (past_create Nat.one_pos).run stands_past ok₁
  obtain ⟨m, h, -⟩ := h₁.checkpoint.run stands_past ok₂
  have hlog : (d.run ops).log = [.makeInsert 0 1 1 ⟨[2], by decide⟩] := by decide +kernel
  have hlive : ∀ p ∈ BufferPoolManager.pageOf (.create 1 (d.run ops).pool.flushAllPages.disk) 1,
      p.recordAt 1 ≠ none := by decide +kernel
  refine recover_after_checkpoint Nat.one_pos Nat.one_pos
    [.newPage, .insert 1 ⟨[1], by decide⟩] ops ok₁ ok₂ (d.run ops).pool.flushAllPages.disk
    h.crashDisk (by decide +kernel) ?_ 1 (by decide +kernel) 1
  rintro pre r post hsplit ⟨p, op, hp, hop, hstray⟩
  have hone := hlog.symm.trans hsplit
  obtain rfl : pre = [] := by
    have hlen := congrArg List.length hone
    simp only [List.length_append, List.length_cons, List.length_nil] at hlen
    exact List.length_eq_zero_iff.mp (by omega)
  obtain rfl := (List.cons.inj hone).1
  rw [op_makeInsert 1 1 (by decide)] at hop
  obtain rfl := Option.some.inj hop
  rcases hstray.1 with ⟨o, hmem, -⟩ | hnone
  · exact absurd hmem List.not_mem_nil
  · exact hlive p hp hnone

/-- Two records are flushed by the checkpoint.  Then the second is deleted, a third takes its
slot, the first is deleted, and the page is written: recovery repeats the insert in the first
slot, and the delete of the first slot deletes it again. -/
theorem checkpoint_loses_record :
    let ops₁ := [.newPage, .insert 1 ⟨[1], by decide⟩, .insert 1 ⟨[2], by decide⟩]
    let ops₂ := [.delete 1 1, .insert 1 ⟨[3], by decide⟩, .delete 1 0]
    let d₁ := ((create 1).run ops₁).checkpoint.truncate
    let d₂ := d₁.run ops₂
    let disk := d₂.pool.flushAllPages.disk
    Run.StepsOk step (Allowed Page.UpdateInBounds) (create 1) ops₁ ∧
      Run.StepsOk step (Allowed Page.UpdateInBounds) d₁ ops₂ ∧ CrashDisk d₁ ops₂ disk ∧
      Run.StepsOk BufferPoolManager.redoStep RoomFor (.create 1 disk) d₂.log ∧ d₂.OnPage 1 ∧
      d₂.pool.recordOf 1 1 = some [3] ∧
      (d₂.crash disk 1).recover.pool.recordOf 1 1 = none := by
  intro ops₁ ops₂ d₁ d₂ disk
  have hnew : (create 1).pool.disk.header.pageCount ≠ invalidPageId := by decide
  have hpage₁ : ∀ k ∈ [1, 2], ((create 1).run (ops₁.take k)).OnPage 1 := by decide +kernel
  have hpage₂ : ∀ k ∈ [0, 1, 2], (d₁.run (ops₂.take k)).OnPage 1 := by decide +kernel
  have ok₁ : Run.StepsOk step (Allowed Page.UpdateInBounds) (create 1) ops₁ :=
    ⟨hnew, hpage₁ 1 (by decide), hpage₁ 2 (by decide), trivial⟩
  have ok₂ : Run.StepsOk step (Allowed Page.UpdateInBounds) d₁ ops₂ :=
    ⟨hpage₂ 0 (by decide), hpage₂ 1 (by decide), hpage₂ 2 (by decide), trivial⟩
  obtain ⟨m₁, h₁, -⟩ := (past_create Nat.one_pos).run stands_past ok₁
  obtain ⟨m, h, -⟩ := h₁.checkpoint.run stands_past ok₂
  exact ⟨ok₁, ok₂, h.crashDisk, by decide +kernel, by decide +kernel, by decide +kernel,
    by decide +kernel⟩

end Database

end CourtDB
