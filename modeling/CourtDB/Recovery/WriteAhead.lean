/-
# The write-ahead rule

A page image may go to the data file only when the log records of the modifications in it are in
the log file.  The pool does not know the log: it writes a page when it evicts or flushes it,
whatever the log manager still has in its buffer, and `Checkpoint` flushes the pages before the
log.  So the rule holds along a run exactly when the clients have flushed the log in time: when a
page is written, `FlushUpTo` finds nothing to do for the modifications in it (`wal_rule_iff`).

A `WalRun` is a pool and a log manager in use, with the modifications that each frame and each
page image contains.  Every page write is remembered with the log file at that moment.
-/
import CourtDB.Buffer.PageWrites
import CourtDB.Recovery.LogCalls

namespace CourtDB

open Bytes Framing
open BufferPoolManager (FrameCall)

/-! ## 1. Runs -/

/-- A modification of a page: its log record, and the LSN that the log call returned. -/
abbrev Modification := LSN × LogRecord

/-- A page image written to the data file: the modifications it contains, and the log file at
that moment. -/
structure PageWrite where
  pageId : PageId
  modifications : List Modification
  logFile : LogFile
deriving DecidableEq

/-- The log file has the record of the modification, at its LSN. -/
def Modification.WrittenTo (m : Modification) (file : LogFile) : Prop :=
  (file.drop m.1.toNat).take m.2.serialize.length = m.2.serialize

instance (m : Modification) (file : LogFile) : Decidable (m.WrittenTo file) :=
  inferInstanceAs (Decidable (_ = _))

/-- The write keeps the write-ahead rule. -/
def PageWrite.Covered (w : PageWrite) : Prop := ∀ m ∈ w.modifications, m.WrittenTo w.logFile

instance (w : PageWrite) : Decidable w.Covered :=
  inferInstanceAs (Decidable (∀ m ∈ w.modifications, _))

/-- What happens to the pool and the log.  In a `modify` the client changes the page through its
pointer, on account of a modification that it has logged. -/
inductive WalStep
  | append (record : LogRecord)
  | modify (id : PageId) (m : Modification) (page : Page)
  | pool (c : FrameCall)
  | flush
  | flushUpTo (lsn : LSN)

/-- A call of a client. -/
inductive WalOp
  | log (c : LogCall)
  | modify (id : PageId) (m : Modification) (page : Page)
  | pool (c : FrameCall)
  | flush
  | flushUpTo (lsn : LSN)
  | checkpoint

/-- The steps of a call; the four of `Checkpoint` are those of the source. -/
def WalOp.steps : WalOp → List WalStep
  | log c => [.append c.record]
  | modify id m page => [.modify id m page]
  | pool c => [.pool c]
  | flush => [.flush]
  | flushUpTo lsn => [.flushUpTo lsn]
  | checkpoint =>
    [.append (.makeCheckpointBegin 0), .pool .flushAllPages, .append (.makeCheckpointEnd 0 []),
      .flush]

/-- The record that a step appends. -/
def WalStep.record? : WalStep → Option LogRecord
  | .append record => some record
  | .modify .. | .pool _ | .flush | .flushUpTo _ => none

/-- A pool and a log manager, the modifications logged so far, those in the page of each frame
and in the image of each page, and the page writes so far. -/
structure WalRun where
  pool : BufferPoolManager
  log : LogManager
  logged : List Modification := []
  inFrame : FrameId → List Modification := fun _ => []
  onDisk : PageId → List Modification := fun _ => []
  writes : List PageWrite := []

namespace WalRun

/-- A new pool of `n` frames over the disk `d`, and a log manager that opens `file`. -/
def start (n : Nat) (d : DiskManager) (file : LogFile) : WalRun where
  pool := .create n d
  log := .openLog file

/-- The frames that a call writes to the file.  `WritePage` refuses a page that does not exist. -/
def callWrites (s : WalRun) (c : FrameCall) : List (FrameId × PageId) :=
  (s.pool.pageWrites c).filter fun w => w.2 < s.pool.disk.header.pageCount

/-- The modifications in the page images after a call. -/
def onDiskAfter (s : WalRun) (c : FrameCall) : PageId → List Modification :=
  let onDisk := (s.callWrites c).foldl (fun m w => Function.update m w.2 (s.inFrame w.1)) s.onDisk
  match c with
  | .newPage =>
    if s.pool.newPage.1.isSome then Function.update onDisk s.pool.disk.nextPageId [] else onDisk
  | .deletePage id => if (s.pool.deletePage id).1 then Function.update onDisk id [] else onDisk
  | .fetchPage _ | .unpinPage _ _ | .flushPage _ | .flushAllPages => onDisk

/-- The modifications in the frames after a call: a frame that is filled has those of the image
it is read from. -/
def inFrameAfter (s : WalRun) (c : FrameCall) : FrameId → List Modification :=
  match c with
  | .newPage =>
    match s.pool.newPage.1 with
    | some f => Function.update s.inFrame f []
    | none => s.inFrame
  | .fetchPage id =>
    match s.pool.pageTable id, (s.pool.fetchPage id).1 with
    | none, some f => Function.update s.inFrame f (s.onDiskAfter c id)
    | _, _ => s.inFrame
  | .unpinPage _ _ | .deletePage _ | .flushPage _ | .flushAllPages => s.inFrame

def step (s : WalRun) : WalStep → WalRun
  | .append record =>
    match s.log.appendLogRecord record with
    | some (lsn, log) => { s with log := log, logged := (lsn, record) :: s.logged }
    | none => s
  | .modify id m page =>
    match s.pool.pageTable id with
    | some f =>
      { s with
        pool := s.pool.setPage f page
        inFrame := Function.update s.inFrame f (m :: s.inFrame f) }
    | none => s
  | .pool c =>
    { s with
      pool := s.pool.call c
      inFrame := s.inFrameAfter c
      onDisk := s.onDiskAfter c
      writes := s.writes ++ (s.callWrites c).map fun w => ⟨w.2, s.inFrame w.1, s.log.file⟩ }
  | .flush => { s with log := s.log.flush.getD s.log }
  | .flushUpTo lsn => { s with log := (s.log.flushUpTo lsn).getD s.log }

/-- The log manager does not throw, and a page is modified after the modification was logged. -/
def Allowed (s : WalRun) : WalStep → Prop
  | .append record => (s.log.appendLogRecord record).isSome
  | .modify _ m _ => m ∈ s.logged
  | .pool _ => True
  | .flush => s.log.flush.isSome
  | .flushUpTo lsn => (s.log.flushUpTo lsn).isSome

/-- `FlushUpTo(lsn)` finds nothing to do. -/
def FlushedUpTo (log : LogManager) (lsn : LSN) : Prop :=
  ¬ (lsn ≥ log.flushedLsn ∧ log.bufferOffset > 0)

/-- Of each frame that the step writes to the data file, the log is flushed up to every
modification. -/
def WritesLogged (s : WalRun) : WalStep → Prop
  | .pool c => ∀ w ∈ s.callWrites c, ∀ m ∈ s.inFrame w.1, FlushedUpTo s.log m.1
  | _ => True

/-! ## 2. What the log file has -/

/-- Every logged modification has its record in the stream of the log, at its LSN; and every
modification in a frame or in an image is a logged one. -/
structure Sound (base : LogFile) (records : List LogRecord) (s : WalRun) : Prop where
  log : LogManager.Logged base records 0 s.log
  logged : ∀ m ∈ s.logged, m.2.WellFormed ∧ ∃ pre post, records = pre ++ m.2 :: post ∧
    m.1.toNat = base.length + (pre.map (length LogRecord.serialize)).sum
  inFrame : ∀ f, ∀ m ∈ s.inFrame f, m ∈ s.logged
  onDisk : ∀ id, ∀ m ∈ s.onDisk id, m ∈ s.logged

variable {base : LogFile} {records : List LogRecord} {s : WalRun}

/-- **A record is in the log file when the log is flushed up to its LSN**, and only then. -/
theorem Sound.writtenTo_iff (h : s.Sound base records) {m : Modification} (hm : m ∈ s.logged) :
    m.WrittenTo s.log.file ↔ FlushedUpTo s.log m.1 := by
  obtain ⟨hwf, pre, post, hrecords, hlsn⟩ := h.logged m hm
  have hsize := hwf.length_serialize
  have hflushed := h.log.flushedLsn
  -- a record stands in the stream where its LSN says
  have hslice : ∀ rest, (((base ++ (pre ++ m.2 :: rest).flatMap LogRecord.serialize)).drop
      m.1.toNat).take m.2.serialize.length = m.2.serialize := by
    intro rest
    have hpre : (base ++ pre.flatMap LogRecord.serialize).length = m.1.toNat := by
      rw [List.length_append, List.length_flatMap, hlsn]
    rw [List.flatMap_append, List.flatMap_cons, ← List.append_assoc, List.drop_left' hpre,
      List.take_left]
  constructor
  · intro hw hnot
    -- what is not flushed starts past the end of the file
    have hge : s.log.file.length ≤ m.1.toNat := by
      rw [← hflushed]; exact UInt64.le_iff_toNat_le.mp hnot.1
    rw [Modification.WrittenTo, List.drop_eq_nil_of_le hge, List.take_nil] at hw
    rw [← hw, List.length_nil] at hsize
    omega
  · -- a flushed record starts before the end of the file, and the file ends between two records
    intro hflush
    -- the buffer is empty: the whole stream is in the file
    by_cases hempty : s.log.bufferOffset = 0
    · rw [Modification.WrittenTo, h.log.file_eq (h.log.bufferOffset_eq_zero_iff.mp hempty),
        hrecords]
      exact hslice post
    · -- else the record is among those written, or the end of the file is before it
      have hlt : m.1.toNat < s.log.file.length := by
        rw [← hflushed]
        by_contra hge
        exact hflush ⟨UInt64.le_iff_toNat_le.mpr (Nat.le_of_not_lt hge),
          UInt32.pos_iff_ne_zero.mpr hempty⟩
      obtain ⟨written, ⟨buffered, hsplit⟩, hfile⟩ := h.log.boundary
      rw [hfile, List.length_append, List.length_flatMap, hlsn, Nat.add_lt_add_iff_left] at hlt
      rw [hrecords] at hsplit
      rcases List.append_eq_append_iff.mp hsplit with ⟨more, rfl, -⟩ | ⟨more, rfl, hmore⟩
      · rw [List.map_append, List.sum_append] at hlt
        exact absurd hlt (Nat.not_lt.mpr (Nat.le_add_right _ _))
      · cases more with
        | nil => rw [List.append_nil] at hlt; exact absurd hlt (Nat.lt_irrefl _)
        | cons record more =>
          obtain ⟨rfl, -⟩ := List.cons_eq_cons.mp hmore
          rw [Modification.WrittenTo, hfile]
          exact hslice more

/-! ## 3. Steps -/

/-- Nothing has been modified at the start. -/
theorem sound_start (n : Nat) (d : DiskManager) {file : LogFile}
    (h : file.length ≤ LogFile.maxOffset) : (start n d file).Sound file [] where
  log := LogManager.logged_openLog _ h
  logged _ hm := absurd hm List.not_mem_nil
  inFrame _ _ hm := absurd hm List.not_mem_nil
  onDisk _ _ hm := absurd hm List.not_mem_nil

/-- What is on disk after a call was logged before. -/
theorem Sound.onDiskAfter (h : s.Sound base records) (c : FrameCall) {id : PageId}
    {m : Modification} (hm : m ∈ s.onDiskAfter c id) : m ∈ s.logged := by
  -- a write puts on disk what the frame holds
  have hwrites : ∀ (ws : List (FrameId × PageId)) (onDisk : PageId → List Modification),
      (∀ id, ∀ m ∈ onDisk id, m ∈ s.logged) →
      ∀ id, ∀ m ∈ ws.foldl (fun m w => Function.update m w.2 (s.inFrame w.1)) onDisk id,
        m ∈ s.logged := by
    intro ws
    induction ws with
    | nil => exact fun _ hdisk => hdisk
    | cons w ws ih =>
      intro onDisk hdisk
      refine ih _ fun id m hm => ?_
      dsimp only at hm
      rw [Function.update_apply] at hm
      split at hm
      · exact h.inFrame w.1 m hm
      · exact hdisk id m hm
  have hall := hwrites (s.callWrites c) s.onDisk h.onDisk
  -- an allocated page has no modification on disk
  have hclear : ∀ {onDisk : PageId → List Modification}, (∀ id, ∀ m ∈ onDisk id, m ∈ s.logged) →
      ∀ id', m ∈ Function.update onDisk id' [] id → m ∈ s.logged := by
    rintro onDisk hdisk id' hm
    rw [Function.update_apply] at hm
    split at hm
    · cases hm
    · exact hdisk id m hm
  unfold WalRun.onDiskAfter at hm
  cases c with
  | newPage =>
    dsimp only at hm
    split at hm
    · exact hclear hall _ hm
    · exact hall id m hm
  | deletePage id' =>
    dsimp only at hm
    split at hm
    · exact hclear hall _ hm
    · exact hall id m hm
  | fetchPage | unpinPage | flushPage | flushAllPages => exact hall id m hm

/-- And so was what the frames hold. -/
theorem Sound.inFrameAfter (h : s.Sound base records) (c : FrameCall) {f : FrameId}
    {m : Modification} (hm : m ∈ s.inFrameAfter c f) : m ∈ s.logged := by
  cases c with
  -- a new page begins without modifications
  | newPage =>
    cases hnew : s.pool.newPage.1 with
    | none =>
      simp only [WalRun.inFrameAfter, hnew] at hm
      exact h.inFrame f m hm
    | some g =>
      simp only [WalRun.inFrameAfter, hnew, Function.update_apply] at hm
      split at hm
      · cases hm
      · exact h.inFrame f m hm
  -- a page in a frame keeps them, one that is read in has those on disk
  | fetchPage id =>
    cases htable : s.pool.pageTable id with
    | some g =>
      simp only [WalRun.inFrameAfter, htable] at hm
      exact h.inFrame f m hm
    | none =>
      cases hfetch : (s.pool.fetchPage id).1 with
      | none =>
        simp only [WalRun.inFrameAfter, htable, hfetch] at hm
        exact h.inFrame f m hm
      | some g =>
        simp only [WalRun.inFrameAfter, htable, hfetch, Function.update_apply] at hm
        split at hm
        · exact h.onDiskAfter _ hm
        · exact h.inFrame f m hm
  | unpinPage | deletePage | flushPage | flushAllPages => exact h.inFrame f m hm

/-- **One step.** -/
theorem Sound.step (h : s.Sound base records) {a : WalStep} (ok : s.Allowed a)
    (hwf : ∀ record, a.record? = some record → record.WellFormed) :
    (s.step a).Sound base (records ++ a.record?.toList) := by
  cases a with
  -- an append gives its modification an LSN, and only adds to the stream
  | append record =>
    obtain ⟨⟨lsn, log⟩, ha⟩ := Option.isSome_iff_exists.mp ok
    obtain ⟨hlog, rfl⟩ := h.log.appendLogRecord (hwf record rfl) ha
    have hstep : s.step (.append record)
        = { s with log := log, logged := (s.log.nextLsn, record) :: s.logged } := by
      simp only [WalRun.step, ha]
    rw [hstep]
    refine ⟨hlog, fun m hm => ?_, fun f m hm => List.mem_cons_of_mem _ (h.inFrame f m hm),
      fun id m hm => List.mem_cons_of_mem _ (h.onDisk id m hm)⟩
    rcases List.mem_cons.mp hm with rfl | hm
    · exact ⟨hwf record rfl, records, [], rfl, h.log.nextLsn_eq⟩
    · obtain ⟨hm, pre, post, rfl, hlsn⟩ := h.logged m hm
      exact ⟨hm, pre, post ++ [record], by simp [WalStep.record?], hlsn⟩
  -- a client marks the frame of its page with a modification that was logged
  | modify id m page =>
    simp only [WalRun.step, WalStep.record?, Option.toList_none, List.append_nil]
    cases s.pool.pageTable id with
    | none => exact h
    | some f =>
      refine ⟨h.log, h.logged, fun g m' hm' => ?_, h.onDisk⟩
      simp only [Function.update_apply] at hm'
      split at hm'
      · rcases List.mem_cons.mp hm' with rfl | hm'
        · exact ok
        · exact h.inFrame f m' hm'
      · exact h.inFrame g m' hm'
  -- a call of the pool moves modifications between frames and disk
  | pool c =>
    simp only [WalRun.step, WalStep.record?, Option.toList_none, List.append_nil]
    exact ⟨h.log, h.logged, fun f m hm => h.inFrameAfter c hm, fun id m hm => h.onDiskAfter c hm⟩
  -- a flush adds nothing to the stream
  | flush =>
    obtain ⟨log, hf⟩ := Option.isSome_iff_exists.mp ok
    simp only [WalRun.step, hf, Option.getD_some, WalStep.record?, Option.toList_none,
      List.append_nil]
    exact ⟨(h.log.flush hf).1, h.logged, h.inFrame, h.onDisk⟩
  | flushUpTo lsn =>
    obtain ⟨log, hf⟩ := Option.isSome_iff_exists.mp ok
    simp only [WalRun.step, hf, Option.getD_some, WalStep.record?, Option.toList_none,
      List.append_nil]
    exact ⟨h.log.flushUpTo hf, h.logged, h.inFrame, h.onDisk⟩

/-- The page writes of a step. -/
theorem writes_step (s : WalRun) (a : WalStep) :
    (s.step a).writes = s.writes ++
      match a with
      | .pool c => (s.callWrites c).map fun w => ⟨w.2, s.inFrame w.1, s.log.file⟩
      | _ => [] := by
  cases a with
  | append record =>
    simp only [WalRun.step]
    cases s.log.appendLogRecord record with
    | none => simp
    | some r => simp
  | modify id m page =>
    simp only [WalRun.step]
    cases s.pool.pageTable id with
    | none => simp
    | some f => simp
  | pool c => rfl
  | flush => simp [WalRun.step]
  | flushUpTo lsn => simp [WalRun.step]

/-- **The writes of one step keep the rule exactly when the log is flushed far enough.** -/
theorem Sound.covered_step_iff (h : s.Sound base records) (a : WalStep) :
    (∀ w ∈ (s.step a).writes, w.Covered) ↔ (∀ w ∈ s.writes, w.Covered) ∧ s.WritesLogged a := by
  rw [writes_step]
  simp only [List.mem_append, or_imp, forall_and]
  refine and_congr_right fun _ => ?_
  cases a with
  | pool c =>
    simp only [List.mem_map, forall_exists_index, and_imp, forall_apply_eq_imp_iff₂]
    refine forall_congr' fun w => forall_congr' fun _ => forall_congr' fun m =>
      forall_congr' fun hm => ?_
    exact h.writtenTo_iff (h.inFrame w.1 m hm)
  | append | modify | flush | flushUpTo => simp [WritesLogged]

/-! ## 4. The rule -/

theorem Sound.covered_run_iff {steps : List WalStep} : ∀ {s : WalRun} {records : List LogRecord},
    s.Sound base records → Run.StepsOk WalRun.step Allowed s steps →
    (∀ a ∈ steps, ∀ record, a.record? = some record → record.WellFormed) →
    ((∀ w ∈ (steps.foldl WalRun.step s).writes, w.Covered) ↔
      (∀ w ∈ s.writes, w.Covered) ∧ Run.StepsOk WalRun.step WritesLogged s steps) := by
  induction steps with
  | nil => rintro s records h - -; simp
  | cons a steps ih =>
    rintro s records h ⟨ok, hrest⟩ hwf
    have hnext := h.step ok (hwf a List.mem_cons_self)
    rw [List.foldl_cons, ih hnext hrest fun a' ha => hwf a' (List.mem_cons_of_mem a ha),
      h.covered_step_iff a, and_assoc]
    rfl

theorem wellFormed_steps {op : WalOp} {a : WalStep} (ha : a ∈ op.steps) {record : LogRecord}
    (hr : a.record? = some record) : record.WellFormed := by
  cases op with
  | log c =>
    obtain rfl := List.mem_singleton.mp ha
    obtain rfl := Option.some.inj hr
    cases c with
    | insert pageId slotId data => exact (LogRecord.Built.insert 0 pageId slotId data).wellFormed
    | delete pageId slotId oldData =>
      exact (LogRecord.Built.delete 0 pageId slotId oldData).wellFormed
    | update pageId slotId oldData newData =>
      exact LogRecord.wellFormed_makeUpdate 0 pageId slotId oldData newData
    | newPage pageId => exact (LogRecord.Built.newPage 0 pageId).wellFormed
  | checkpoint =>
    simp only [WalOp.steps, List.mem_cons, List.not_mem_nil, or_false] at ha
    rcases ha with rfl | rfl | rfl | rfl
    · obtain rfl := Option.some.inj hr
      exact (LogRecord.Built.checkpointBegin 0).wellFormed
    · cases hr
    · obtain rfl := Option.some.inj hr
      exact (LogRecord.Built.checkpointEnd 0 [] (by decide)).wellFormed
    · cases hr
  | modify | pool | flush | flushUpTo =>
    obtain rfl := List.mem_singleton.mp ha
    cases hr

/-- **The write-ahead rule.**  Along every run of clients that log before they modify, over any
data file and any log file, every page image is written with its log records in the log file
exactly when, at every write of a frame, `FlushUpTo` would find nothing to do for the
modifications in the frame. -/
theorem wal_rule_iff (n : Nat) (d : DiskManager) {file : LogFile}
    (hfile : file.length ≤ LogFile.maxOffset) {ops : List WalOp}
    (hallowed : Run.StepsOk step Allowed (start n d file) (ops.flatMap WalOp.steps)) :
    (∀ w ∈ ((ops.flatMap WalOp.steps).foldl step (start n d file)).writes, w.Covered) ↔
      Run.StepsOk step WritesLogged (start n d file) (ops.flatMap WalOp.steps) := by
  rw [(sound_start n d hfile).covered_run_iff hallowed]
  · exact and_iff_right fun w hw => absurd hw List.not_mem_nil
  · rintro a ha record hr
    obtain ⟨op, -, hop⟩ := List.mem_flatMap.mp ha
    exact wellFormed_steps hop hr

instance (s : WalRun) : DecidablePred s.Allowed
  | .append record => inferInstanceAs (Decidable ((s.log.appendLogRecord record).isSome = true))
  | .modify _ m _ => inferInstanceAs (Decidable (m ∈ s.logged))
  | .pool _ => inferInstanceAs (Decidable True)
  | .flush => inferInstanceAs (Decidable (s.log.flush.isSome = true))
  | .flushUpTo lsn => inferInstanceAs (Decidable ((s.log.flushUpTo lsn).isSome = true))

instance (s : WalRun) : DecidablePred s.WritesLogged
  | .pool c => inferInstanceAs (Decidable (∀ w ∈ s.callWrites c, ∀ m ∈ s.inFrame w.1, ¬ (_ ∧ _)))
  | .append _ | .modify _ _ _ | .flush | .flushUpTo _ => inferInstanceAs (Decidable True)

/-- An insert on page 1: it is logged, done, and declared. -/
def insertOnPage1 : List WalOp :=
  [.pool .newPage, .log (.insert 1 0 ⟨[7], by decide⟩),
    .modify 1 (0, .makeInsert 0 1 0 ⟨[7], by decide⟩)
      ((Page.ofId 1).insertRecord (.data ⟨[7], by decide⟩)).2,
    .pool (.unpinPage 1 true)]

/-- The run that inserts on page 1 and goes on with `ops`. -/
abbrev afterInsert (ops : List WalOp) : WalRun :=
  ((insertOnPage1 ++ ops).flatMap WalOp.steps).foldl step (start 1 .initializeNewFile [])

/-- The client flushes the log before the page. -/
theorem wal_rule_flushed :
    (afterInsert [.flushUpTo 0, .pool (.flushPage 1)]).writes ≠ [] ∧
      ∀ w ∈ (afterInsert [.flushUpTo 0, .pool (.flushPage 1)]).writes, w.Covered :=
  ⟨by decide +kernel,
    (wal_rule_iff 1 .initializeNewFile (Nat.zero_le _) (by decide +kernel)).mpr
      (by decide +kernel)⟩

/-- `Checkpoint` writes the page while the log record is in the buffer. -/
theorem checkpoint_breaks_rule : ¬ ∀ w ∈ (afterInsert [.checkpoint]).writes, w.Covered := by
  decide +kernel

end WalRun

end CourtDB
