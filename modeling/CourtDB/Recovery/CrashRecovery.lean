/-
# Recovery over a page image of any age

After a crash each page is on disk as it was after some of its operations, and recovery replays
the log over it.  The pages of a replay are `Replayed`: each is catching up with its own past, or
has caught up (`replayed_of_image`), and a replay that ends leaves every page with the records
of the whole log (`Restored`).

Three results follow: a complete log puts every repeated insert in its own slot; recovering an
up-to-date database changes nothing; and recovery from a checkpoint restores the database, as
long as no repeated insert goes astray.  The last two need room for what is repeated, which a
page that never gives space back does not always have.
-/
import CourtDB.Recovery.Replay

namespace CourtDB

open RedoLog

namespace Database

variable {d : Database} {m m₀ : PageId → Option Page} {b : BufferPoolManager}
  {start : PageId → Store (List UInt8)} {seen : PageId → List (Op (List UInt8))}

/-! ## 1. One page during a replay -/

/-- Page `id` of a replay that has come to `pre`, over an image that has seen `seen id`. -/
structure Replayed (start : PageId → Store (List UInt8))
    (seen : PageId → List (Op (List UInt8))) (id : PageId) (pre : List LogRecord) (q : Page) :
    Prop where
  layout : q.Layout
  replaying : Replaying (start id) (seen id) (pageOps id pre) q.recordAt

theorem pageInvariant_replayed : PageInvariant (Replayed start seen) where
  fits h := h.layout.directoryFits
  congr {id log p q} h hsame := by
    have hrec : p.recordAt = q.recordAt :=
      funext fun j => hsame.recordAt (hsame.symm.layout h.layout) j
    exact ⟨hsame.symm.layout h.layout, hrec ▸ h.replaying⟩
  other {id log q rs} h hrs := by
    have hops : pageOps id (log ++ rs) = pageOps id log := by
      rw [pageOps_append, pageOps_eq_nil hrs, List.append_nil]
    exact ⟨h.layout, hops.symm ▸ h.replaying⟩

/-- The operations of a page, cut at a record of the log. -/
theorem pageOps_split {id : PageId} {log pre post : List LogRecord} {r : LogRecord}
    {op : Op (List UInt8)} (hlog : log = pre ++ r :: post) (hid : r.getPageId = id)
    (hop : r.op = some op) : pageOps id log = pageOps id pre ++ op :: pageOps id post := by
  rw [hlog, ← List.singleton_append, pageOps_append, pageOps_append, pageOps_singleton, if_pos hid,
    hop]
  rfl

/-- In the past of a page every operation was enabled where the log has it. -/
theorem Past.split {id : PageId} {log pre post : List LogRecord} {q : Page} {r : LogRecord}
    {op : Op (List UInt8)} (h : Past start id log q) (hlog : log = pre ++ r :: post)
    (hid : r.getPageId = id) (hop : r.op = some op) :
    EnabledRun (start id) (pageOps id pre) ∧
      op.Enabled (RedoLog.run (start id) (pageOps id pre)) := by
  have hen := h.enabled
  rw [pageOps_split hlog hid hop, EnabledRun, Run.stepsOk_append] at hen
  exact ⟨hen.1, hen.2.1⟩

/-! ## 2. Replaying the log over page images -/

/-- No insert of the log goes astray when it is repeated over images that have seen `seen`. -/
def NoneStray (start : PageId → Store (List UInt8)) (seen : PageId → List (Op (List UInt8)))
    (log : List LogRecord) : Prop :=
  ∀ pre r post op, log = pre ++ r :: post → r.op = some op →
    ¬ Stray (RedoLog.run (start r.getPageId) (seen r.getPageId)) (pageOps r.getPageId pre) op

/-- **A log that starts from empty pages leads no insert astray.** -/
theorem Upholds.noneStray (h : d.Upholds (Past fun _ _ => none) m)
    (seen : PageId → List (Op (List UInt8))) : NoneStray (fun _ _ => none) seen d.log := by
  intro pre r post op hlog hop
  have hon : r.onPage = true := by
    by_contra hno
    rw [LogRecord.op_of_not_onPage (Bool.not_eq_true _ ▸ hno)] at hop
    exact absurd hop (by simp)
  obtain ⟨q, hq⟩ := Option.isSome_iff_exists.mp
    (h.logged r (by rw [hlog]; exact List.mem_append_right _ List.mem_cons_self) hon)
  obtain ⟨hpre, hen⟩ := (h.page _ q hq).split hlog rfl hop
  exact not_stray_of_empty hpre hen

/-- The images of the pages that recovery starts from: `seen id` of the operations in the log
are in the image of page `id`. -/
structure Images (d : Database) (start : PageId → Store (List UInt8))
    (seen : PageId → List (Op (List UInt8))) (b : BufferPoolManager)
    (m₀ : PageId → Option Page) : Prop where
  idle : b.Idle m₀
  layout : ∀ id q, m₀ id = some q → q.Layout
  records : ∀ id q, m₀ id = some q → q.recordAt = RedoLog.run (start id) (seen id)
  older : ∀ id q, m₀ id = some q → seen id <+: pageOps id d.log

/-- **The pages of a replay catch up with their past.** -/
theorem Images.replayed (hi : d.Images start seen b m₀) (h : d.Upholds (Past start) m)
    (hsome : ∀ id, (m id).isSome ↔ (m₀ id).isSome) (hns : NoneStray start seen d.log)
    {pre post : List LogRecord} (hlog : d.log = pre ++ post)
    (room : Run.StepsOk BufferPoolManager.redoStep BufferPoolManager.RoomFor b pre) :
    ∃ m', (pre.foldl BufferPoolManager.redoStep b).Idle m' ∧
      (∀ id, (m' id).isSome = (m₀ id).isSome) ∧
      ∀ id q, m' id = some q → Replayed start seen id pre q ∧ seen id <+: pageOps id d.log := by
  have hP : PageInvariant fun id pre q =>
      Replayed start seen id pre q ∧ seen id <+: pageOps id d.log :=
    { fits := fun h => pageInvariant_replayed.fits h.1
      congr := fun h hsame => ⟨pageInvariant_replayed.congr h.1 hsame, h.2⟩
      other := fun h hrs => ⟨pageInvariant_replayed.other h.1 hrs, h.2⟩ }
  refine hP.replay pre (fun pre' r post' p hpre hon hp hfit => ⟨?_, hp.2⟩) pre [] rfl hi.idle
    (fun id q hq => ⟨⟨hi.layout id q hq, ?_⟩, hi.older id q hq⟩) (fun r hr hon => ?_) room
  · -- one redo
    have hlog' : d.log = pre' ++ r :: (post' ++ post) := by
      rw [hlog, hpre, List.append_assoc, List.cons_append]
    have hmem : r ∈ d.log := hlog' ▸ List.mem_append_right _ List.mem_cons_self
    obtain ⟨q, hq⟩ := Option.isSome_iff_exists.mp (h.logged r hmem hon)
    have hpast := h.page _ q hq
    obtain ⟨op, hop⟩ := Option.isSome_iff_exists.mp (hpast.described r hmem hon rfl)
    obtain ⟨-, hen⟩ := hpast.split hlog' rfl hop
    obtain ⟨later, hlater⟩ := hp.2
    have hsplit := hlater.trans (pageOps_split hlog' rfl hop)
    obtain ⟨hlay, hredo⟩ := hp.1.layout.redo hop hfit
    refine ⟨hlay, ?_⟩
    rw [pageOps_append, pageOps_singleton, if_pos rfl, hop]
    exact hp.1.replaying.step hsplit hen (fun _ => hns pre' r _ op hlog' hop) hredo
  · rw [hi.records id q hq]
    exact Replaying.nil _ _
  · have hmem : r ∈ d.log := hlog ▸ List.mem_append_left _ hr
    exact (hsome _).mp (h.logged r hmem hon)

/-- Every page of the pool has the records that the whole log leads to. -/
structure Restored (d : Database) (start : PageId → Store (List UInt8)) (b : BufferPoolManager)
    (m' : PageId → Option Page) : Prop where
  idle : b.Idle m'
  layout : ∀ id q, m' id = some q → q.Layout
  records : ∀ id q, m' id = some q → q.recordAt = RedoLog.run (start id) (pageOps id d.log)

/-- **A whole replay restores the pages.** -/
theorem Images.restored (hi : d.Images start seen b m₀) (h : d.Upholds (Past start) m)
    (hsome : ∀ id, (m id).isSome ↔ (m₀ id).isSome) (hns : NoneStray start seen d.log)
    (room : Run.StepsOk BufferPoolManager.redoStep BufferPoolManager.RoomFor b d.log) :
    ∃ m', d.Restored start ((CourtDB.recover d.log).exec b).2 m' ∧
      ∀ id, (m' id).isSome = (m₀ id).isSome := by
  obtain ⟨m', hidle, hsome', hm'⟩ := hi.replayed h hsome hns (List.append_nil _).symm room
  have hexec : ((CourtDB.recover d.log).exec b).2
      = (d.log.foldl BufferPoolManager.redoStep b).flushAllPages := by
    simp only [CourtDB.recover, PoolM.exec_bind, PoolM.exec_flushAllPages, PoolM.exec_pure,
      BufferPoolManager.exec_redoLog]
  rw [hexec]
  refine ⟨m', ⟨hidle.flushAllPages.1, fun id q hq => (hm' id q hq).1.layout, fun id q hq => ?_⟩,
    hsome'⟩
  obtain ⟨hr, hseen⟩ := hm' id q hq
  exact hr.replaying.eq_run hseen.length_le

/-- The records of a restored page are those it had in the run. -/
theorem Restored.recordOf (hr : d.Restored start b m₀) (h : d.Upholds (Past start) m)
    (hsome : ∀ id, (m id).isSome ↔ (m₀ id).isSome) {id : PageId} (hid : d.OnPage id)
    (slotId : UInt16) : b.recordOf id slotId = d.pool.recordOf id slotId := by
  have hs := h.idle.isSome_iff.mpr hid
  obtain ⟨q, hq⟩ := Option.isSome_iff_exists.mp hs
  obtain ⟨q', hq'⟩ := Option.isSome_iff_exists.mp ((hsome id).mp hs)
  have hlay := (h.page id q hq).layout
  have hlay' := hr.layout id q' hq'
  rw [h.idle.recordOf hq hlay, hr.idle.recordOf hq' hlay',
    Page.getRecord_eq hlay.slots_length, Page.getRecord_eq hlay'.slots_length,
    (h.page id q hq).records, hr.records id q' hq']

end Database

end CourtDB
