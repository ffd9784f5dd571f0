/-
# Logging and redo through the buffer pool

The logged operations and recovery pin one page at a time, so on an idle pool every page call
succeeds and each page changes as if it were alone.  What is true of the single pages is
therefore carried through whole runs: a `PageInvariant` speaks about one page and the log so
far, and it holds of every page after a run of logged operations whose every access keeps it
(`Upholds.run`), and of every page after a replay whose every redo keeps it
(`PageInvariant.replay`).

`Past` is the invariant of the runs: the records of a page are those of its own log, run from
where the page started.
-/
import CourtDB.Recovery.PageReplay

namespace CourtDB

open RedoLog

/-! ## 1. Invariants of the single pages -/

/-- Does `RedoRecord` fetch the page of the record? -/
def LogRecord.onPage (r : LogRecord) : Bool :=
  match r.getType with
  | .insert | .delete | .update => true
  | .newPage | .checkpointBegin | .checkpointEnd | .invalid | .other _ => false

theorem LogRecord.op_of_not_onPage {r : LogRecord} (h : r.onPage = false) : r.op = none := by
  simp only [LogRecord.onPage] at h
  simp only [LogRecord.op]
  cases ht : r.getType with
  | insert | delete | update => rw [ht] at h; exact absurd h.symm Bool.false_ne_true
  | newPage | checkpointBegin | checkpointEnd | invalid | other _ => rfl

/-- `P id log q` is about page `id` when the log is `log` and the page is `q`.  It cannot tell
pages of the same content apart, and log records of other pages do not matter to it. -/
structure PageInvariant (P : PageId → List LogRecord → Page → Prop) : Prop where
  fits : ∀ {id log q}, P id log q → q.DirectoryFits
  congr : ∀ {id log p q}, P id log q → p.SameContent q → P id log p
  other : ∀ {id log q rs}, P id log q → (∀ r ∈ rs, r.onPage = true → r.getPageId ≠ id) →
    P id (log ++ rs) q

theorem pageOps_eq_nil {id : PageId} {log : List LogRecord}
    (h : ∀ r ∈ log, r.onPage = true → r.getPageId ≠ id) : pageOps id log = [] := by
  refine List.filterMap_eq_nil_iff.mpr fun r hr => ?_
  split
  · rename_i hid
    cases hon : r.onPage with
    | true => exact absurd hid (h r hr hon)
    | false => exact LogRecord.op_of_not_onPage hon
  · rfl

/-! ## 2. Redo -/

namespace BufferPoolManager

variable {b : BufferPoolManager} {m : PageId → Option Page}

/-- `RedoRecord` as a step of the pool. -/
def redoStep (b : BufferPoolManager) (r : LogRecord) : BufferPoolManager :=
  ((redoRecord r).exec b).2

/-- The page that the redo of `r` fetches meets `ok`. -/
def RedoOk (ok : Page → LogRecord → Prop) (b : BufferPoolManager) (r : LogRecord) : Prop :=
  ∀ p, b.pageOf r.getPageId = some p → ok p r

instance (ok : Page → LogRecord → Prop) [∀ p r, Decidable (ok p r)] (b : BufferPoolManager)
    (r : LogRecord) : Decidable (RedoOk ok b r) :=
  inferInstanceAs (Decidable (∀ p ∈ b.pageOf r.getPageId, ok p r))

/-- The redo of `r` finds room on the page it fetches. -/
abbrev RoomFor : BufferPoolManager → LogRecord → Prop := RedoOk Page.RedoFits

theorem redoStep_of_onPage {r : LogRecord} (h : r.onPage = true) (b : BufferPoolManager) :
    b.redoStep r = ((withPage r.getPageId (fun page => page.redo r) false).exec b).2 := by
  simp only [LogRecord.onPage] at h
  simp only [redoStep, redoRecord]
  cases ht : r.getType with
  | insert | delete | update => rfl
  | newPage | checkpointBegin | checkpointEnd | invalid | other _ =>
    rw [ht] at h; exact absurd h Bool.false_ne_true

theorem redoStep_of_not_onPage {r : LogRecord} (h : r.onPage = false) (b : BufferPoolManager) :
    b.redoStep r = b := by
  simp only [LogRecord.onPage] at h
  simp only [redoStep, redoRecord]
  cases ht : r.getType with
  | insert | delete | update => rw [ht] at h; exact absurd h.symm Bool.false_ne_true
  | newPage | checkpointBegin | checkpointEnd | invalid | other _ => rfl

theorem exec_redoLog (log : List LogRecord) (n : UInt32) (b : BufferPoolManager) :
    ((redoLog log n).exec b).2 = log.foldl redoStep b := by
  induction log generalizing n b with
  | nil => rfl
  | cons r rest ih =>
    simp only [redoLog, PoolM.exec_bind, List.foldl_cons]
    exact ih _ _

end BufferPoolManager

namespace PageInvariant

variable {P : PageId → List LogRecord → Page → Prop} {b : BufferPoolManager}
  {m : PageId → Option Page}

/-- **One redo on an idle pool** keeps an invariant that it keeps on the page it fetches. -/
theorem redoStep (hP : PageInvariant P) (h : b.Idle m) {pre : List LogRecord}
    (hm : ∀ id q, m id = some q → P id pre q) {r : LogRecord}
    (hex : r.onPage = true → (m r.getPageId).isSome)
    (hstep : ∀ p, r.onPage = true → b.pageOf r.getPageId = some p → P r.getPageId pre p →
      P r.getPageId (pre ++ [r]) (p.redo r).2) :
    ∃ m', (b.redoStep r).Idle m' ∧ (∀ id, (m' id).isSome = (m id).isSome) ∧
      ∀ id q, m' id = some q → P id (pre ++ [r]) q := by
  cases hon : r.onPage with
  | true =>
    obtain ⟨q, hq⟩ := Option.isSome_iff_exists.mp (hex hon)
    have hredo : ∀ p, b.pageOf r.getPageId = some p → p.SameContent q →
        P r.getPageId (pre ++ [r]) (p.redo r).2 :=
      fun p hp hsame => hstep p hon hp (hP.congr (hm _ q hq) hsame)
    obtain ⟨p, hp, hsame, -, hidle⟩ := h.withPage hq (f := fun page => page.redo r) false
      fun p hp hsame => hP.fits (hredo p hp hsame)
    rw [BufferPoolManager.redoStep_of_onPage hon]
    refine ⟨_, hidle, fun id => ?_, fun id q' hq' => ?_⟩
    · rw [Function.update_apply]
      split
      · rename_i hid; rw [hid, hq]; rfl
      · rfl
    · rw [Function.update_apply] at hq'
      split at hq'
      · rename_i hid
        rw [hid, ← Option.some.inj hq']
        exact hredo p hp hsame
      · rename_i hid
        refine hP.other (hm id q' hq') fun r' hr' _ he => hid ?_
        rw [← he, List.mem_singleton.mp hr']
  | false =>
    refine ⟨m, by rw [BufferPoolManager.redoStep_of_not_onPage hon]; exact h, fun _ => rfl,
      fun id q hq => hP.other (hm id q hq) fun r' hr' hon' => ?_⟩
    rw [List.mem_singleton.mp hr', hon] at hon'
    exact absurd hon' Bool.false_ne_true

/-- **An invariant of the single pages holds along a replay**, if every redo keeps it on a page
that meets the side condition `ok`. -/
theorem replay (hP : PageInvariant P) {ok : Page → LogRecord → Prop} (log : List LogRecord)
    (hstep : ∀ pre r post p, log = pre ++ r :: post → r.onPage = true → P r.getPageId pre p →
      ok p r → P r.getPageId (pre ++ [r]) (p.redo r).2) :
    ∀ (post pre : List LogRecord) {b : BufferPoolManager} {m : PageId → Option Page},
      log = pre ++ post → b.Idle m → (∀ id q, m id = some q → P id pre q) →
      (∀ r ∈ post, r.onPage = true → (m r.getPageId).isSome) →
      Run.StepsOk BufferPoolManager.redoStep (BufferPoolManager.RedoOk ok) b post →
      ∃ m', (post.foldl BufferPoolManager.redoStep b).Idle m' ∧
        (∀ id, (m' id).isSome = (m id).isSome) ∧ ∀ id q, m' id = some q → P id log q := by
  intro post
  induction post with
  | nil =>
    rintro pre b m rfl h hm - -
    exact ⟨m, h, fun _ => rfl, by simpa using hm⟩
  | cons r rest ih =>
    rintro pre b m hlog h hm hex ⟨hok, hrest⟩
    obtain ⟨m₁, h₁, hsome₁, hm₁⟩ := hP.redoStep h hm (hex r List.mem_cons_self)
      fun p hon hp hpre => hstep pre r rest p hlog hon hpre (hok p hp)
    obtain ⟨m₂, h₂, hsome₂, hm₂⟩ := ih (pre ++ [r]) (hlog.trans (by simp)) h₁ hm₁
      (fun r' hr' ho => (hsome₁ _).trans (hex r' (List.mem_cons_of_mem _ hr') ho)) hrest
    exact ⟨m₂, h₂, fun id => (hsome₂ id).trans (hsome₁ id), hm₂⟩

end PageInvariant

/-! ## 3. The run that is logged -/

/-- The update writes inside the page: where it relocates the record, the data region is long
enough for it. -/
def Page.UpdateInPage (p : Page) (slotId : UInt16) (data : RecordData) : Prop :=
  (p.updateRecord slotId data).1 = true →
    data.bytes.length ≤ (p.slot slotId).length.toNat ∨
      data.bytes.length ≤ p.header.freeSpaceEnd.toNat

namespace Database

variable {d : Database} {m : PageId → Option Page} {P : PageId → List LogRecord → Page → Prop}

/-- The page of an operation on an existing page. -/
def OnPage (d : Database) (id : PageId) : Prop := id ≠ 0 ∧ id < d.pool.disk.header.pageCount

instance (d : Database) (id : PageId) : Decidable (d.OnPage id) :=
    inferInstanceAs (Decidable (_ ∧ _))

/-- Clients work on pages that `NewPage` returned, before page ids run out, and update records
of a page as far as `update` permits. -/
def Allowed (update : Page → UInt16 → RecordData → Prop) (d : Database) : LoggedOp → Prop
  | .newPage => d.pool.disk.header.pageCount ≠ invalidPageId
  | .insert id _ | .delete id _ => d.OnPage id
  | .update id slotId data =>
    d.OnPage id ∧ ∀ p, d.pool.pageOf id = some p → update p slotId data

/-- The database is idle between two operations, and `P` holds of each of its pages, and would
hold of a new one. -/
structure Upholds (d : Database) (P : PageId → List LogRecord → Page → Prop)
    (m : PageId → Option Page) : Prop where
  idle : d.pool.Idle m
  page : ∀ id q, m id = some q → P id d.log q
  fresh : ∀ id, m id = none → P id d.log (Page.ofId id)
  logged : ∀ r ∈ d.log, r.onPage = true → (m r.getPageId).isSome

/-- What a change of a page by a client does to the log and to the page keeps `P`. -/
def Keeps (P : PageId → List LogRecord → Page → Prop) (log : List LogRecord) (id : PageId)
    (res : List LogRecord × Page) : Prop :=
  (∀ r ∈ res.1, r.getPageId = id) ∧ P id (log ++ res.1) res.2

/-- **One access by a client** to page `id`, with the record it logs. -/
theorem Upholds.access (hP : PageInvariant P) (h : d.Upholds P m) {id : PageId} {q : Page}
    (hq : m id = some q) {f : Page → List LogRecord × Page}
    (hstep : ∀ p, d.pool.pageOf id = some p → P id d.log p → Keeps P d.log id (f p)) :
    let prog := withPage id f []
    ∃ m', Upholds ⟨(prog.exec d.pool).2, d.log ++ (prog.exec d.pool).1⟩ P m' ∧
      ∀ i, (m' i).isSome = (m i).isSome := by
  intro prog
  -- the page the client reads may differ from the model in its LSN or flags only
  have hkeep : ∀ p, d.pool.pageOf id = some p → p.SameContent q → Keeps P d.log id (f p) :=
    fun p hp hsame => hstep p hp (hP.congr (h.page id q hq) hsame)
  -- the access changes this page and leaves the others
  obtain ⟨p, hp, hsame, hres, hidle⟩ := h.idle.withPage hq []
    fun p hp hsame => hP.fits (hkeep p hp hsame).2
  obtain ⟨hids, hpage⟩ := hkeep p hp hsame
  rw [show (prog.exec d.pool).1 = (f p).1 from hres]
  -- the new records are about this page
  have hother : ∀ i, i ≠ id → ∀ r ∈ (f p).1, r.onPage = true → r.getPageId ≠ i :=
    fun i hi r hr _ he => hi (he.symm.trans (hids r hr))
  have hsome : ∀ i, (Function.update m id (some (f p).2) i).isSome = (m i).isSome := fun i => by
    rw [Function.update_apply]
    split
    · rename_i hi; rw [hi, hq]; rfl
    · rfl
  refine ⟨_, ⟨hidle, fun i q' hq' => ?_, fun i hi => ?_, fun r hr hon => ?_⟩, hsome⟩
  · -- the page that was changed
    rw [Function.update_apply] at hq'
    split at hq'
    · rename_i hi
      rw [hi, ← Option.some.inj hq']
      exact hpage
    · rename_i hi
      exact hP.other (h.page i q' hq') (hother i hi)
  · -- a page that does not exist yet
    rw [Function.update_apply] at hi
    split at hi
    · exact absurd hi (by simp)
    · rename_i hne
      exact hP.other (h.fresh i hi) (hother i hne)
  · -- the log names existing pages
    rw [hsome]
    rcases List.mem_append.mp hr with hr | hr
    · exact h.logged r hr hon
    · rw [hids r hr, hq]; rfl

/-- **NewPage** adds an empty page. -/
theorem Upholds.newPage (hP : PageInvariant P) (h : d.Upholds P m)
    (hid : d.pool.disk.header.pageCount ≠ invalidPageId) :
    ∃ m', (d.step .newPage).Upholds P m' ∧ ∀ i, (m i).isSome → (m' i).isSome := by
  obtain ⟨hnew, hidle⟩ := h.idle.newPage hid
  have hstep : d.step .newPage = ⟨(d.pool.newPage.2.unpinPage d.pool.disk.header.pageCount true).2,
      d.log ++ [.makeNewPage 0 d.pool.disk.header.pageCount]⟩ := by
    simp only [step, LoggedOp.program, loggedNewPage, PoolM.exec_bind, PoolM.exec_newPage, hnew,
      PoolM.exec_unpinPage, PoolM.exec_pure]
  -- the page did not exist before
  have hnone : m d.pool.disk.header.pageCount = none := by
    rw [← Option.not_isSome_iff_eq_none, h.idle.isSome_iff]
    exact fun hlt => UInt32.lt_irrefl _ hlt.2
  have hother : ∀ i, ∀ r ∈ [LogRecord.makeNewPage 0 d.pool.disk.header.pageCount],
      r.onPage = true → r.getPageId ≠ i := by
    intro i r hr hon
    obtain rfl := List.mem_singleton.mp hr
    exact absurd hon Bool.false_ne_true
  have hmono : ∀ i, (m i).isSome → (Function.update m d.pool.disk.header.pageCount
      (some (Page.ofId d.pool.disk.header.pageCount)) i).isSome := by
    intro i hi
    rw [Function.update_apply]
    split
    · rfl
    · exact hi
  rw [hstep]
  refine ⟨_, ⟨hidle, fun i q' hq' => ?_, fun i hi => ?_, fun r hr hon => ?_⟩, hmono⟩
  · -- the new page is empty, and no record names it
    rw [Function.update_apply] at hq'
    split at hq'
    · rename_i hi
      rw [hi, ← Option.some.inj hq']
      exact hP.other (h.fresh _ hnone) (hother _)
    · exact hP.other (h.page i q' hq') (hother i)
  · rw [Function.update_apply] at hi
    split at hi
    · exact absurd hi (by simp)
    · exact hP.other (h.fresh i hi) (hother i)
  · rcases List.mem_append.mp hr with hr | hr
    · exact hmono _ (h.logged r hr hon)
    · exact absurd rfl (hother _ r hr hon)

/-- What `P` must stand: every logged operation of a client, an update only where `update`
permits it. -/
structure Stands (P : PageId → List LogRecord → Page → Prop)
    (update : Page → UInt16 → RecordData → Prop) : Prop extends PageInvariant P where
  insert : ∀ {id log p} data, P id log p → Keeps P log id (p.loggedInsert id data)
  delete : ∀ {id log p} slotId, P id log p → Keeps P log id (p.loggedDelete id slotId)
  modify : ∀ {id log p} slotId data, P id log p → update p slotId data →
    Keeps P log id (p.loggedUpdate id slotId data)

theorem Upholds.step {update : Page → UInt16 → RecordData → Prop} (hP : Stands P update)
    (h : d.Upholds P m) {op : LoggedOp} (ok : d.Allowed update op) :
    ∃ m', (d.step op).Upholds P m' ∧ ∀ id, (m id).isSome → (m' id).isSome := by
  -- the page of a call exists
  have hex : ∀ id, d.OnPage id → ∃ q, m id = some q := fun id hid =>
    Option.isSome_iff_exists.mp (h.idle.isSome_iff.mpr hid)
  cases op with
  | newPage => exact h.newPage hP.toPageInvariant ok
  | insert id data =>
    obtain ⟨q, hq⟩ := hex id ok
    obtain ⟨m', h', hsome⟩ := h.access hP.toPageInvariant hq fun p _ hp => hP.insert data hp
    exact ⟨m', h', fun i hi => (hsome i).trans hi⟩
  | delete id slotId =>
    obtain ⟨q, hq⟩ := hex id ok
    obtain ⟨m', h', hsome⟩ := h.access hP.toPageInvariant hq fun p _ hp => hP.delete slotId hp
    exact ⟨m', h', fun i hi => (hsome i).trans hi⟩
  | update id slotId data =>
    obtain ⟨q, hq⟩ := hex id ok.1
    obtain ⟨m', h', hsome⟩ := h.access hP.toPageInvariant hq
      fun p hof hp => hP.modify slotId data hp (ok.2 p hof)
    exact ⟨m', h', fun i hi => (hsome i).trans hi⟩

/-- **A run of logged operations** keeps what its single operations keep. -/
theorem Upholds.run {update : Page → UInt16 → RecordData → Prop} (hP : Stands P update)
    {ops : List LoggedOp} :
    ∀ {d : Database} {m : PageId → Option Page}, d.Upholds P m →
      Run.StepsOk Database.step (Allowed update) d ops →
      ∃ m', (d.run ops).Upholds P m' ∧ ∀ id, (m id).isSome → (m' id).isSome := by
  induction ops with
  | nil => intro d m h _; exact ⟨m, h, fun _ hid => hid⟩
  | cons op ops ih =>
    rintro d m h ⟨ok, hrest⟩
    obtain ⟨m₁, h₁, hmono₁⟩ := h.step hP ok
    obtain ⟨m₂, h₂, hmono₂⟩ := ih h₁ hrest
    exact ⟨m₂, h₂, fun id hid => hmono₂ id (hmono₁ id hid)⟩

theorem upholds_create {n : Nat} (hn : 0 < n) (hnew : ∀ id, P id [] (Page.ofId id)) :
    (create n).Upholds P fun _ => none where
  idle := by
    refine BufferPoolManager.idle_create hn DiskManager.growing_initializeNewFile
      (fun _ _ hq => absurd hq (by simp)) fun id h0 hlt => absurd ?_ h0
    have h1 := UInt32.lt_iff_toNat_lt.mp hlt
    have h2 : DiskManager.initializeNewFile.header.pageCount.toNat = 1 := rfl
    exact UInt32.toNat_inj.mp (by simp; omega)
  page _ _ hq := absurd hq (by simp)
  fresh id _ := hnew id
  logged _ hr := absurd hr List.not_mem_nil

/-- A log only grows. -/
theorem log_prefix (ops : List LoggedOp) (d : Database) : d.log <+: (d.run ops).log := by
  induction ops generalizing d with
  | nil => exact List.prefix_refl _
  | cons op ops ih => exact (List.prefix_append _ _).trans (ih (d.step op))

/-! ## 4. The past of a page -/

/-- What the log says about a page that is now `q`: its operations were enabled one after the
other from the records `start`, and led to the records of `q`. -/
structure Past (start : PageId → Store (List UInt8)) (id : PageId) (log : List LogRecord)
    (q : Page) : Prop where
  layout : q.Layout
  enabled : EnabledRun (start id) (pageOps id log)
  records : q.recordAt = RedoLog.run (start id) (pageOps id log)
  described : ∀ r ∈ log, r.onPage = true → r.getPageId = id → r.op.isSome

variable {start : PageId → Store (List UInt8)}

theorem pageInvariant_past : PageInvariant (Past start) where
  fits h := h.layout.directoryFits
  congr h hsame :=
    { layout := hsame.symm.layout h.layout
      enabled := h.enabled
      records := by
        rw [← h.records]
        exact funext fun j => hsame.recordAt (hsame.symm.layout h.layout) j
      described := h.described }
  other {id log q rs} h hrs := by
    have hops : pageOps id (log ++ rs) = pageOps id log := by
      rw [pageOps_append, pageOps_eq_nil hrs, List.append_nil]
    refine ⟨h.layout, hops.symm ▸ h.enabled, hops.symm ▸ h.records, fun r hr hon hid => ?_⟩
    rcases List.mem_append.mp hr with hr | hr
    · exact h.described r hr hon hid
    · exact absurd hid (hrs r hr hon)

/-- A logged operation adds itself to the past of its page. -/
theorem Past.keeps {id : PageId} {log : List LogRecord} {p : Page}
    {res : List LogRecord × Page} (h : Past start id log p)
    (hids : ∀ r ∈ res.1, r.getPageId = id) (hstep : p.LoggedStep res) :
    Keeps (Past start) log id res := by
  refine ⟨hids, ?_⟩
  rcases hstep with rfl | ⟨r, op, heq, hop, hen, hlay, hrec⟩
  · simpa using h
  · have hops : pageOps id (log ++ res.1) = pageOps id log ++ [op] := by
      rw [pageOps_append, heq, pageOps_singleton,
        if_pos (hids r (heq ▸ List.mem_singleton_self r)), hop]
      rfl
    have hen' : op.Enabled (RedoLog.run (start id) (pageOps id log)) := h.records ▸ hen
    refine ⟨hlay, ?_, ?_, fun r' hr' hon hid => ?_⟩
    · rw [hops]
      exact Run.stepsOk_append.mpr ⟨h.enabled, hen', trivial⟩
    · rw [hops, run_append_singleton, ← h.records, hrec]
    · rw [heq] at hr'
      rcases List.mem_append.mp hr' with hr' | hr'
      · exact h.described r' hr' hon hid
      · rw [List.mem_singleton.mp hr', hop]; rfl

/-- **Every logged operation stands in the log**, if no update places its record below the
free-space offset. -/
theorem stands_past : Stands (Past start) Page.UpdateInBounds where
  toPageInvariant := pageInvariant_past
  insert data h := h.keeps (fun _ => Page.pageId_of_mem_loggedInsert) (h.layout.loggedInsert _ data)
  delete slotId h :=
    h.keeps (fun _ => Page.pageId_of_mem_loggedDelete) (h.layout.loggedDelete _ slotId)
  modify _ _ h hin :=
    h.keeps (fun _ => Page.pageId_of_mem_loggedUpdate) (h.layout.loggedUpdate _ hin)

/-- A new database has an empty past. -/
theorem past_create {n : Nat} (hn : 0 < n) :
    (create n).Upholds (Past fun _ _ => none) fun _ => none :=
  upholds_create hn fun id => ⟨Page.layout_ofId id, trivial, rfl, fun _ hr =>
    absurd hr List.not_mem_nil⟩

end Database

end CourtDB
