/-
# The heap file as a table of records

What a heap file is for: byte strings under record ids.  `TableRun` runs the operations of one heap
file on a real buffer pool and keeps next to it the table that its callers have built up, learning
nothing from the heap file but the record ids it returned.

`faithful_table` says that the heap file never disagrees with the table, whatever the operations:
every record id reads back what the table has there, a scan visits the table's records once each and
ends, and the record counter is the size of the table, as far as 32 bits can tell.

The operations are insertions, bulk insertions and deletions, in any order and with any arguments;
records that fit on no page are among them, and are answered by an invalid record id.  The callers
delete record ids that they were given, once or again.  What is asked of the pool is that it serves
the requests, which one client that holds no page can expect of a pool with two frames.

Updates are not among the operations, because they may damage a page (`Heap.FailedOps` and
`Heap.RecordCounter` have the runs with updates).
-/
import CourtDB.Buffer.HeaderPage
import CourtDB.Heap.HeapScan
import CourtDB.Lib.Listing

namespace CourtDB

open BufferPoolManager

/-! ## 1. Runs

A step makes the call and notes what was returned.  `table` is a partial function; the order of the
insertions does not matter for it. -/

/-- The operations that change a heap file. -/
inductive HeapOp
  | insert (a : RecordArg)
  | bulk (records : List RecordArg)
  | delete (rid : RID)

/-- The bytes an argument names. -/
def RecordArg.bytes : RecordArg → List UInt8
  | .null _ => []
  | .data r => r.bytes

/-- A heap file on its pool, the records its callers have stored and not deleted, and the record
ids it has returned. -/
structure TableRun where
  pool : BufferPoolManager
  heap : HeapFile
  live : List (RID × List UInt8) := []
  returned : List RID := []

namespace TableRun

/-- The callers learn that a record was stored. -/
def note (live : List (RID × List UInt8)) (a : RecordArg) (rid : RID) : List (RID × List UInt8) :=
  if rid.isValid then (rid, a.bytes) :: live else live

/-- They learn it of several records. -/
def noteAll (live : List (RID × List UInt8)) (records : List RecordArg) (rids : List RID) :
    List (RID × List UInt8) :=
  (records.zip rids).foldl (fun live e => note live e.1 e.2) live

/-- The program behind an operation, and the record ids it returns. -/
def program (heap : HeapFile) : HeapOp → PoolM (Option (List RID × HeapFile))
  | .insert a => do
    let (rid, heap) ← heap.insertRecord a
    return some ([rid], heap)
  | .bulk records => heap.bulkInsert records
  | .delete rid => do
    let (_, heap) ← heap.deleteRecord rid
    return some ([], heap)

/-- The table after an operation that returned `rids`. -/
def table (live : List (RID × List UInt8)) (rids : List RID) : HeapOp → List (RID × List UInt8)
  | .insert a => noteAll live [a] rids
  | .bulk records => noteAll live records rids
  | .delete rid => live.filter fun e => decide (e.1 ≠ rid)

/-- One operation. -/
def step (st : TableRun) (op : HeapOp) : TableRun :=
  match (program st.heap op).exec st.pool with
  | (some (rids, heap), pool) => ⟨pool, heap, table st.live rids op, st.returned ++ rids⟩
  | (none, pool) => { st with pool := pool }

/-- A new heap file. -/
def start (b : BufferPoolManager) : TableRun :=
  { pool := (HeapFile.create.exec b).2, heap := (HeapFile.create.exec b).1 }

/-- The calls of the operation on the pool succeed, and a record id that is deleted is one that
was returned. -/
def Admits (st : TableRun) (op : HeapOp) : Prop :=
  (program st.heap op).CallsOk BufferPoolManager.handle Succeeds st.pool ∧
    ∀ rid, op = .delete rid → rid ∈ st.returned

instance (st : TableRun) : DecidablePred st.Admits
  | .delete rid => decidable_of_iff
      ((program st.heap (.delete rid)).CallsOk BufferPoolManager.handle Succeeds st.pool ∧
        rid ∈ st.returned) <| and_congr_right fun _ =>
      ⟨fun h _ he => HeapOp.delete.inj he ▸ h, fun h => h rid rfl⟩
  | .insert a => decidable_of_iff
      ((program st.heap (.insert a)).CallsOk BufferPoolManager.handle Succeeds st.pool)
      (iff_self_and.mpr fun _ _ he => absurd he (by simp))
  | .bulk records => decidable_of_iff
      ((program st.heap (.bulk records)).CallsOk BufferPoolManager.handle Succeeds st.pool)
      (iff_self_and.mpr fun _ _ he => absurd he (by simp))

/-! ## 2. The invariant

`Sound` joins the invariant of the heap file with the table: what is stored is what the callers
believe.  The counter may be off by a constant, for the runs with updates. -/

/-- The heap file stands on an idle pool, and stores what the table says. -/
structure Sound (n : Nat) (m₀ : PageId → Option Page) (st : TableRun) (s : HeapState) : Prop where
  ok : s.Ok
  heap : s.heap = st.heap
  first : s.chain.head? = some s.heap.firstPageId
  shows : st.pool.Shows (View.quiet n s.pages)
  aside : st.pool.HeaderAside
  fresh : ∀ id ∈ s.chain, m₀ id = none
  frame : ∀ id, id ∉ s.chain → s.pages id = m₀ id
  lists : Listing st.live s.stored
  count : st.heap.recordCount = UInt32.ofNat st.live.length
  returned : ∀ rid ∈ st.returned, rid.isValid = true → rid.pageId ∈ s.chain

section

variable {n : Nat} {m₀ : PageId → Option Page} {st : TableRun} {s t : HeapState}

/-- The table follows an insertion, and a counter that is off by `d` stays off by `d`. -/
theorem note_drift {live : List (RID × List UInt8)} {a : RecordArg} {rid : RID} {d : UInt32}
    (h : Listing live s.stored) (hcount : s.heap.recordCount + d = UInt32.ofNat live.length)
    (hins : s.Inserts t a rid) :
    Listing (note live a rid) t.stored ∧
      t.heap.recordCount + d = UInt32.ofNat (note live a rid).length := by
  rcases hins with ⟨rfl, -, hst, hc⟩ | ⟨r, rfl, hvalid, hfree, hst, hc⟩
  · rw [note, if_neg (by decide), hst, hc]
    exact ⟨h, hcount⟩
  · rw [note, if_pos hvalid, hst, hc, List.length_cons, UInt32.ofNat_add, ← hcount]
    exact ⟨h.insert hfree r.bytes, by grind⟩

/-- A counter that is right stays right. -/
theorem note_spec {live : List (RID × List UInt8)} {a : RecordArg} {rid : RID}
    (h : Listing live s.stored) (hcount : s.heap.recordCount = UInt32.ofNat live.length)
    (hins : s.Inserts t a rid) :
    Listing (note live a rid) t.stored ∧
      t.heap.recordCount = UInt32.ofNat (note live a rid).length := by
  have hdrift := note_drift h ((UInt32.add_zero _).trans hcount) hins
  rwa [UInt32.add_zero] at hdrift

theorem noteAll_spec {records : List RecordArg} {rids : List RID}
    (hins : HeapState.InsertsAll s t records rids) {live : List (RID × List UInt8)}
    (h : Listing live s.stored) (hcount : s.heap.recordCount = UInt32.ofNat live.length) :
    Listing (noteAll live records rids) t.stored ∧
      t.heap.recordCount = UInt32.ofNat (noteAll live records rids).length := by
  induction hins generalizing live with
  | nil hst hc =>
    rw [hst, hc]
    exact ⟨h, hcount⟩
  | cons hins _ hrest ih =>
    obtain ⟨h', hcount'⟩ := note_spec h hcount hins
    exact ih h' hcount'

/-- The heap file went on to the state `t`, and the callers know about it. -/
theorem Sound.next (h : Sound n m₀ st s) (hev : s.Extends t) {pool : BufferPoolManager}
    {live : List (RID × List UInt8)} {rids : List RID} (hshows : pool.Shows (View.quiet n t.pages))
    (haside : pool.HeaderAside) (hlists : Listing live t.stored)
    (hcount : t.heap.recordCount = UInt32.ofNat live.length)
    (hrids : ∀ rid ∈ rids, rid.isValid = true → rid.pageId ∈ t.chain) :
    Sound n m₀ ⟨pool, t.heap, live, st.returned ++ rids⟩ t := by
  refine ⟨hev.ok, rfl, hev.head? h.first, hshows, haside, fun id hid => ?_, fun id hid => ?_,
    hlists, hcount, fun rid hrid hvalid => ?_⟩
  · by_cases hold : id ∈ s.chain
    · exact h.fresh id hold
    · rw [← h.frame id hold]
      exact hev.fresh id hid hold
  · have hold : id ∉ s.chain := fun hmem => hid (hev.grows.subset hmem)
    rw [hev.frame id hid, h.frame id hold]
  · rcases List.mem_append.mp hrid with hrid | hrid
    · exact hev.grows.subset (h.returned rid hrid hvalid)
    · exact hrids rid hrid hvalid

/-- **One program.**  An operation whose calls succeed, and which ends in a state that evolved
from the one before, keeps the run sound; what else is known of its answers and of that state stays
known. -/
theorem Sound.run_answers (h : Sound n m₀ st s) {op : HeapOp} {P : List RID → HeapState → Prop}
    (hok : (program st.heap op).CallsOk BufferPoolManager.handle Succeeds st.pool)
    (hwp : (program st.heap op).wp .succeeds (fun r v => ∃ rids t, r = some (rids, t.heap) ∧
      v = View.quiet n t.pages ∧ s.Extends t ∧ P rids t ∧ Listing (table st.live rids op) t.stored ∧
      t.heap.recordCount = UInt32.ofNat (table st.live rids op).length ∧
      ∀ rid ∈ rids, rid.isValid = true → rid.pageId ∈ t.chain) (View.quiet n s.pages)) :
    ∃ rids t, Sound n m₀ (st.step op) t ∧ s.Extends t ∧ P rids t ∧
      (st.step op).live = table st.live rids op ∧ (st.step op).returned = st.returned ++ rids := by
  obtain ⟨v, ⟨rids, t, hres, rfl, hev, hp, hlists, hcount, hrids⟩, hshows⟩ :=
    h.shows.exec_succeeds hok hwp
  have haside := h.aside.exec h.shows hok hwp
  have hstep : st.step op = ⟨((program st.heap op).exec st.pool).2, t.heap,
      table st.live rids op, st.returned ++ rids⟩ := by
    rw [step]
    split
    · rename_i rids' heap pool heq
      rw [heq] at hres
      obtain ⟨rfl, rfl⟩ := Prod.mk.inj (Option.some.inj hres)
      rw [heq]
    · rename_i pool heq
      rw [heq] at hres
      exact absurd hres (by simp)
  rw [hstep]
  exact ⟨rids, t, h.next hev hshows haside hlists hcount hrids, hev, hp, rfl, rfl⟩

/-- The same, where the answers do not matter. -/
theorem Sound.run (h : Sound n m₀ st s) {op : HeapOp} {P : HeapState → Prop}
    (hok : (program st.heap op).CallsOk BufferPoolManager.handle Succeeds st.pool)
    (hwp : (program st.heap op).wp .succeeds (fun r v => ∃ rids t, r = some (rids, t.heap) ∧
      v = View.quiet n t.pages ∧ s.Extends t ∧ P t ∧ Listing (table st.live rids op) t.stored ∧
      t.heap.recordCount = UInt32.ofNat (table st.live rids op).length ∧
      ∀ rid ∈ rids, rid.isValid = true → rid.pageId ∈ t.chain) (View.quiet n s.pages)) :
    ∃ t, Sound n m₀ (st.step op) t ∧ s.Extends t ∧ P t := by
  obtain ⟨_, t, ht, hext, hp, -⟩ := h.run_answers (P := fun _ => P) hok hwp
  exact ⟨t, ht, hext, hp⟩

/-- **Insertion**, with its answer. -/
theorem Sound.insert_answer (h : Sound n m₀ st s) {a : RecordArg} (hadm : st.Admits (.insert a)) :
    ∃ rid t, Sound n m₀ (st.step (.insert a)) t ∧ s.Extends t ∧ s.Inserts t a rid ∧
      s.Searches t a rid ∧ (st.step (.insert a)).live = note st.live a rid ∧
      (st.step (.insert a)).returned = st.returned ++ [rid] := by
  have hrun : ∃ rids t, Sound n m₀ (st.step (.insert a)) t ∧ s.Extends t ∧
      (∃ rid, rids = [rid] ∧ s.Inserts t a rid ∧ s.Searches t a rid) ∧
      (st.step (.insert a)).live = table st.live rids (.insert a) ∧
      (st.step (.insert a)).returned = st.returned ++ rids := by
    refine h.run_answers hadm.1 ?_
    have hheap := h.heap
    rw [program, ← hheap, PoolM.wp, Program.wp_bind]
    refine h.ok.insertRecord PoolMode.serves_succeeds a (fun _ _ => PoolMode.creates_succeeds)
      fun rid t hev hins hsea => ?_
    obtain ⟨hlists, hcount⟩ := note_spec h.lists (hheap ▸ h.count) hins
    refine ⟨[rid], t, rfl, rfl, hev, ⟨rid, rfl, hins, hsea⟩, hlists, hcount, fun i hi hvalid => ?_⟩
    obtain rfl := List.mem_singleton.mp hi
    exact hins.mem_chain hvalid
  obtain ⟨_, t, ht, hext, ⟨rid, rfl, hins, hsea⟩, hlive, hreturned⟩ := hrun
  exact ⟨rid, t, ht, hext, hins, hsea, hlive, hreturned⟩

/-- **Insertion.** -/
theorem Sound.insert (h : Sound n m₀ st s) {a : RecordArg} (hadm : st.Admits (.insert a)) :
    ∃ t, Sound n m₀ (st.step (.insert a)) t ∧ s.Extends t ∧
      ∃ rid, s.Inserts t a rid ∧ s.Searches t a rid := by
  obtain ⟨rid, t, ht, hext, hins, hsea, -⟩ := h.insert_answer hadm
  exact ⟨t, ht, hext, rid, hins, hsea⟩

/-- **Deletion**, with what the callers know after it. -/
theorem Sound.delete_answer (h : Sound n m₀ st s) {rid : RID} (hadm : st.Admits (.delete rid)) :
    ∃ t, Sound n m₀ (st.step (.delete rid)) t ∧ s.Extends t ∧ t.chain = s.chain ∧
      ((s.stored rid).isSome → s.Tombstones t rid) ∧
      (st.step (.delete rid)).live = st.live.filter (fun e => decide (e.1 ≠ rid)) ∧
      (st.step (.delete rid)).returned = st.returned := by
  have hrun : ∃ rids t, Sound n m₀ (st.step (.delete rid)) t ∧ s.Extends t ∧
      (rids = [] ∧ t.chain = s.chain ∧ ((s.stored rid).isSome → s.Tombstones t rid)) ∧
      (st.step (.delete rid)).live = table st.live rids (.delete rid) ∧
      (st.step (.delete rid)).returned = st.returned ++ rids := by
    refine h.run_answers hadm.1 ?_
    have hheap := h.heap
    rw [program, ← hheap, PoolM.wp, Program.wp_bind]
    refine h.ok.deleteRecord PoolMode.serves_succeeds (h.returned rid (hadm.2 rid rfl))
      fun deleted t hev hdel hchain htomb => ?_
    obtain ⟨hres, hst, hc⟩ := hdel
    have hlen := h.lists.length_erase rid
    refine ⟨[], t, rfl, rfl, hev, ⟨rfl, hchain, fun hsome => htomb (hres.trans hsome)⟩, ?_, ?_,
      fun i hi => absurd hi List.not_mem_nil⟩
    · rw [hst]
      exact h.lists.erase rid
    · rw [hc, hheap, h.count, table, hlen, ← hres]
      cases deleted
      · simp
      · simp [UInt32.ofNat_add]
  obtain ⟨_, t, ht, hext, ⟨rfl, hchain, htomb⟩, hlive, hreturned⟩ := hrun
  exact ⟨t, ht, hext, hchain, htomb, hlive, hreturned.trans (List.append_nil _)⟩

/-- **Deletion.** -/
theorem Sound.delete (h : Sound n m₀ st s) {rid : RID} (hadm : st.Admits (.delete rid)) :
    ∃ t, Sound n m₀ (st.step (.delete rid)) t ∧ s.Extends t ∧ t.chain = s.chain ∧
      ((s.stored rid).isSome → s.Tombstones t rid) := by
  obtain ⟨t, ht, hext, hchain, htomb, -⟩ := h.delete_answer hadm
  exact ⟨t, ht, hext, hchain, htomb⟩

/-- **The step lemma.** -/
theorem Sound.step (h : Sound n m₀ st s) {op : HeapOp} (hadm : st.Admits op) :
    ∃ t, Sound n m₀ (st.step op) t ∧ s.Extends t := by
  cases op with
  | insert a =>
    obtain ⟨t, ht, hext, -⟩ := h.insert hadm
    exact ⟨t, ht, hext⟩
  | delete rid =>
    obtain ⟨t, ht, hext, -⟩ := h.delete hadm
    exact ⟨t, ht, hext⟩
  | bulk records =>
    have hrun : ∃ t, Sound n m₀ (st.step (.bulk records)) t ∧ s.Extends t ∧ True := by
      refine h.run hadm.1 ?_
      rw [program, ← h.heap]
      refine h.ok.bulkInsert PoolMode.serves_succeeds (fun _ _ => PoolMode.creates_succeeds) records
        fun rids t hev hins _ => ?_
      obtain ⟨hlists, hcount⟩ := noteAll_spec hins h.lists (h.heap ▸ h.count)
      exact ⟨rids, t, rfl, rfl, hev, trivial, hlists, hcount, hins.mem_chain⟩
    obtain ⟨t, ht, hext, -⟩ := hrun
    exact ⟨t, ht, hext⟩

/-- A new heap file stands on its pool, and its table is empty. -/
theorem sound_start {b : BufferPoolManager} (hb : b.Idle m₀) (haside : b.HeaderAside)
    (hok : HeapFile.create.CallsOk BufferPoolManager.handle Succeeds b) :
    ∃ s, Sound b.poolSize m₀ (start b) s ∧ s.heap.pageCount = UInt32.ofNat s.chain.length := by
  have hwp : HeapFile.create.wp .succeeds (fun heap v => ∃ s : HeapState, heap = s.heap ∧
      v = View.quiet b.poolSize s.pages ∧ s.Ok ∧ s.chain.head? = some s.heap.firstPageId ∧
      (∀ id ∈ s.chain, m₀ id = none) ∧ (∀ id, id ∉ s.chain → s.pages id = m₀ id) ∧
      (s.stored = fun _ => none) ∧ s.heap.recordCount = 0 ∧
      s.heap.pageCount = 1 ∧ s.chain.length = 1) (View.quiet b.poolSize m₀) :=
    HeapState.create m₀ PoolMode.serves_succeeds PoolMode.creates_succeeds
      fun s h1 h2 h3 h4 h5 h6 h7 => ⟨s, rfl, rfl, h1, h2, h3, h4, h5, h6, h7⟩
  obtain ⟨v, ⟨s, hheap, rfl, hs, hfirst, hfresh, hframe, hst, hcount, hone, hlen⟩, hshows⟩ :=
    hb.shows.exec_succeeds hok hwp
  refine ⟨s, ⟨hs, hheap.symm, hfirst, hshows, haside.exec hb.shows hok hwp, hfresh, hframe, ?_, ?_,
    fun rid hrid => absurd hrid List.not_mem_nil⟩, by rw [hone, hlen]; rfl⟩
  · rw [hst]
    exact Listing.empty
  · change (HeapFile.create.exec b).1.recordCount = _
    rw [hheap, hcount]
    rfl

/-- There are fewer pages in a chain than page ids. -/
theorem Sound.chain_lt (h : Sound n m₀ st s) : s.chain.length < 2 ^ 32 := by
  have hsub : 0 :: s.chain ⊆ (List.range (2 ^ 32)).map UInt32.ofNat := fun id _ =>
    List.mem_map.mpr ⟨id.toNat, List.mem_range.mpr id.toNat_lt, UInt32.ofNat_toNat⟩
  have hnodup : (0 :: s.chain).Nodup :=
    List.nodup_cons.mpr ⟨fun hmem => (h.ok.ids 0 hmem).1 rfl, h.ok.nodup⟩
  have hle := (List.subperm_of_subset hnodup hsub).length_le
  rw [List.length_map, List.length_range] at hle
  exact hle

/-- **The run lemma.**  The counter of pages is the length of the chain. -/
theorem sound_run {b : BufferPoolManager} (hb : b.Idle m₀) (haside : b.HeaderAside)
    (hcreate : HeapFile.create.CallsOk BufferPoolManager.handle Succeeds b) {ops : List HeapOp}
    (hops : Run.StepsOk TableRun.step Admits (start b) ops) :
    ∃ s, Sound b.poolSize m₀ (ops.foldl TableRun.step (start b)) s ∧
      s.heap.pageCount = UInt32.ofNat s.chain.length := by
  refine Run.invariant_of_stepsOk (I := fun st => ∃ s, Sound b.poolSize m₀ st s ∧
    s.heap.pageCount = UInt32.ofNat s.chain.length) (fun st op ⟨s, hs, hcount⟩ hadm => ?_)
    (sound_start hb haside hcreate) hops
  obtain ⟨t, ht, hext⟩ := hs.step hadm
  refine ⟨t, ht, ?_⟩
  have hc := hext.counted
  rw [hcount] at hc
  grind

/-- Nobody finds a record in the header page of the file. -/
theorem readRecord_zero {b : BufferPoolManager} {v : View} (hs : b.Shows v)
    (h : b.HeaderAside) {rid : RID} (h0 : rid.pageId = 0) :
    ((HeapFile.readRecord rid).exec b).1 = none := by
  have hvalid : rid.isValid = true := by
    rw [RID.isValid, h0]
    decide
  rw [HeapFile.readRecord, HeapFile.getRecord, if_pos hvalid, h0]
  rw [PoolM.exec_bind, PoolM.exec_bind]
  by_cases hf : ((fetchPage 0).exec b).1 = true
  · have hnone := h.getRecord_zero hs.rep.wf hf rid.slotId
    rw [if_pos hf]
    simp only [PoolM.exec_bind, PoolM.exec_fetchPage, PoolM.exec_readPage, hnone,
      PoolM.exec_pure]
  · rw [if_neg hf]
    rfl

/-- A client that names no page of others reads what the heap file stores. -/
theorem readRecord_eq {b : BufferPoolManager} (hok : s.Ok) (hs : b.Shows (View.quiet n s.pages))
    (hn : 0 < n) (haside : b.HeaderAside) {rid : RID}
    (hrid : rid.pageId ∉ s.chain → s.pages rid.pageId = none) :
    ((HeapFile.readRecord rid).exec b).1 = s.stored rid := by
  by_cases h0 : rid.pageId = 0
  · have hno : s.stored rid = none := by
      rw [HeapState.stored, if_neg fun hmem => (hok.ids _ hmem).1 h0]
    rw [readRecord_zero hs haside h0, hno]
  · have hwp : (HeapFile.readRecord rid).wp .safe (fun r _ => r = s.stored rid)
        (View.quiet n s.pages) := hok.readRecord (PoolMode.serves_safe hn) hrid h0 rfl
    obtain ⟨-, _, hres, -⟩ := hs.exec_safe hwp
    exact hres

/-- A scan visits the records of any list of the table. -/
theorem contents_perm {live : List (RID × List UInt8)} (hok : s.Ok) (h : Listing live s.stored) :
    s.contents.Perm (live.map fun e => (e.1, some e.2)) := by
  refine (List.perm_ext_iff_of_nodup ?_ ?_).mpr fun e => ?_
  · exact List.Nodup.of_map _ (HeapState.contents_nodup hok)
  · refine (List.Nodup.of_map _ h.nodup).map fun e e' he => ?_
    exact Prod.ext (Prod.mk.inj he).1 (Option.some.inj (Prod.mk.inj he).2)
  · rw [HeapState.mem_contents, List.mem_map]
    constructor
    · rintro ⟨hst, hsome⟩
      obtain ⟨bytes, hbytes⟩ := Option.isSome_iff_exists.mp hsome
      exact ⟨(e.1, bytes), (h.mem_iff _ _).mpr (hst.trans hbytes), Prod.ext rfl hbytes.symm⟩
    · rintro ⟨e', hmem, rfl⟩
      exact ⟨(h.mem_iff _ _).mp hmem, rfl⟩

/-! ## 3. The theorem -/

/-- **The heap file is a faithful table of records with a complete scan.**  After any operations
whose pool calls succeed: `GetRecord` returns, for every record id that is not on a page
of others, what the table has under it; a scan ends and visits each record of the table once;
`DeleteRecord` accepts exactly the record ids in the table; and `GetRecordCount` is the number of
records modulo `2 ^ 32`. -/
theorem faithful_table {b : BufferPoolManager} {m₀ : PageId → Option Page} (hb : b.Idle m₀)
    (haside : b.HeaderAside)
    (hcreate : HeapFile.create.CallsOk BufferPoolManager.handle Succeeds b) {ops : List HeapOp}
    (hops : Run.StepsOk step Admits (start b) ops) :
    let st := ops.foldl step (start b)
    (∀ rid, m₀ rid.pageId = none →
      ((HeapFile.readRecord rid).exec st.pool).1 = st.live.lookup rid) ∧
    (∃ enough, ∀ fuel, enough < fuel → ∃ l, ((st.heap.scan fuel).exec st.pool).1 = some l ∧
      l.Perm (st.live.map fun e => (e.1, some e.2))) ∧
    (st.live.map Prod.fst).Nodup ∧
    (∀ rid ∈ st.returned,
      ((st.heap.deleteRecord rid).exec st.pool).1.1 = (st.live.lookup rid).isSome) ∧
    st.heap.getRecordCount.toNat = st.live.length % 2 ^ 32 := by
  intro st
  obtain ⟨s, hs, -⟩ := sound_run hb haside hcreate hops
  have hserve : PoolMode.safe.Serves b.poolSize 0 := PoolMode.serves_safe hb.size_pos
  refine ⟨fun rid hrid => ?_, ?_, hs.lists.nodup, fun rid hrid => ?_, ?_⟩
  · rw [hs.lists.lookup]
    exact readRecord_eq hs.ok hs.shows hb.size_pos hs.aside fun hno => by rw [hs.frame _ hno, hrid]
  · refine ⟨s.contents.length + s.chain.length, fun fuel hfuel => ?_⟩
    have hwp : (st.heap.scan fuel).wp .safe (fun r _ => r = some s.contents)
        (View.quiet b.poolSize s.pages) := by
      rw [← hs.heap]
      exact hs.ok.scan hserve hs.first hfuel rfl
    obtain ⟨-, _, hres, -⟩ := hs.shows.exec_safe hwp
    exact ⟨s.contents, hres, contents_perm hs.ok hs.lists⟩
  · have hwp : (st.heap.deleteRecord rid).wp .safe
        (fun r _ => r.1 = (s.stored rid).isSome) (View.quiet b.poolSize s.pages) := by
      rw [← hs.heap]
      exact hs.ok.deleteRecord hserve (hs.returned rid hrid) fun _ _ _ hdel _ _ => hdel.1
    obtain ⟨-, _, hres, -⟩ := hs.shows.exec_safe hwp
    rw [hres, hs.lists.lookup]
  · rw [HeapFile.getRecordCount, hs.count, UInt32.toNat_ofNat']

/-- Three records, of which the first one is deleted. -/
theorem faithful_table_deleted :
    let st := [HeapOp.insert (.data ⟨[7], by decide⟩),
      .bulk [.data ⟨[8, 9], by decide⟩, .null 3, .data ⟨[7], by decide⟩],
      .delete ⟨1, 0⟩].foldl step (start (overNewFile 3))
    ((HeapFile.readRecord ⟨1, 1⟩).exec st.pool).1 = st.live.lookup ⟨1, 1⟩ ∧
      ((st.heap.deleteRecord ⟨1, 0⟩).exec st.pool).1.1 = (st.live.lookup ⟨1, 0⟩).isSome ∧
      st.heap.getRecordCount.toNat = st.live.length % 2 ^ 32 := by
  have hops : Run.StepsOk step Admits (start (overNewFile 3)) [.insert (.data ⟨[7], by decide⟩),
      .bulk [.data ⟨[8, 9], by decide⟩, .null 3, .data ⟨[7], by decide⟩], .delete ⟨1, 0⟩] := by
    decide +kernel
  obtain ⟨hread, -, -, hdelete, hcount⟩ := faithful_table (idle_overNewFile (by decide))
    (headerAside_overNewFile 3) (by decide +kernel) hops
  exact ⟨hread _ rfl, hdelete _ (by decide +kernel), hcount⟩

end

end TableRun

end CourtDB
