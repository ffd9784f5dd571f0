/-
# Opening a heap file again

A second `HeapFile` on the first page of a chain walks the chain once.  It counts the pages, adds up
the record counts in the page headers and remembers the page without a link; the heap file that made
the chain kept the same numbers itself, step by step.  The directories of the two can differ, and so
do the places that they give to later records.

Record ids are therefore compared through names (`RecordName`): a record that was there when the
heap file was opened again has its old record id for a name, a later one the number of its
insertion. As long as nobody deletes through a record id that has passed on to another record, the
two heap files hold the same records under the same names (`reopened_agrees`).
-/
import CourtDB.Heap.BulkInsert
import CourtDB.Heap.PageChain
import Mathlib.Data.List.GetD

namespace CourtDB

/-! ## 1. The walk -/

/-- The header of a page counts its records. -/
theorem Page.Layout.getNumRecords_eq {p : Page} (h : p.Layout) :
    p.getNumRecords.toUInt32 = UInt32.ofNat (p.liveFrom 0).length := by
  have hlive := slotsInUse_eq h.slots_length
  rw [slotsInUse, List.take_of_length_le (Nat.le_of_eq h.slots_length), ← h.count] at hlive
  rw [← hlive]
  refine UInt32.toNat_inj.mp ?_
  have hlt : p.header.numRecords.toNat < 2 ^ 32 := lt_trans p.header.numRecords.toNat_lt (by decide)
  rw [UInt16.toNat_toUInt32, UInt32.toNat_ofNat_of_lt' hlt]
  rfl

namespace HeapState

open HeapFile PoolM

variable {mode : PoolMode} {n : Nat} {s : HeapState}

/-- What the walk over the pages `l` makes of a heap file. -/
structure Walks (s : HeapState) (l : List PageId) (heap heap' : HeapFile) : Prop where
  first : heap'.firstPageId = heap.firstPageId
  last : heap'.lastPageId = l.getLast?.getD heap.lastPageId
  records : heap'.recordCount = heap.recordCount + UInt32.ofNat (scanPages s.pages l).length
  pages : heap'.pageCount = heap.pageCount + UInt32.ofNat l.length
  listed : ∀ id ∈ heap'.pagesWithSpace, id ∈ heap.pagesWithSpace ∨ id ∈ l

/-- **The walk** follows the links to the end of the chain. -/
theorem Ok.walkChain (h : s.Ok) (hserve : mode.Serves n 0) {fuel : Nat} : ∀ {l : List PageId}
    {id : PageId} {heap : HeapFile}, Segment (linkOf s.pages) id l invalidPageId →
    (∀ i ∈ l, i ∈ s.chain) → l.length < fuel → ∀ {Q : Option HeapFile → View → Prop},
    (∀ heap', s.Walks l heap heap' → Q (some heap') (View.quiet n s.pages)) →
    (HeapFile.walkChain fuel heap id).wp mode Q (View.quiet n s.pages) := by
  induction fuel with
  | zero => exact fun _ _ hlt => absurd hlt (Nat.not_lt_zero _)
  | succ fuel ih =>
    intro l id heap hseg hl hlt Q hQ
    unfold HeapFile.walkChain
    cases l with
    | nil =>
      obtain rfl : id = invalidPageId := hseg
      rw [if_pos rfl]
      refine hQ heap ⟨rfl, rfl, ?_, ?_, fun _ hi => .inl hi⟩ <;> simp [scanPages]
    | cons i l =>
      obtain ⟨rfl, next, hnext, hrest⟩ := hseg
      have hid := hl id List.mem_cons_self
      obtain ⟨q, hq, hql⟩ := h.layout id hid
      have hlink : q.getNextPageId = next := by
        rw [linkOf, hq] at hnext
        exact Option.some.inj hnext
      -- the page is the last one if nothing follows it
      have hend : next = invalidPageId ↔ l = [] := by
        cases l with
        | nil => exact ⟨fun _ => rfl, fun _ => hrest⟩
        | cons j l =>
          have hj := (h.ids j (hl j (by simp))).2
          obtain rfl : next = j := hrest.1
          exact ⟨fun heq => absurd heq hj, fun heq => absurd heq (by simp)⟩
      rw [if_neg (h.ids id hid).2, wp, Program.wp_bind]
      refine wp_fetch_quiet hserve (h.ids id hid).1 hq ?_
      simp only [if_true]
      rw [Program.wp_bind]
      refine wp_read_held hq fun p hp => ?_
      rw [Program.wp_bind]
      refine wp_unpin_held (by simp) ?_
      have hpl : p.Layout := hp.symm.layout hql
      rw [hp.getNextPageId, hlink]
      refine ih hrest (fun j hj => hl j (List.mem_cons_of_mem _ hj)) (Nat.lt_of_succ_lt_succ hlt)
        fun heap' hw => hQ heap' ⟨hw.first, ?_, ?_, ?_, fun j hj => ?_⟩
      · -- the last page
        rw [hw.last]
        simp only [hend]
        cases l with
        | nil => rfl
        | cons j l => simp
      · -- the records on this page and on the following ones
        have hscan : scanPages s.pages (id :: l) = q.scanFrom id 0 ++ scanPages s.pages l := by
          rw [scanPages, List.flatMap_cons, hq]
          rfl
        rw [hw.records, hscan, List.length_append, Page.scanFrom, List.length_map,
          UInt32.ofNat_add, ← hp.liveFrom hpl, hpl.getNumRecords_eq]
        grind
      · -- the number of pages
        rw [hw.pages, List.length_cons, UInt32.ofNat_add]
        grind
      · -- a page is listed where it has room
        rcases hw.listed j hj with hj | hj
        · simp only [] at hj
          split at hj
          · rcases List.mem_append.mp hj with hj | hj
            · exact .inl hj
            · exact .inr (List.mem_singleton.mp hj ▸ List.mem_cons_self)
          · exact .inl hj
        · exact .inr (List.mem_cons_of_mem _ hj)

/-- **The constructor** on a heap file that exists. -/
theorem Ok.construct (h : s.Ok) (hserve : mode.Serves n 0)
    (hfirst : s.chain.head? = some s.heap.firstPageId) {fuel : Nat} (hfuel : s.chain.length < fuel)
    {Q : Option HeapFile → View → Prop}
    (hQ : ∀ heap, heap.firstPageId = s.heap.firstPageId → heap.lastPageId = s.heap.lastPageId →
      heap.recordCount = UInt32.ofNat s.contents.length →
      heap.pageCount = UInt32.ofNat s.chain.length →
      (∀ id ∈ heap.pagesWithSpace, id ∈ s.chain) → Q (some heap) (View.quiet n s.pages)) :
    (HeapFile.construct fuel s.heap.firstPageId).wp mode Q (View.quiet n s.pages) := by
  have hmem : s.heap.firstPageId ∈ s.chain := List.mem_of_mem_head? hfirst
  have hseg := h.linked
  rw [hfirst, Option.getD_some] at hseg
  unfold HeapFile.construct
  rw [if_neg (h.ids _ hmem).2]
  refine h.walkChain hserve hseg (fun _ hi => hi) hfuel fun heap hw => ?_
  refine hQ heap hw.first ?_ ?_ ?_ fun id hid => (hw.listed id hid).resolve_left List.not_mem_nil
  · rw [hw.last, ← h.last]
    cases hlast : s.chain.getLast? with
    | none =>
      rw [List.getLast?_eq_none_iff.mp hlast] at hmem
      exact absurd hmem List.not_mem_nil
    | some _ => rfl
  · rw [hw.records]
    exact UInt32.zero_add _
  · rw [hw.pages]
    exact UInt32.zero_add _

end HeapState

namespace TableRun

open BufferPoolManager HeapState

variable {n : Nat} {m₀ : PageId → Option Page} {st : TableRun} {s : HeapState}

/-- A scan, once there is fuel for it. -/
theorem Sound.scan_eq (h : Sound n m₀ st s) (hn : 0 < n) {fuel : Nat}
    (hfuel : s.contents.length + s.chain.length < fuel) :
    ((st.heap.scan fuel).exec st.pool).1 = some s.contents := by
  have hwp : (st.heap.scan fuel).wp .safe (fun r _ => r = some s.contents)
      (View.quiet n s.pages) := by
    rw [← h.heap]
    exact h.ok.scan (PoolMode.serves_safe hn) h.first hfuel rfl
  obtain ⟨-, _, hres, -⟩ := h.shows.exec_safe hwp
  exact hres

/-- **The heap file is opened again**: the new one stands where the old one stood. -/
theorem Sound.reopen (h : Sound n m₀ st s) (hn : 0 < n) {fuel : Nat}
    (hfuel : s.chain.length < fuel) :
    ∃ heap pool, (HeapFile.construct fuel st.heap.getFirstPageId).exec st.pool = (some heap, pool) ∧
      Sound n m₀ { st with pool := pool, heap := heap } { s with heap := heap } ∧
      heap.recordCount = st.heap.recordCount ∧ heap.lastPageId = st.heap.lastPageId ∧
      heap.pageCount = UInt32.ofNat s.chain.length := by
  have hwp : ∀ {mode : PoolMode}, mode.Serves n 0 →
      (HeapFile.construct fuel st.heap.getFirstPageId).wp mode (fun res v =>
      v = View.quiet n s.pages ∧ ∃ heap : HeapFile, res = some heap ∧
      heap.firstPageId = s.heap.firstPageId ∧ heap.lastPageId = s.heap.lastPageId ∧
      heap.recordCount = UInt32.ofNat s.contents.length ∧
      heap.pageCount = UInt32.ofNat s.chain.length ∧ ∀ id ∈ heap.pagesWithSpace, id ∈ s.chain)
      (View.quiet n s.pages) := by
    intro mode hserve
    rw [HeapFile.getFirstPageId, ← h.heap]
    exact h.ok.construct hserve h.first hfuel
      fun heap h1 h2 h3 h4 h5 => ⟨rfl, heap, rfl, h1, h2, h3, h4, h5⟩
  obtain ⟨hsafe, _, ⟨rfl, heap, hres, h1, h2, h3, h4, h5⟩, hshows⟩ :=
    h.shows.exec_safe (hwp (PoolMode.serves_safe hn))
  have haside := h.aside.exec h.shows hsafe (hwp PoolMode.serves_succeeds)
  have hlen := (contents_perm h.ok h.lists).length_eq
  rw [List.length_map] at hlen
  have hev := h.ok.withHeap heap h1 h2 h5
  refine ⟨heap, _, Prod.ext hres rfl,
    ⟨hev.ok, rfl, h.first.trans (congrArg some h1.symm), hshows, haside,
    h.fresh, h.frame, h.lists, h3.trans (by rw [hlen]), h.returned⟩, ?_, ?_, h4⟩
  · rw [h3, hlen, h.count]
  · rw [h2, h.heap]

end TableRun

/-! ## 2. Records by name -/

/-- How callers name a record: by the record id it had when the heap file was opened again, or as
the `i`-th insertion since then. -/
inductive RecordName
  | old (rid : RID)
  | new (i : Nat)
deriving DecidableEq

inductive FurtherOp
  | insert (a : RecordArg)
  | delete (name : RecordName)

/-- The records under their names, and the number of insertions. -/
structure NamedTable where
  records : List (RecordName × List UInt8)
  inserted : Nat := 0

namespace NamedTable

def names (T : NamedTable) : List RecordName := T.records.map Prod.fst

/-- What an operation does, whatever the record ids are. -/
def step (T : NamedTable) : FurtherOp → NamedTable
  | .insert a => ⟨if a.fitsPage then (.new T.inserted, a.bytes) :: T.records else T.records,
      T.inserted + 1⟩
  | .delete name => ⟨T.records.filter fun e => decide (e.1 ≠ name), T.inserted⟩

end NamedTable

/-- A heap file that goes on, with the record ids of its further insertions. -/
structure Continued where
  run : TableRun
  answers : List RID := []
  named : NamedTable

namespace Continued

open HeapState

/-- The record id behind a name. -/
def ridOf (c : Continued) : RecordName → RID
  | .old rid => rid
  | .new i => c.answers.getD i {}

/-- The call behind an operation. -/
def call (c : Continued) : FurtherOp → HeapOp
  | .insert a => .insert a
  | .delete name => .delete (c.ridOf name)

/-- One operation. -/
def step (c : Continued) (op : FurtherOp) : Continued :=
  let run := c.run.step (c.call op)
  ⟨run, c.answers ++ run.returned.drop c.run.returned.length, c.named.step op⟩

/-- The records that are there keep their record ids for names. -/
def start (st : TableRun) : Continued :=
  { run := st, named := ⟨st.live.map fun e => (.old e.1, e.2), 0⟩ }

/-- The name is that of a record, or its record id leads to none. -/
def NotReused (c : Continued) (name : RecordName) : Prop :=
  name ∈ c.named.names ∨ c.run.live.lookup (c.ridOf name) = none

instance (c : Continued) : DecidablePred c.NotReused :=
  fun _ => inferInstanceAs (Decidable (_ ∨ _))

/-- The calls succeed, and a deletion does not meet a record that has taken the place of the one it
names. -/
def Meets (c : Continued) (op : FurtherOp) : Prop :=
  c.run.Admits (c.call op) ∧ ∀ name, op = .delete name → c.NotReused name

instance (c : Continued) : DecidablePred c.Meets
  | .insert a => decidable_of_iff (c.run.Admits (.insert a))
      (iff_self_and.mpr fun _ _ he => absurd he (by simp))
  | .delete name => decidable_of_iff (c.run.Admits (.delete (c.ridOf name)) ∧ c.NotReused name) <|
      and_congr_right fun _ =>
        ⟨fun h _ he => FurtherOp.delete.inj he ▸ h, fun h => h name rfl⟩

/-- A client that reads and scans the heap file finds the table: each record under its name, and no
others. -/
structure Holds (c : Continued) : Prop where
  read : ∀ e ∈ c.named.records,
    ((HeapFile.readRecord (c.ridOf e.1)).exec c.run.pool).1 = some e.2
  scan : ∃ enough, ∀ fuel, enough < fuel → ∃ l,
    ((c.run.heap.scan fuel).exec c.run.pool).1 = some l ∧
      l.Perm (c.named.records.map fun e => (c.ridOf e.1, some e.2))
  count : c.run.heap.getRecordCount.toNat = c.named.records.length % 2 ^ 32

/-- The heap file stores the table. -/
structure Follows (n : Nat) (m₀ : PageId → Option Page) (c : Continued) (s : HeapState) : Prop where
  sound : TableRun.Sound n m₀ c.run s
  inserted : c.answers.length = c.named.inserted
  live : c.run.live = c.named.records.map fun e => (c.ridOf e.1, e.2)
  before : ∀ i, .new i ∈ c.named.names → i < c.answers.length

variable {n : Nat} {m₀ : PageId → Option Page} {c : Continued} {s : HeapState}

theorem follows_start {st : TableRun} (h : TableRun.Sound n m₀ st s) :
    Follows n m₀ (start st) s where
  sound := h
  inserted := rfl
  live := by
    simp only [start, List.map_map]
    exact (List.map_id _).symm
  before i hmem := by simp [start, NamedTable.names] at hmem

/-- Another answer does not change what the names mean. -/
theorem Follows.ridOf_append (h : Follows n m₀ c s) {c' : Continued} {rids : List RID}
    (hc : c'.answers = c.answers ++ rids) {name : RecordName} (hname : name ∈ c.named.names) :
    c'.ridOf name = c.ridOf name := by
  cases name with
  | old rid => rfl
  | new i => rw [ridOf, ridOf, hc, List.getD_append _ _ _ _ (h.before i hname)]

/-- **Different records have different record ids.** -/
theorem Follows.ridOf_inj (h : Follows n m₀ c s) {name name' : RecordName}
    (hname : name ∈ c.named.names) (hname' : name' ∈ c.named.names)
    (heq : c.ridOf name = c.ridOf name') : name = name' := by
  have hnodup := h.sound.lists.nodup
  rw [h.live, List.map_map] at hnodup
  have hnodup' : (c.named.names.map c.ridOf).Nodup := by
    rw [NamedTable.names, List.map_map]
    exact hnodup
  exact List.inj_on_of_nodup_map hnodup' hname hname' heq

/-- **Insertion.** -/
theorem Follows.insert (h : Follows n m₀ c s) {a : RecordArg} (hmeets : c.Meets (.insert a)) :
    ∃ t, Follows n m₀ (c.step (.insert a)) t := by
  obtain ⟨rid, t, ht, -, hins, hsea, hlive, hreturned⟩ := h.sound.insert_answer hmeets.1
  have hvalid := hins.isValid_eq hsea.fit
  have hanswers : (c.step (.insert a)).answers = c.answers ++ [rid] := by
    change c.answers ++ (c.run.step (.insert a)).returned.drop _ = _
    rw [hreturned, List.drop_left]
  have hnew : (c.step (.insert a)).ridOf (.new c.named.inserted) = rid := by
    rw [ridOf, hanswers, ← h.inserted, List.getD_append_right _ _ _ _ (Nat.le_refl _), Nat.sub_self]
    rfl
  have hkept : (c.named.records.map fun e => ((c.step (.insert a)).ridOf e.1, e.2))
      = c.named.records.map fun e => (c.ridOf e.1, e.2) :=
    List.map_congr_left fun e he => by
      rw [h.ridOf_append hanswers (List.mem_map_of_mem he)]
  refine ⟨t, ht, ?_, ?_, fun i hi => ?_⟩
  · rw [hanswers, List.length_append, h.inserted]
    rfl
  · change (c.run.step (.insert a)).live = _
    rw [hlive, TableRun.note, hvalid, h.live]
    change _ = (if a.fitsPage then (RecordName.new c.named.inserted, a.bytes) :: c.named.records
      else c.named.records).map _
    split
    · rw [List.map_cons, hkept, hnew]
    · rw [hkept]
  · rw [hanswers, List.length_append]
    have hnames : RecordName.new i ∈ c.named.names ∨ i = c.named.inserted := by
      simp only [step, NamedTable.step, NamedTable.names] at hi
      split at hi
      · rcases List.mem_cons.mp hi with hi | hi
        · exact .inr (RecordName.new.inj hi)
        · exact .inl hi
      · exact .inl hi
    rcases hnames with hold | hself
    · exact Nat.lt_add_right _ (h.before i hold)
    · rw [hself, h.inserted]
      exact Nat.lt_succ_self _

/-- **Deletion** of a record, or of one that is gone and has left its record id free. -/
theorem Follows.delete (h : Follows n m₀ c s) {name : RecordName}
    (hmeets : c.Meets (.delete name)) : ∃ t, Follows n m₀ (c.step (.delete name)) t := by
  obtain ⟨t, ht, -, -, -, hlive, hreturned⟩ := h.sound.delete_answer hmeets.1
  have hanswers : (c.step (.delete name)).answers = c.answers := by
    change c.answers ++ (c.run.step (.delete (c.ridOf name))).returned.drop _ = _
    rw [hreturned, List.drop_length, List.append_nil]
  have hrid : ∀ name', (c.step (.delete name)).ridOf name' = c.ridOf name' := by
    intro name'
    cases name' with
    | old rid => rfl
    | new i => rw [ridOf, ridOf, hanswers]
  have hsame : ∀ e ∈ c.named.records, (c.ridOf e.1 ≠ c.ridOf name ↔ e.1 ≠ name) := by
    intro e he
    have hname : e.1 ∈ c.named.names := List.mem_map_of_mem he
    refine not_congr ⟨fun heq => ?_, fun heq => by rw [heq]⟩
    rcases hmeets.2 name rfl with hmem | hnone
    · exact h.ridOf_inj hname hmem heq
    · -- the record id of `e` leads to `e`
      have hin : (c.ridOf e.1, e.2) ∈ c.run.live := by
        rw [h.live]
        exact List.mem_map_of_mem (f := fun e => (c.ridOf e.1, e.2)) he
      rw [h.sound.lists.lookup, ← heq, (h.sound.lists.mem_iff _ _).mp hin] at hnone
      exact absurd hnone (by simp)
  refine ⟨t, ht, ?_, ?_, fun i hi => ?_⟩
  · rw [hanswers, h.inserted]
    rfl
  · change (c.run.step (.delete (c.ridOf name))).live
      = (c.named.records.filter fun e => decide (e.1 ≠ name)).map _
    rw [hlive, h.live, List.filter_map]
    simp only [hrid]
    refine congrArg _ (List.filter_congr fun e he => ?_)
    exact decide_eq_decide.mpr (hsame e he)
  · rw [hanswers]
    refine h.before i ?_
    obtain ⟨e, he, hei⟩ := List.mem_map.mp hi
    exact List.mem_map.mpr ⟨e, (List.mem_filter.mp he).1, hei⟩

/-- **The run lemma.** -/
theorem Follows.run (h : Follows n m₀ c s) {ops : List FurtherOp}
    (hops : Run.StepsOk step Meets c ops) : ∃ t, Follows n m₀ (ops.foldl step c) t := by
  refine Run.invariant_of_stepsOk (I := fun c => ∃ t, Follows n m₀ c t)
    (fun c op ⟨t, ht⟩ hmeets => ?_) ⟨s, h⟩ hops
  cases op with
  | insert a => exact ht.insert hmeets
  | delete name => exact ht.delete hmeets

/-- A heap file that stores the table shows it. -/
theorem Follows.holds (h : Follows n m₀ c s) (hn : 0 < n) : c.Holds where
  read e he := by
    have hin : (c.ridOf e.1, e.2) ∈ c.run.live := by
      rw [h.live]
      exact List.mem_map_of_mem (f := fun e => (c.ridOf e.1, e.2)) he
    have hst := (h.sound.lists.mem_iff _ _).mp hin
    have hmem := mem_chain_of_stored (Option.isSome_of_eq_some hst)
    rw [TableRun.readRecord_eq h.sound.ok h.sound.shows hn h.sound.aside
      fun hno => absurd hmem hno, hst]
  scan := by
    have hperm := TableRun.contents_perm h.sound.ok h.sound.lists
    rw [h.live, List.map_map] at hperm
    exact ⟨_, fun fuel hfuel => ⟨s.contents, h.sound.scan_eq hn hfuel, hperm⟩⟩
  count := by
    rw [HeapFile.getRecordCount, h.sound.count, UInt32.toNat_ofNat', h.live, List.length_map]

/-- What the callers expect depends on what they do, not on the heap file. -/
theorem named_foldl (c : Continued) (ops : List FurtherOp) :
    (ops.foldl step c).named = ops.foldl NamedTable.step c.named := by
  induction ops generalizing c with
  | nil => rfl
  | cons op ops ih => exact ih (c.step op)

end Continued

/-! ## 3. The theorem -/

namespace TableRun

open BufferPoolManager HeapState

variable {m₀ : PageId → Option Page}

/-- The same callers on a second heap file object. -/
def reopened (st : TableRun) (fuel : Nat) : Option TableRun :=
  match (HeapFile.construct fuel st.heap.getFirstPageId).exec st.pool with
  | (some heap, pool) => some { st with pool := pool, heap := heap }
  | (none, _) => none

/-- **A heap file that is opened again is the same.**  In every state that the operations reach the
walk of the constructor ends, after as many pages as were counted, and gives the record count, the
page count, the last page and the scan of the heap file that is there.  Further operations leave
both with the same records under the same names, which reads and scans show, if no deletion meets a
record that took the place of the one it names. -/
theorem reopened_agrees {b : BufferPoolManager} (hb : b.Idle m₀) (haside : b.HeaderAside)
    (hcreate : HeapFile.create.CallsOk BufferPoolManager.handle Succeeds b) {ops : List HeapOp}
    (hops : Run.StepsOk step Admits (start b) ops) {fuel : Nat}
    (hfuel : (ops.foldl step (start b)).heap.getPageCount.toNat < fuel) :
    let st := ops.foldl step (start b)
    ∃ st', st.reopened fuel = some st' ∧
      st'.heap.getRecordCount = st.heap.getRecordCount ∧
      st'.heap.getPageCount = st.heap.getPageCount ∧
      st'.heap.lastPageId = st.heap.lastPageId ∧
      (∃ enough l, ∀ fuel, enough < fuel → ((st'.heap.scan fuel).exec st'.pool).1 = some l ∧
        ((st.heap.scan fuel).exec st.pool).1 = some l) ∧
      ∀ further, Run.StepsOk Continued.step Continued.Meets (.start st) further →
        Run.StepsOk Continued.step Continued.Meets (.start st') further →
        let c := further.foldl Continued.step (.start st)
        let c' := further.foldl Continued.step (.start st')
        c.named = c'.named ∧ c.Holds ∧ c'.Holds := by
  intro st
  obtain ⟨s, hs, hcount⟩ := sound_run hb haside hcreate hops
  have hn : 0 < b.poolSize := hb.size_pos
  rw [HeapFile.getPageCount, ← hs.heap, hcount, UInt32.toNat_ofNat_of_lt' hs.chain_lt] at hfuel
  obtain ⟨heap, pool, hopen, hs', hrecords, hlast, hpages⟩ := hs.reopen hn hfuel
  refine ⟨{ st with pool := pool, heap := heap }, by rw [reopened, hopen], hrecords, ?_, hlast, ?_,
    fun further hops hops' => ?_⟩
  · rw [HeapFile.getPageCount, HeapFile.getPageCount, hpages, ← hs.heap, hcount]
  · exact ⟨_, s.contents, fun fuel hfuel => ⟨hs'.scan_eq hn hfuel, hs.scan_eq hn hfuel⟩⟩
  · obtain ⟨t, ht⟩ := (Continued.follows_start hs).run hops
    obtain ⟨t', ht'⟩ := (Continued.follows_start hs').run hops'
    refine ⟨?_, ht.holds hn, ht'.holds hn⟩
    rw [Continued.named_foldl, Continued.named_foldl]
    rfl

/-- Two pages, of which the directory lists the second.  After the heap file was opened again, the
first record is deleted, and a further one inserted and deleted. -/
theorem reopened_agrees_twoPages :
    let st := [HeapOp.insert (.data ⟨[7], by decide⟩),
      .insert (.data (Page.recordOfLength 4060 (by decide)))].foldl step (start (overNewFile 3))
    let further := [FurtherOp.delete (.old ⟨1, 0⟩), .insert (.data ⟨[8, 9], by decide⟩),
      .delete (.new 0)]
    ∃ st', st.reopened 3 = some st' ∧
      let c := further.foldl Continued.step (.start st)
      let c' := further.foldl Continued.step (.start st')
      c.named = c'.named ∧ c.Holds ∧ c'.Holds := by
  intro st further
  obtain ⟨st', hopen, -, -, -, -, hfurther⟩ := @reopened_agrees _ _ (idle_overNewFile (by decide))
    (headerAside_overNewFile 3) (by decide +kernel)
    [.insert (.data ⟨[7], by decide⟩), .insert (.data (Page.recordOfLength 4060 (by decide)))]
    (by decide +kernel) 3 (by decide +kernel)
  have hok : ∀ st' ∈ st.reopened 3,
      Run.StepsOk Continued.step Continued.Meets (.start st') further := by decide +kernel
  exact ⟨st', hopen, hfurther further (by decide +kernel) (hok st' hopen)⟩

/-- The heap file that was opened again puts the new record in the place of the deleted one, and a
second deletion through the old record id deletes it; in the other heap file it is still there. -/
theorem reopened_differs :
    ∃ ops further : List HeapOp, Run.StepsOk step Admits (start (overNewFile 3)) ops ∧
      let st := ops.foldl step (start (overNewFile 3))
      Run.StepsOk step Admits st further ∧
      ∃ st' ∈ st.reopened 3, Run.StepsOk step Admits st' further ∧
        let t := further.foldl step st
        let t' := further.foldl step st'
        ((t.heap.scan 9).exec t.pool).1.map List.length = some 2 ∧
          ((t'.heap.scan 9).exec t'.pool).1.map List.length = some 1 :=
  ⟨[.insert (.data (Page.recordOfLength 100 (by decide))),
      .insert (.data (Page.recordOfLength 4000 (by decide)))],
    [.delete ⟨1, 0⟩, .insert (.data ⟨[7], by decide⟩), .delete ⟨1, 0⟩],
    by decide +kernel, by decide +kernel, by decide +kernel⟩

end TableRun

end CourtDB
