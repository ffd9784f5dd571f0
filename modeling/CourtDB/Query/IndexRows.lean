/-
# Index scans as lists

An `IndexScanExecutor` hands out, for the entries that the tree found, the records that the heap
file still stores under their record ids, in the order of the entries (`IndexScan.produces`).  An
entry whose record was deleted is passed over.  It needs one frame that no client has pinned.

`Init` asks the tree once, and keeps the record ids.  `Next` reads one record for each call, and
goes on to the next record id when there is none: a record that was deleted after the entry was made
is not an error.  So the rows are a function of the entries and of the table, `rowsOf`, and the scan
is that list.

Clients may hold pages of their own during the scan.  What the scan does in a quiet view, where
nobody holds a page, it does beside them too, as long as one frame is left: it only reads, and holds
one page at a time (`exec_reading`).
-/
import CourtDB.Heap.HeapPins
import CourtDB.Index.TreePins
import CourtDB.Query.PlanRows
import CourtDB.Shared.SharedPool

namespace CourtDB

open BufferPoolManager HeapState

/-! ## 1. Reading beside the pages of others

The frames that are pinned by others are at most as many as the pages they hold, so with one frame
more a fetch does not fail. -/

section Among

variable {n : Nat} {m : PageId → Option Page} {held : List PageId} {b : BufferPoolManager}

/-- A frame is left for a client that has no page, if fewer pages are held than there are frames. -/
theorem View.not_exhausted_of_held (hheld : held.dedup.length < n) {w : View}
    (hframes : w.frames = n)
    (hpins : ∀ id, w.pins id = held.count id) : ¬ w.Exhausted := by
  rintro ⟨ids, hnodup, hlen, hpinned⟩
  have hsub : ids ⊆ held.dedup := fun id hid => by
    have hpos := hpinned id hid
    rw [hpins] at hpos
    exact List.mem_dedup.mpr (List.count_pos_iff.mp hpos)
  have hle := (hnodup.subperm hsub).length_le
  omega

/-- **A program that only reads, one page at a time**, does on a pool with a frame left what it does
in a quiet view. -/
theorem BufferPoolManager.Shows.exec_reading {α : Type} {p : PoolM α} {T : α → List PageId → Prop}
    {Q : α → Prop} (hb : b.Shows (View.among n m held)) (honly : p.Only PoolCall.Reads)
    (hT : p.Tidy 1 T []) (hheld : held.dedup.length < n) (hcount : held.length + 1 < 2 ^ 32)
    (hwp : p.wp .succeeds (fun a v => Q a ∧ v = View.quiet n m) (View.quiet n m)) :
    Q (p.exec b).1 ∧ (p.exec b).2.Shows (View.among n m held) := by
  have hbase : ∀ id, held.count id + 1 < 2 ^ 32 := fun id =>
    Nat.lt_of_le_of_lt (Nat.add_le_add_right List.count_le_length 1) hcount
  have hserve : ∀ own : List PageId, own.length < 1 → ∀ w : View, w.frames = n →
      (∀ id, w.pins id = own.count id) → PoolMode.frames.Willing
        (w.beside fun id => held.count id) := by
    intro own hown w hframes hpins
    rw [Nat.lt_one_iff, List.length_eq_zero_iff] at hown
    subst hown
    refine PoolMode.willing_frames (View.not_exhausted_of_held hheld hframes fun id => ?_)
    change w.pins id + held.count id = held.count id
    rw [hpins, List.count_nil, Nat.zero_add]
  have hkeeps := PoolM.wp_keepsTo_of_tidy hT hwp (fun _ => rfl) hbase hserve
  rw [← List.nil_append held, ← View.among_beside, View.among_nil] at hb
  obtain ⟨w, ⟨v', ⟨⟨hQ, rfl⟩, -⟩, rfl⟩, hshows, -⟩ :=
    hb.exec_reads (fun _ hex => hex) honly (PoolM.wp_beside hkeeps)
  rw [← View.among_nil, View.among_beside, List.nil_append] at hshows
  exact ⟨hQ, hshows⟩

end Among

/-! ## 2. The records of the entries -/

namespace IndexScan

variable {n fuel : Nat} {s : HeapState} {results : List (KeyType × RID)} {index : BPlusTree}
  {lowKey highKey : KeyType} {isRange : Bool}

/-- The records that the heap file has for the entries. -/
def rowsOf (s : HeapState) (results : List (KeyType × RID)) : List Tuple :=
  results.filterMap fun e => (s.stored e.2).bind tupleOf

theorem tidy_fetchNext (results : List (KeyType × RID)) (idx : Nat) :
    (fetchNext results idx).Tidy 1 (fun _ _ => True) [] := by
  induction results generalizing idx with
  | nil => trivial
  | cons e rest ih =>
    unfold fetchNext
    rw [PoolM.Tidy, Program.wp_bind]
    refine Program.wp_mono (HeapFile.tidy_getRecord e.2 Nat.zero_lt_one) fun data held hheld => ?_
    cases data with
    | none =>
      obtain rfl : held = [] := hheld
      exact ih _
    | some data =>
      obtain rfl : held = [e.2.pageId] := hheld
      simp only []
      split
      · rw [Program.wp_bind]
        exact PoolM.tidy_unpinPage fun _ => trivial
      · trivial

/-- **The loop of Next** finds the first entry that has a record, and stops behind it. -/
theorem fetchNext_spec (hs : s.Ok) (hreadable : s.Readable)
    (hrids : ∀ e ∈ results, e.2.isValid = true → e.2.pageId ∈ s.chain) (idx : Nat) :
    (fetchNext results idx).wp .succeeds (fun r v => (∃ tuple rest, rest <:+ results ∧
      r = some (tuple, idx + (results.length - rest.length)) ∧
      rowsOf s results = tuple.toList ++ rowsOf s rest ∧ (tuple = none → rest = [])) ∧
      v = View.quiet n s.pages) (View.quiet n s.pages) := by
  induction results generalizing idx with
  | nil => exact ⟨⟨none, [], List.suffix_rfl, rfl, rfl, fun _ => rfl⟩, rfl⟩
  | cons e rest ih =>
    obtain ⟨hrid, hrest⟩ := List.forall_mem_cons.mp hrids
    unfold fetchNext
    rw [PoolM.wp, Program.wp_bind]
    refine SharedPool.getRecord_spec hs hrid ?_
    cases hstored : s.stored e.2 with
    | none =>
      refine Program.wp_mono (ih hrest (idx + 1)) fun r v hr => ?_
      obtain ⟨⟨tuple, left, hsuffix, hr, hrows, hend⟩, hv⟩ := hr
      refine ⟨⟨tuple, left, hsuffix.trans (List.suffix_cons _ _), ?_, ?_, hend⟩, hv⟩
      · have hle := hsuffix.length_le
        rw [hr, List.length_cons, Nat.sub_add_comm hle]
        congr 2
        omega
      · rw [rowsOf, List.filterMap_cons_none (by rw [hstored]; rfl)]
        exact hrows
    | some data =>
      obtain ⟨tuple, htuple⟩ := Option.isSome_iff_exists.mp (hreadable _ _ hstored)
      rw [Option.isSome_some, if_pos rfl, View.among_singleton, View.quiet_pin]
      simp only [htuple]
      rw [Program.wp_bind]
      refine PoolM.wp_unpin_held (by simp)
        ⟨⟨some tuple, rest, List.suffix_cons _ _, ?_, ?_, ?_⟩, rfl⟩
      · rw [List.length_cons, Nat.add_sub_cancel_left]
      · have hbind : (s.stored e.2).bind tupleOf = some tuple := by rw [hstored]; exact htuple
        exact List.filterMap_cons_some hbind
      · exact fun hnone => absurd hnone (by simp)

/-- The scan has the entries `rest` left, on a pool whose clients hold the pages `held`. -/
structure Left (n : Nat) (s : HeapState) (held : List PageId) (rest : List (KeyType × RID))
    (state : IndexScan) : Prop where
  entries : state.results.drop state.currentIdx = rest
  rids : ∀ e ∈ rest, e.2.isValid = true → e.2.pageId ∈ s.chain
  shows : state.bpm.Shows (View.among n s.pages held)

section Next

variable {held : List PageId} {rest : List (KeyType × RID)} {state : IndexScan} (hs : s.Ok)
  (hreadable : s.Readable) (hheld : held.dedup.length < n) (hcount : held.length + 1 < 2 ^ 32)

include hs hreadable hheld hcount

/-- **Next.** -/
theorem next_spec (h : Left n s held rest state) (output : Tuple) :
    ∃ (tuple : Option Tuple) (rest' : List (KeyType × RID)) (state' : IndexScan),
      (IndexScanExecutor fuel index lowKey highKey isRange).next state output
        = some (tuple.isSome, tuple.getD output, state') ∧
      Left n s held rest' state' ∧ rowsOf s rest = tuple.toList ++ rowsOf s rest' ∧
      (tuple = none → rest' = []) := by
  obtain ⟨⟨tuple, rest', hsuffix, hr, hrows, hend⟩, hshows⟩ :=
    h.shows.exec_reading (reads_fetchNext rest state.currentIdx)
      (tidy_fetchNext rest state.currentIdx)
      hheld hcount (fetchNext_spec hs hreadable h.rids state.currentIdx)
  refine ⟨tuple, rest', { state with
    currentIdx := state.currentIdx + (rest.length - rest'.length)
    bpm := ((fetchNext rest state.currentIdx).exec state.bpm).2 }, ?_, ⟨?_, ?_, hshows⟩,
      hrows, hend⟩
  · simp only [IndexScanExecutor, h.entries, hr]
    cases tuple <;> rfl
  · rw [← List.drop_drop, h.entries]
    exact (List.suffix_iff_eq_drop.mp hsuffix).symm
  · exact fun e he => h.rids e (hsuffix.subset he)

/-- **The entries that are left**: Next hands out their records, and then nothing more. -/
theorem fills {rows : List Tuple} :
    ∀ {rest : List (KeyType × RID)} {state :
      (IndexScanExecutor fuel index lowKey highKey isRange).State},
      Left n s held rest state → rowsOf s rest = rows →
        (IndexScanExecutor fuel index lowKey highKey isRange).Fills
        (rows.map fun x _ => x) state := by
  induction rows with
  | nil =>
    intro rest state h hrows
    refine ⟨fun other => ∃ rest, Left n s held rest other ∧ rowsOf s rest = [],
      ⟨rest, h, hrows⟩, ?_⟩
    rintro other ⟨rest, h, hrows⟩ output
    obtain ⟨tuple, rest', state', hnext, h', hsplit, -⟩ :=
      next_spec hs hreadable hheld hcount h output
    obtain ⟨htuple, hrows'⟩ := List.append_eq_nil_iff.mp (hsplit.symm.trans hrows)
    obtain rfl : tuple = none := Option.toList_eq_nil_iff.mp htuple
    exact ⟨output, state', hnext, rest', h', hrows'⟩
  | cons x rows ih =>
    intro rest state h hrows output
    obtain ⟨tuple, rest', state', hnext, h', hsplit, hend⟩ :=
      next_spec hs hreadable hheld hcount h output
    rw [hrows] at hsplit
    cases tuple with
    | none =>
      rw [hend rfl] at hsplit
      exact absurd hsplit (by simp [rowsOf])
    | some y =>
      obtain ⟨rfl, hrows'⟩ := List.cons_eq_cons.mp hsplit
      exact ⟨state', hnext, ih h' hrows'.symm⟩

end Next

/-! ## 3. Init

A lookup of one key has no order to promise; a range scan gives its entries in the order of their
keys. -/

variable {k : Nat} {t : TreeState} {pairs : List (KeyType × RID)} {held : List PageId}

/-- The entries that `Init` asks for. -/
def wanted (lowKey highKey : KeyType) (isRange : Bool) (e : KeyType × RID) : Bool :=
  if isRange then inRange lowKey highKey e else e.1 = lowKey

theorem tidy_find : (find fuel index lowKey highKey isRange).Tidy 1 (fun _ _ => True) [] := by
  unfold find
  split
  · exact Program.wp_mono (BPlusTree.settles_rangeScan fuel index lowKey highKey 1 [] (by simp))
      fun _ _ _ => trivial
  · rw [PoolM.Tidy, Program.wp_bind]
    exact Program.wp_mono (BPlusTree.settles_lookup fuel index lowKey 1 [] (by simp))
      fun _ _ _ => trivial

theorem map_key (key : KeyType) (l : List (KeyType × RID)) :
    ((l.filter fun e => e.1 = key).map Prod.snd).map (fun rid => (key, rid))
      = l.filter fun e => e.1 = key := by
  rw [List.map_map]
  refine (List.map_congr_left fun e he => ?_).trans (List.map_id _)
  exact Prod.ext (of_decide_eq_true (List.mem_filter.mp he).2).symm rfl

/-- **What Init finds**: the entries of the tree that are asked for, for a range in the order of
their keys. -/
theorem find_spec {m : PageId → Option Page} (h : SharedPool.TreeFaithful k m t index pairs)
    (hk : k < fuel) (lowKey highKey : KeyType) (isRange : Bool) :
    (find fuel index lowKey highKey isRange).wp .succeeds (fun r v => (∃ found, r = some found ∧
      found.Perm (pairs.filter (wanted lowKey highKey isRange)) ∧ SortedEntries found) ∧
        v = View.quiet n m) (View.quiet n m) := by
  have hfuel : t.height < fuel ∧ t.chain.length ≤ fuel :=
    ⟨lt_of_le_of_lt h.height_le hk, h.chain_le.trans hk.le⟩
  rw [find, h.tree]
  cases isRange with
  | true =>
    rw [if_pos rfl]
    refine h.ok.rangeScan h.order h.holds PoolMode.serves_succeeds hfuel fun hsorted =>
      ⟨⟨_, rfl, ?_, ?_⟩, rfl⟩
    · exact h.entries.filter _
    · exact hsorted.sublist List.filter_sublist
  | false =>
    rw [if_neg Bool.false_ne_true, PoolM.wp, Program.wp_bind]
    have hfound := map_key lowKey t.contents
    refine h.ok.lookup h.order h.holds PoolMode.serves_succeeds hfuel
      ⟨⟨_, congrArg some hfound, ?_, ?_⟩, rfl⟩
    · exact h.entries.filter _
    · exact List.pairwise_iff_forall_sublist.mpr fun {e f} hsub => by
        have he := (List.mem_filter.mp (hsub.subset List.mem_cons_self)).2
        have hf := (List.mem_filter.mp (hsub.subset (List.mem_cons_of_mem _ List.mem_cons_self))).2
        rw [of_decide_eq_true he, of_decide_eq_true hf]

/-- **An index scan**: Init finds the entries, and Next hands out their records. -/
theorem produces {held : List PageId} (hs : s.Ok) (hreadable : s.Readable)
    (h : SharedPool.TreeFaithful k s.pages t index pairs) (hk : k < fuel)
    (hrids : ∀ e ∈ pairs, e.2.isValid = true → e.2.pageId ∈ s.chain) (hheld : held.dedup.length < n)
    (hcount : held.length + 1 < 2 ^ 32) (state : IndexScan)
    (hshows : state.bpm.Shows (View.among n s.pages held)) :
    ∃ (found : List (KeyType × RID)) (state' : IndexScan),
      found.Perm (pairs.filter (wanted lowKey highKey isRange)) ∧ SortedEntries found ∧
      (IndexScanExecutor fuel index lowKey highKey isRange).init state = some state' ∧
      (IndexScanExecutor fuel index lowKey highKey isRange).Fills
      ((rowsOf s found).map fun x _ => x)
        state' := by
  obtain ⟨⟨found, hfind, hperm, hsorted⟩, hshows'⟩ :=
    hshows.exec_reading reads_find tidy_find hheld hcount (find_spec h hk lowKey highKey isRange)
  refine ⟨found, ⟨found, 0, _⟩, hperm, hsorted, ?_,
    fills hs hreadable hheld hcount ⟨List.drop_zero, ?_, hshows'⟩ rfl⟩
  · simp only [IndexScanExecutor, begin, hfind]
    rfl
  · exact fun e he => hrids e (List.mem_filter.mp (hperm.mem_iff.mp he)).1

end IndexScan

end CourtDB
