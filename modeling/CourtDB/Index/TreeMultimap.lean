/-
# The tree as a multimap

What a B+ tree is for: record ids under keys, any number of them under each.  The abstract multimap
is the list of its pairs; an insertion adds one, a deletion takes one occurrence away.

A tree that is in order agrees with it (`multimap_faithful`): `Lookup` returns the record ids of a
key, `Delete` finds a pair exactly if there is one, and `RangeScan` lists the pairs of a range in
the order of their keys.  A run keeps the tree in order as long as no leaf is split within a run of
equal keys.  Where every key is in the tree once there are no such runs, so range scans of a tree
with unique keys are those of an ordered map (`ordered_map`).
-/
import CourtDB.Index.RunCut

namespace CourtDB

open BufferPoolManager NodeMap

/-! ## 1. The multimap

A list of pairs, in which the order does not matter.  `TreeOp.live` is what a sequence of operations
leaves. -/

/-- What an operation does to the pairs of a multimap. -/
def TreeOp.apply (live : List (KeyType × RID)) : TreeOp → List (KeyType × RID)
  | .insert key rid => (key, rid) :: live
  | .delete key rid => live.erase (key, rid)

/-- The pairs that were inserted and not deleted since. -/
def TreeOp.live (ops : List TreeOp) : List (KeyType × RID) := ops.foldl TreeOp.apply []

/-- The key that is inserted is not in the multimap. -/
def TreeOp.KeyFresh (live : List (KeyType × RID)) : TreeOp → Prop
  | .insert key _ => key ∉ live.map Prod.fst
  | .delete _ _ => True

instance (live : List (KeyType × RID)) : DecidablePred (TreeOp.KeyFresh live)
  | .insert key _ => inferInstanceAs (Decidable (key ∉ live.map Prod.fst))
  | .delete _ _ => isTrue trivial

/-- Keys that are fresh when they are inserted are in the multimap once. -/
theorem TreeOp.keys_nodup {live : List (KeyType × RID)} {op : TreeOp}
    (h : (live.map Prod.fst).Nodup) (hfresh : KeyFresh live op) :
    ((TreeOp.apply live op).map Prod.fst).Nodup := by
  cases op with
  | insert key rid => exact List.nodup_cons.mpr ⟨hfresh, h⟩
  | delete key rid => exact h.sublist (List.erase_sublist.map _)

/-- Sorted entries with different keys ascend. -/
theorem SortedEntries.ascends {l : List (KeyType × RID)} (h : SortedEntries l)
    (hnd : (l.map Prod.fst).Nodup) : l.Pairwise fun e e' => e.1.toNat < e'.1.toNat :=
  (h.and (List.pairwise_map.mp hnd)).imp fun ⟨hle, hne⟩ =>
    lt_of_le_of_ne hle fun heq => hne (UInt32.toNat_inj.mp heq)

/-! ## 2. Runs in order

`InStep` joins the invariant of the tree with the multimap of its callers. -/

namespace TreeState

variable {s : TreeState} {key : KeyType} {rid : RID}

/-- **A leaf of different keys** is split between two of them. -/
theorem clean_of_fresh (h : s.Ok) (hnd : (s.contents.map Prod.fst).Nodup)
    (hkey : key ∉ s.contents.map Prod.fst) : s.Clean key rid := by
  intro inner leaf n hd hn hfull
  cases h with
  | empty => exact absurd hn (by simp [empty])
  | tree htree =>
    obtain ⟨hfits, hsorted⟩ := htree.fits_leaf hn
    obtain ⟨rest, hperm, -⟩ := contents_setLeaf_rest hn htree.chain.nodup
      (htree.chain.leaf_mem hn) n
    have hperm' := hperm.map Prod.fst
    rw [List.map_append] at hperm'
    have hleaf : (n.entries.map Prod.fst).Nodup :=
      (List.nodup_append.mp (hperm'.nodup_iff.mp hnd)).1
    have hnot : key ∉ n.entries.map Prod.fst := fun hmem =>
      hkey (hperm'.mem_iff.mpr (List.mem_append_left _ hmem))
    have hover := (LeafNode.overflow_perm hfits hsorted key rid).map Prod.fst
    have hall : ((n.withEntry key rid).map Prod.fst).Nodup :=
      hover.nodup_iff.mpr (List.nodup_cons.mpr ⟨hnot, hleaf⟩)
    have hlen : ((n.withEntry key rid).map Prod.fst).length = 407 := by
      refine hover.length_eq.trans ?_
      rw [List.length_map, List.length_cons, hfull]
    refine decide_eq_false fun heq => ?_
    rw [List.getElem?_eq_getElem (by omega), List.getElem?_eq_getElem (by omega)] at heq
    exact absurd ((List.Nodup.getElem_inj_iff hall).mp (Option.some.inj heq)) (by decide)

end TreeState

namespace TreeRun

variable {n k fuel : Nat} {st : TreeRun} {s t : TreeState} {m m' : PageId → Option Page}
  {op : TreeOp} {live : List (KeyType × RID)}

/-- The run is sound, the tree is in order, and its callers count on what is in the multimap. -/
structure InStep (n k : Nat) (st : TreeRun) (s : TreeState) (m : PageId → Option Page)
    (live : List (KeyType × RID)) : Prop extends Sound n k st s m where
  order : s.InOrder
  live : st.entries = live

/-- **The step lemma.** -/
theorem InStep.step (h : InStep n k st s m live) (hk : k < fuel) (hadm : Admits fuel st op)
    (hclean : ∀ key rid, op = .insert key rid → s.Clean key rid) :
    ∃ t m', InStep n (k + 1) (TreeRun.step fuel st op) t m' (op.apply live) ∧
      (∀ key rid, op = .insert key rid → Stocked s.nodes → Stocked t.nodes) := by
  obtain ⟨t, m', returned, hsound, -, heff, -, hentries⟩ := h.toSound.step hk hadm
  refine ⟨t, m', ⟨hsound, heff.order h.order hclean, ?_⟩, heff.stocked⟩
  rw [hentries, h.live]
  cases op with
  | insert key rid => rfl
  | delete key rid =>
    have hiff := heff.delete key rid rfl h.order
    rw [h.entries.mem_iff, h.live] at hiff
    rw [note, TreeOp.apply]
    by_cases hmem : (key, rid) ∈ live
    · rw [if_pos (congrArg some (hiff.mpr hmem))]
    · rw [if_neg fun hres => hmem (hiff.mp (Option.some.inj hres)), List.erase_of_not_mem hmem]

/-- The empty tree. -/
theorem inStep_start {b : BufferPoolManager} (hb : b.Idle m) :
    InStep b.poolSize 0 { pool := b } TreeState.empty m [] := ⟨sound_start hb, .empty, rfl⟩

/-- With more fuel than operations searches get to their ends. -/
theorem Sound.enough (h : Sound n k st s m) (hk : k < fuel) :
    s.height < fuel ∧ s.chain.length ≤ fuel :=
  ⟨lt_of_le_of_lt h.height_le hk, h.chain_le.trans hk.le⟩

/-- **Lookup.** -/
theorem InStep.lookup (h : InStep n k st s m live) (hn : 0 < n) (hk : k < fuel) (key : KeyType) :
    ∃ l, ((st.tree.lookup fuel key).exec st.pool).1 = some l ∧
      l.Perm ((live.filter fun e => e.1 = key).map Prod.snd) := by
  have hwp : (st.tree.lookup fuel key).wp .safe
      (fun r _ => r = some ((s.contents.filter fun e => e.1 = key).map Prod.snd))
      (View.quiet n m) := by
    rw [h.tree]
    exact h.ok.lookup h.order h.holds (PoolMode.serves_safe hn) (h.enough hk) rfl
  obtain ⟨-, _, hres, -⟩ := h.shows.exec_safe hwp
  exact ⟨_, hres, ((h.live ▸ h.entries).filter _).map _⟩

/-- **RangeScan.** -/
theorem InStep.rangeScan (h : InStep n k st s m live) (hn : 0 < n) (hk : k < fuel)
    (low high : KeyType) : ∃ l, ((st.tree.rangeScan fuel low high).exec st.pool).1 = some l ∧
      l.Perm (live.filter (inRange low high)) ∧ SortedEntries l := by
  have hwp : (st.tree.rangeScan fuel low high).wp .safe
      (fun r _ => r = some (s.contents.filter (inRange low high)) ∧ SortedEntries s.contents)
      (View.quiet n m) := by
    rw [h.tree]
    exact h.ok.rangeScan h.order h.holds (PoolMode.serves_safe hn) (h.enough hk)
      fun hsorted => ⟨rfl, hsorted⟩
  obtain ⟨-, _, ⟨hres, hsorted⟩, -⟩ := h.shows.exec_safe hwp
  exact ⟨_, hres, (h.live ▸ h.entries).filter _, hsorted.sublist List.filter_sublist⟩

/-- **Delete** finds a pair that is there. -/
theorem InStep.delete (h : InStep n k st s m live) (hn : 0 < n) (hk : k < fuel) (key : KeyType)
    (rid : RID) : ((st.tree.delete fuel key rid).exec st.pool).1
      = some (decide ((key, rid) ∈ live)) := by
  have hwp : (st.tree.delete fuel key rid).wp .safe
      (fun r _ => r = some (decide ((key, rid) ∈ s.contents))) (View.quiet n m) := by
    rw [h.tree]
    refine h.ok.delete h.holds (PoolMode.serves_safe hn) (h.enough hk).1
      fun deleted _ _ _ _ _ _ hord => ?_
    have hiff := (hord h.order).2
    cases deleted with
    | true => rw [decide_eq_true (hiff.mp rfl)]
    | false => rw [decide_eq_false fun hmem => absurd (hiff.mpr hmem) Bool.false_ne_true]
  obtain ⟨-, _, hres, -⟩ := h.shows.exec_safe hwp
  rw [hres]
  exact congrArg some (decide_eq_decide.mpr (h.live ▸ h.entries).mem_iff)

/-! ## 3. Unique keys

A leaf of different keys is never cut within a run, so nothing has to be asked of the insertions but
that their keys are new. -/

/-- A run that inserts only keys which are not in the tree stays in order. -/
theorem InStep.run_fresh {ops : List TreeOp} : ∀ {k : Nat} {st : TreeRun} {s : TreeState}
    {m : PageId → Option Page} {live : List (KeyType × RID)}, InStep n k st s m live →
      (live.map Prod.fst).Nodup → k + ops.length ≤ fuel →
      Run.StepsOk (TreeRun.step fuel) (Admits fuel) st ops →
      Run.StepsOk TreeOp.apply TreeOp.KeyFresh live ops →
      (∃ t m', InStep n (k + ops.length) (ops.foldl (TreeRun.step fuel) st) t m'
        (ops.foldl TreeOp.apply live)) ∧ ((ops.foldl TreeOp.apply live).map Prod.fst).Nodup := by
  induction ops with
  | nil => exact fun h hnd _ _ _ => ⟨⟨_, _, h⟩, hnd⟩
  | cons op ops ih =>
    intro k st s m live h hnd hk hok hfresh
    rw [List.length_cons] at hk
    have hkeys := (h.live ▸ h.entries).map Prod.fst
    obtain ⟨t, m', h', -⟩ := h.step (show k < fuel by omega) hok.1 fun key rid hop =>
      TreeState.clean_of_fresh h.ok (hkeys.nodup_iff.mpr hnd) fun hmem => by
        have hnot := hfresh.1
        rw [hop] at hnot
        exact hnot (hkeys.mem_iff.mp hmem)
    rw [List.length_cons, Nat.add_comm ops.length 1, ← Nat.add_assoc]
    exact ih h' (TreeOp.keys_nodup hnd hfresh.1) (by omega) hok.2 hfresh.2

/-- **Range scans of a tree with unique keys are those of an ordered map.**  After any run whose
pool calls succeed and which inserts no key that is in the tree, `RangeScan` returns the pairs with
keys from `low` to `high`, each once and with ascending keys, and nothing if `low` is above
`high`. -/
theorem ordered_map {b : BufferPoolManager} {m₀ : PageId → Option Page} (hb : b.Idle m₀)
    {ops : List TreeOp} (hfuel : ops.length ≤ fuel)
    (hops : Run.StepsOk (TreeRun.step fuel) (Admits fuel) { pool := b } ops)
    (hfresh : Run.StepsOk TreeOp.apply TreeOp.KeyFresh [] ops) :
    let st := ops.foldl (TreeRun.step fuel) { pool := b }
    ∀ fuel', ops.length < fuel' → ∀ low high,
      ∃ l, ((st.tree.rangeScan fuel' low high).exec st.pool).1 = some l ∧
        l.Perm ((TreeOp.live ops).filter (inRange low high)) ∧
        l.Pairwise (fun e e' => e.1.toNat < e'.1.toNat) ∧
        (high.toNat < low.toNat → l = []) := by
  intro st fuel' hfuel' low high
  obtain ⟨⟨t, m, h⟩, hnd⟩ := (inStep_start hb).run_fresh List.nodup_nil (by omega) hops hfresh
  obtain ⟨l, hres, hperm, hsorted⟩ := h.rangeScan hb.size_pos (show 0 + ops.length < fuel' by omega)
    low high
  refine ⟨l, hres, hperm, ?_, fun hlt => ?_⟩
  · refine hsorted.ascends ((hperm.map Prod.fst).nodup_iff.mpr ?_)
    exact hnd.sublist (List.filter_sublist.map _)
  · have hnone : (ops.foldl TreeOp.apply []).filter (inRange low high) = [] := by
      refine List.filter_eq_nil_iff.mpr fun e _ => ?_
      simp only [inRange, Bool.and_eq_true, decide_eq_true_eq]
      omega
    rw [hnone] at hperm
    exact List.perm_nil.mp hperm

/-- A key that is deleted and inserted again. -/
theorem ordered_map_reinserted :
    let st := [TreeOp.insert 5 ⟨1, 0⟩, .insert 3 ⟨1, 1⟩, .delete 5 ⟨1, 0⟩,
      .insert 5 ⟨1, 2⟩].foldl (TreeRun.step 4) { pool := overNewFile 32 }
    ∃ l, ((st.tree.rangeScan 5 3 9).exec st.pool).1 = some l ∧
      l.Perm ([(5, ⟨1, 2⟩), (3, ⟨1, 1⟩)].filter (inRange 3 9)) ∧
      l.Pairwise (fun e e' => e.1.toNat < e'.1.toNat) ∧
      ((9 : KeyType).toNat < (3 : KeyType).toNat → l = []) :=
  ordered_map (idle_overNewFile (by decide)) (by decide)
    (stepsOk_of_frames (idle_overNewFile (by decide)) (by decide) (by decide) (by decide))
    (by decide) 5 (by decide) 3 9

/-! ## 4. Equal keys

`KeepsRuns` looks at the leaf into which the pair goes: is it full, and is its middle key, with the
new pair, equal to the key before it?  It can be decided at the state before the call. -/

/-- The leaf that `FindLeafPage` finds for a key. -/
def leafFor (fuel : Nat) (st : TreeRun) (key : KeyType) : Option LeafNode :=
  let program : PoolM (Option LeafNode) := do
    match ← st.tree.findLeafPage fuel key with
    | some (some id) => return some (← LeafNode.load id)
    | some none => return none
    | none => return none
  (program.exec st.pool).1

/-- The operation splits no leaf within a run of equal keys. -/
def KeepsRuns (fuel : Nat) (st : TreeRun) : TreeOp → Prop
  | .insert key rid => ∀ n ∈ leafFor fuel st key, n.isFull = true → n.cutsRun key rid = false
  | .delete _ _ => True

instance (fuel : Nat) (st : TreeRun) : DecidablePred (KeepsRuns fuel st)
  | .insert key rid => inferInstanceAs (Decidable
      (∀ n ∈ leafFor fuel st key, n.isFull = true → n.cutsRun key rid = false))
  | .delete _ _ => isTrue trivial

/-- That leaf is the one where the path of the key ends. -/
theorem Sound.leafFor_eq (h : Sound n k st s m) (hn : 0 < n) (hk : k < fuel) {key : KeyType}
    {inner : List PageId} {leaf : PageId} {node : LeafNode}
    (hd : Descends s.nodes key s.root inner leaf)
    (hnode : s.nodes leaf = some (.leaf node)) : leafFor fuel st key = some node := by
  cases h.ok with
  | empty => exact absurd hnode (by simp [TreeState.empty])
  | tree htree =>
    obtain ⟨inner', leaf', -, -, -, hd', hlen, -⟩ := htree.path key
    obtain ⟨rfl, rfl⟩ := hd'.unique hd
    have hshort : inner.length < fuel := hlen ▸ (h.enough hk).1
    have hserve : PoolMode.safe.Serves n 0 := PoolMode.serves_safe hn
    have hwp : PoolM.wp .safe (do
        match ← st.tree.findLeafPage fuel key with
        | some (some id) => return some (← LeafNode.load id)
        | some none => return none
        | none => return none) (fun r _ => r = some node) (View.quiet n m) := by
      rw [h.tree]
      refine PoolM.wp_of_refusing ?_
      rw [PoolM.wpr, Program.wp_bind]
      refine PoolM.wpr_findLeafPage (hserve _ rfl View.pinsAtMost_quiet) h.holds
        (fun id hs => (htree.shape.ids id hs).1) hd hshort
        (fun ps' hng => absurd (Refusals.grants_nil _) hng) fun _ => ?_
      simp only []
      rw [Program.wp_bind]
      exact PoolM.LeafNode.wpr_load PoolM.held_pos h.holds hnode rfl
    obtain ⟨-, _, hres, -⟩ := h.shows.exec_safe hwp
    exact hres

/-- **The tree is a faithful multimap**: with enough fuel `Lookup` returns the record ids of every
key, and `Delete` finds a pair exactly if there is one. -/
def Faithful (st : TreeRun) (live : List (KeyType × RID)) (enough : Nat) : Prop :=
  ∀ fuel, enough ≤ fuel → ∀ key,
    (∃ l, ((st.tree.lookup fuel key).exec st.pool).1 = some l ∧
      l.Perm ((live.filter fun e => e.1 = key).map Prod.snd)) ∧
    ∀ rid, ((st.tree.delete fuel key rid).exec st.pool).1 = some (decide ((key, rid) ∈ live))

/-- **The run lemma.** -/
theorem InStep.run {ops : List TreeOp} (hn : 0 < n) : ∀ {k : Nat} {st : TreeRun} {s : TreeState}
    {m : PageId → Option Page} {live : List (KeyType × RID)}, InStep n k st s m live →
      k + ops.length ≤ fuel →
      Run.StepsOk (TreeRun.step fuel) (fun st op => Admits fuel st op ∧
        KeepsRuns fuel st op) st ops →
      ∃ t m', InStep n (k + ops.length) (ops.foldl (TreeRun.step fuel) st) t m'
        (ops.foldl TreeOp.apply live) := by
  induction ops with
  | nil => exact fun h _ _ => ⟨_, _, h⟩
  | cons op ops ih =>
    intro k st s m live h hk hok
    rw [List.length_cons] at hk
    have hlt : k < fuel := by omega
    obtain ⟨t, m', h', -⟩ := h.step hlt hok.1.1 fun key rid hop inner leaf node hd hnode hfull => by
      have hkeeps := hok.1.2
      rw [hop] at hkeeps
      have hfits : node.Fits := by
        cases h.ok with
        | empty => exact absurd hnode (by simp [TreeState.empty])
        | tree htree => exact (htree.fits_leaf hnode).1
      exact hkeeps node (h.leafFor_eq hn hlt hd hnode) ((LeafNode.isFull_iff hfits).mpr hfull)
    rw [List.length_cons, Nat.add_comm ops.length 1, ← Nat.add_assoc]
    exact ih h' (by omega) hok.2

/-- **A run that splits no leaf within a run of equal keys leaves a faithful multimap.** -/
theorem multimap_faithful {b : BufferPoolManager} {m₀ : PageId → Option Page} (hb : b.Idle m₀)
    {ops : List TreeOp} (hfuel : ops.length ≤ fuel)
    (hops : Run.StepsOk (TreeRun.step fuel) (fun st op => Admits fuel st op ∧ KeepsRuns fuel st op)
      { pool := b } ops) :
    Faithful (ops.foldl (TreeRun.step fuel) { pool := b }) (TreeOp.live ops) (ops.length + 1) := by
  obtain ⟨t, m, h⟩ := (inStep_start hb).run hb.size_pos (by omega) hops
  intro fuel' hfuel' key
  have hlt : 0 + ops.length < fuel' := by omega
  exact ⟨h.lookup hb.size_pos hlt key, fun rid => h.delete hb.size_pos hlt key rid⟩

instance (fuel : Nat) (st : TreeRun) : DecidablePred (Admits fuel st) := fun op =>
  inferInstanceAs (Decidable
    ((program fuel st.tree op).CallsOk BufferPoolManager.handle Succeeds st.pool))

/-- Two record ids of a key, and one of them removed. -/
theorem multimap_faithful_equal :
    Faithful ([TreeOp.insert 5 ⟨1, 0⟩, .insert 5 ⟨1, 1⟩, .delete 5 ⟨1, 0⟩].foldl
      (TreeRun.step 3) { pool := overNewFile 4 })
      (TreeOp.live [.insert 5 ⟨1, 0⟩, .insert 5 ⟨1, 1⟩, .delete 5 ⟨1, 0⟩]) 4 :=
  multimap_faithful (idle_overNewFile (by decide)) (by decide) (by decide +kernel)

/-- Insertions add their entries. -/
theorem live_inserts (entries : List (KeyType × RID)) :
    TreeOp.live (TreeOp.inserts entries) = entries.reverse := by
  have hfold : ∀ live, (TreeOp.inserts entries).foldl TreeOp.apply live
      = entries.reverse ++ live := by
    induction entries with
    | nil => exact fun _ => rfl
    | cons e entries ih =>
      intro live
      rw [List.reverse_cons, List.append_assoc]
      exact ih _
  rw [TreeOp.live, hfold, List.append_nil]

/-- 407 record ids of one key. -/
def runOfOneKey : List (KeyType × RID) := (List.range 407).map fun i => (5, ⟨1, UInt16.ofNat i⟩)

/-- **A run of equal keys is cut**, and `Lookup` returns the half of it. -/
theorem multimap_cut :
    Run.StepsOk (TreeRun.step 407) (Admits 407) { pool := overNewFile 170000 }
        (TreeOp.inserts runOfOneKey) ∧
      ¬ Faithful ((TreeOp.inserts runOfOneKey).foldl (TreeRun.step 407)
        { pool := overNewFile 170000 }) (TreeOp.live (TreeOp.inserts runOfOneKey)) 408 := by
  have hlen : runOfOneKey.length = 407 := by rw [runOfOneKey, List.length_map, List.length_range]
  have hops : (TreeOp.inserts runOfOneKey).length
    = 407 := by rw [TreeOp.inserts, List.length_map, hlen]
  have hkeys : ∀ e ∈ runOfOneKey, e.1 = 5 := by
    intro e he
    obtain ⟨i, -, rfl⟩ := List.mem_map.mp he
    rfl
  have hidle := idle_overNewFile (show 0 < 170000 by decide)
  have hsize : (overNewFile 170000).poolSize = 170000 := rfl
  refine ⟨stepsOk_of_frames hidle hops.le ?_ ?_, fun hfaithful => ?_⟩
  · rw [hops, hsize]
    decide
  · rw [hops]
    decide
  · obtain ⟨⟨l, hl, hperm⟩, -⟩ := hfaithful 408 (Nat.le_refl _) 5
    obtain ⟨l', hl', hlen'⟩ := @lookup_cut 407 5 _ hidle (by rw [hsize]; decide) (by decide)
      (by decide) runOfOneKey hlen hkeys 408 (by decide)
    obtain rfl : l' = l := Option.some.inj (hl'.symm.trans hl)
    have hcount := hperm.length_eq
    rw [hlen', live_inserts, List.length_map, List.filter_eq_self.mpr ?_, List.length_reverse,
      hlen] at hcount
    · exact absurd hcount (by decide)
    · exact fun e he => decide_eq_true (hkeys e (List.mem_reverse.mp he))

end TreeRun

end CourtDB
