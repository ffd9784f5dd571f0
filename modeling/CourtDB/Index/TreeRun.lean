/-
# Runs of a tree

`TreeRun` runs insertions and deletions on one B+ tree and its buffer pool, from the empty tree,
and keeps the entries that they were told were stored and not removed.

`tree_structure` says what holds after any run whose pool calls succeed, with any number of equal
keys: the pages hold a tree of one height with the leaves of its chain, and the entries on the chain
are those of the run.
-/
import CourtDB.Index.TreeStructure
import CourtDB.Lib.Run

namespace CourtDB

open BufferPoolManager

/-! ## 1. Runs -/

/-- The operations that change a tree. -/
inductive TreeOp
  | insert (key : KeyType) (rid : RID)
  | delete (key : KeyType) (rid : RID)

/-- The insertions of a list of entries. -/
def TreeOp.inserts (entries : List (KeyType × RID)) : List TreeOp :=
  entries.map fun e => .insert e.1 e.2

/-- A tree on its pool, the entries its callers believe to be in it, and what the calls returned. -/
structure TreeRun where
  pool : BufferPoolManager
  tree : BPlusTree := {}
  entries : List (KeyType × RID) := []
  results : List (Option Bool) := []

namespace TreeRun

/-- The program behind an operation. -/
def program (fuel : Nat) (t : BPlusTree) : TreeOp → PoolM (Option (Bool × BPlusTree))
  | .insert key rid => t.insert fuel key rid
  | .delete key rid => do return (← t.delete fuel key rid).map fun deleted => (deleted, t)

/-- The callers count on what they inserted, less what a deletion told them it removed. -/
def note (entries : List (KeyType × RID)) (result : Option Bool) :
    TreeOp → List (KeyType × RID)
  | .insert key rid => (key, rid) :: entries
  | .delete key rid => if result = some true then entries.erase (key, rid) else entries

/-- One operation. -/
def step (fuel : Nat) (st : TreeRun) (op : TreeOp) : TreeRun :=
  let r := (program fuel st.tree op).exec st.pool
  { pool := r.2
    tree := (r.1.map Prod.snd).getD st.tree
    entries := note st.entries (r.1.map Prod.fst) op
    results := st.results ++ [r.1.map Prod.fst] }

/-- The calls of the operation on the pool succeed. -/
def Admits (fuel : Nat) (st : TreeRun) (op : TreeOp) : Prop :=
  (program fuel st.tree op).CallsOk BufferPoolManager.handle Succeeds st.pool

/-! ## 2. The invariant -/

/-- After `k` operations the run stands on the state `s` and an idle pool. -/
structure Sound (n k : Nat) (st : TreeRun) (s : TreeState) (m : PageId → Option Page) : Prop where
  ok : s.Ok
  tree : st.tree = s.tree
  holds : Holds m s.nodes
  shows : st.pool.Shows (View.quiet n m)
  entries : s.contents.Perm st.entries
  chain_le : s.chain.length ≤ k
  height_le : s.height ≤ k
  results : none ∉ st.results

variable {n k fuel : Nat} {st : TreeRun} {s t : TreeState} {m m' : PageId → Option Page}
  {op : TreeOp}

/-- What an operation says, and does to the entries and the order of a state. -/
structure Effect (s : TreeState) (op : TreeOp) (returned : Bool) (t : TreeState) : Prop where
  entries : ∀ l : List (KeyType × RID), s.contents.Perm l →
    t.contents.Perm (note l (some returned) op)
  insert : ∀ key rid, op = .insert key rid → returned = true
  delete : ∀ key rid, op = .delete key rid → s.InOrder → (returned = true ↔ (key, rid) ∈ s.contents)
  order : s.InOrder → (∀ key rid, op = .insert key rid → s.Clean key rid) → t.InOrder
  stocked : ∀ key rid, op = .insert key rid → NodeMap.Stocked s.nodes → NodeMap.Stocked t.nodes

/-- **What an operation does to a state**, if its calls succeed. -/
theorem program_spec {mode : PoolMode} {p limit : Nat} {Q : Option (Bool × BPlusTree) → View → Prop}
    (hs : s.Ok) (hholds : Holds m s.nodes) (hmode : mode.Allows n limit)
    (hserve : mode.Serves n 0) (hw : (View.quiet n m).Within p) (hp : p + 1 + fuel ≤ limit)
    (hfuel : s.height < fuel)
    (hQ : ∀ returned t m', s.Evolves m t m' → Effect s op returned t →
      (View.quiet n m').Within (p + 1 + fuel) → Q (some (returned, t.tree)) (View.quiet n m')) :
    (program fuel s.tree op).wp mode Q (View.quiet n m) := by
  cases op with
  | insert key rid =>
    refine hs.insert hholds hmode hw hp hfuel fun t m' hev hperm hord hst hw' => ?_
    refine hQ true t m' hev ⟨fun l hl => ?_, fun _ _ _ => rfl, fun _ _ ho => by simp at ho,
      fun ho hclean => hord ho (hclean key rid rfl), fun _ _ _ => hst⟩ hw'
    exact hperm.trans (hl.cons _)
  | delete key rid =>
    rw [program, PoolM.wp, Program.wp_bind]
    refine hs.delete hholds hserve hfuel fun deleted t m' hev hroot hdom hres hord => ?_
    have htree : s.tree = t.tree := by rw [TreeState.tree, TreeState.tree, hroot]
    rw [Program.wp_pure, htree]
    refine hQ deleted t m' hev ⟨fun l hl => ?_, fun _ _ ho => by simp at ho,
      fun key' rid' ho hin => ?_, fun hin _ => (hord hin).1, fun _ _ ho => by simp at ho⟩ ?_
    · cases deleted with
      | false =>
        obtain ⟨rfl, -⟩ := hres
        exact hl
      | true =>
        have herase := (hres.symm.trans hl).erase (key, rid)
        rwa [List.erase_cons_head] at herase
    · obtain ⟨rfl, rfl⟩ := TreeOp.delete.inj ho
      exact (hord hin).2
    · have hsame : (View.quiet n m').Within p := hw.of_subset hdom fun _ _ => rfl
      exact hsame.mono (by omega)

/-- What an operation that returned does to a run. -/
def Effective (n k fuel : Nat) (st : TreeRun) (s t : TreeState) (m m' : PageId → Option Page)
    (op : TreeOp) (returned : Bool) : Prop :=
  Sound n (k + 1) (step fuel st op) t m' ∧ s.Evolves m t m' ∧ Effect s op returned t ∧
    (step fuel st op).results = st.results ++ [some returned] ∧
    (step fuel st op).entries = note st.entries (some returned) op

/-- The state an operation leaves when its program has run. -/
theorem Sound.effective {returned : Bool} (h : Sound n k st s m)
    (hres : ((program fuel s.tree op).exec st.pool).1 = some (returned, t.tree))
    (hshows : ((program fuel s.tree op).exec st.pool).2.Shows (View.quiet n m'))
    (hev : s.Evolves m t m') (heff : Effect s op returned t) :
    Effective n k fuel st s t m m' op returned := by
  rw [← h.tree] at hres hshows
  have hstep : TreeRun.step fuel st op = ⟨((program fuel st.tree op).exec st.pool).2, t.tree,
      note st.entries (some returned) op, st.results ++ [some returned]⟩ := by
    rw [TreeRun.step, hres]
    rfl
  refine ⟨?_, hev, heff, by rw [hstep], by rw [hstep]⟩
  have hchain := hev.chain_le.trans (Nat.succ_le_succ h.chain_le)
  have hheight := hev.height_le.trans (Nat.succ_le_succ h.height_le)
  rw [hstep]
  refine ⟨hev.ok, rfl, hev.pages.holds, hshows, heff.entries _ h.entries, hchain, hheight,
    fun hr => ?_⟩
  rcases List.mem_append.mp hr with hr | hr
  · exact h.results hr
  · exact Option.some_ne_none _ (List.mem_singleton.mp hr).symm

/-- **The step lemma.** -/
theorem Sound.step (h : Sound n k st s m) (hk : k < fuel) (hadm : Admits fuel st op) :
    ∃ t m' returned, Effective n k fuel st s t m m' op returned := by
  obtain ⟨p, hw⟩ := (View.quiet n m).exists_within
  have hwp : (program fuel s.tree op).wp .succeeds (fun r v => ∃ returned t m',
      r = some (returned, t.tree) ∧ v = View.quiet n m' ∧ s.Evolves m t m' ∧
        Effect s op returned t) (View.quiet n m) :=
    program_spec h.ok h.holds PoolMode.allows_succeeds PoolMode.serves_succeeds hw le_rfl
      (lt_of_le_of_lt h.height_le hk) fun returned t m' hev heff _ =>
        ⟨returned, t, m', rfl, rfl, hev, heff⟩
  rw [Admits, h.tree] at hadm
  obtain ⟨_, ⟨returned, t, m', hres, rfl, hev, heff⟩, hshows⟩ := h.shows.exec_succeeds hadm hwp
  exact ⟨t, m', returned, h.effective hres hshows hev heff⟩

/-- With more frames than pages that may come to be, the calls succeed. -/
theorem Sound.step_of_frames {p : Nat} (h : Sound n k st s m) (hk : k < fuel)
    (hw : (View.quiet n m).Within p) (hn : p + 1 + fuel < n) (hids : p + 1 + fuel + 2 < 2 ^ 32) :
    Admits fuel st op ∧ ∃ t m' returned, Effective n k fuel st s t m m' op returned ∧
      (View.quiet n m').Within (p + 1 + fuel) := by
  have hwp : (program fuel s.tree op).wp .safe (fun r v => ∃ returned t m',
      r = some (returned, t.tree) ∧ v = View.quiet n m' ∧ s.Evolves m t m' ∧
        Effect s op returned t ∧ (View.quiet n m').Within (p + 1 + fuel)) (View.quiet n m) :=
    program_spec h.ok h.holds (PoolMode.allows_safe hn hids) (PoolMode.serves_safe (by omega)) hw
      le_rfl (lt_of_le_of_lt h.height_le hk) fun returned t m' hev heff hw' =>
        ⟨returned, t, m', rfl, rfl, hev, heff, hw'⟩
  obtain ⟨hok, _, ⟨returned, t, m', hres, rfl, hev, heff, hw'⟩, hshows⟩ := h.shows.exec_safe hwp
  exact ⟨by rw [Admits, h.tree]; exact hok, t, m', returned,
    h.effective hres hshows hev heff, hw'⟩

/-- The empty tree on an idle pool. -/
theorem sound_start {b : BufferPoolManager} (hb : b.Idle m) :
    Sound b.poolSize 0 { pool := b } TreeState.empty m :=
  ⟨.empty, rfl, TreeState.holds_empty m, hb.shows, List.Perm.refl _, Nat.le_refl 0,
    Nat.le_refl 0, List.not_mem_nil⟩

/-- **The run lemma.**  With more fuel than operations every run is sound. -/
theorem Sound.run {ops : List TreeOp} : ∀ {k : Nat} {st : TreeRun} {s : TreeState}
    {m : PageId → Option Page}, Sound n k st s m → k + ops.length ≤ fuel →
      Run.StepsOk (TreeRun.step fuel) (Admits fuel) st ops →
      ∃ t m', Sound n (k + ops.length) (ops.foldl (TreeRun.step fuel) st) t m' := by
  induction ops with
  | nil => exact fun h _ _ => ⟨_, _, h⟩
  | cons op ops ih =>
    intro k st s m h hk hok
    rw [List.length_cons] at hk
    obtain ⟨t, m', -, h', -⟩ := h.step (by omega) hok.1
    rw [List.length_cons, Nat.add_comm ops.length 1, ← Nat.add_assoc]
    exact ih h' (by omega) hok.2

/-- With enough frames all calls of a run succeed. -/
theorem Sound.stepsOk_of_frames {ops : List TreeOp} : ∀ {k : Nat} (p : Nat) {st : TreeRun}
    {s : TreeState} {m : PageId → Option Page}, Sound n k st s m → k + ops.length ≤ fuel →
      (View.quiet n m).Within p → p + ops.length * (1 + fuel) < n →
      p + ops.length * (1 + fuel) + 2 < 2 ^ 32 →
      Run.StepsOk (TreeRun.step fuel) (Admits fuel) st ops := by
  induction ops with
  | nil => exact fun _ _ _ _ _ _ _ _ _ => trivial
  | cons op ops ih =>
    intro k p st s m h hk hw hn hids
    rw [List.length_cons] at hk hn hids
    rw [Nat.succ_mul] at hn hids
    have hlt : k < fuel := by omega
    obtain ⟨hadm, t, m', returned, ⟨h', -⟩, hw'⟩ :=
      @Sound.step_of_frames _ _ _ _ _ _ op _ h hlt hw (by omega) (by omega)
    exact ⟨hadm, ih (p + 1 + fuel) h' (by omega) hw' (by omega) (by omega)⟩

/-- Runs from the empty tree, and a pool without pages. -/
theorem stepsOk_of_frames {b : BufferPoolManager} (hb : b.Idle fun _ => none)
    {ops : List TreeOp} (hfuel : ops.length ≤ fuel)
    (hn : ops.length * (1 + fuel) < b.poolSize) (hids : ops.length * (1 + fuel) + 2 < 2 ^ 32) :
    Run.StepsOk (step fuel) (Admits fuel) { pool := b } ops :=
  (sound_start hb).stepsOk_of_frames 0 (by omega)
    ⟨[], Nat.le_refl 0, fun _ _ => ⟨rfl, rfl⟩⟩ (by omega) (by omega)

/-! ## 3. The theorem -/

/-- 406 entries of different keys: a leaf takes no more. -/
def fullLeaf : List (KeyType × RID) :=
  (List.range 406).map fun i => (UInt32.ofNat i, ⟨1, UInt16.ofNat i⟩)

theorem fullLeaf_length : fullLeaf.length = 406 := by
  rw [fullLeaf, List.length_map, List.length_range]

/-- One entry more. -/
def splitLeaf : List (KeyType × RID) := fullLeaf ++ [(406, ⟨2, 0⟩)]

theorem inserts_splitLeaf_length : (TreeOp.inserts splitLeaf).length = 407 := by
  rw [TreeOp.inserts, List.length_map, splitLeaf, List.length_append, fullLeaf_length]
  rfl

/-- What a run leaves in a pool of `n` frames.  Every operation has returned.  There is no root and
there are no entries, or: the pool shows pages that hold the nodes of one tree, all of whose leaves
are `height` levels below the root; every node names its parent; internal nodes have 1 to 507 keys
and one child more, and leaves at most 406 sorted entries; the chain from the leftmost leaf visits
each leaf once and ends; and the entries on it are those of the run. -/
def WellBuilt (n : Nat) (st : TreeRun) : Prop :=
  none ∉ st.results ∧
    (st.tree.rootPageId = invalidPageId ∧ st.entries = [] ∨
      ∃ pages nodes height leaves first chain, st.pool.Shows (View.quiet n pages) ∧
        Holds pages nodes ∧
        Subtree nodes invalidPageId height st.tree.rootPageId leaves ∧
        leaves.head? = some first ∧ Segment nodes.next first chain invalidPageId ∧
        chain.Perm leaves ∧ leaves.Nodup ∧ (nodes.contents chain).Perm st.entries)

/-- **The structure of a tree after any run.** -/
theorem tree_structure {b : BufferPoolManager} {m₀ : PageId → Option Page} (hb : b.Idle m₀)
    {ops : List TreeOp} (hfuel : ops.length ≤ fuel)
    (hops : Run.StepsOk (step fuel) (Admits fuel) { pool := b } ops) :
    WellBuilt b.poolSize (ops.foldl (step fuel) { pool := b }) := by
  obtain ⟨s, m, hs⟩ := (sound_start hb).run (by omega) hops
  refine ⟨hs.results, ?_⟩
  have hroot : (ops.foldl (step fuel) { pool := b }).tree.rootPageId = s.root :=
    congrArg BPlusTree.rootPageId hs.tree
  cases hs.ok with
  | empty => exact Or.inl ⟨hroot, List.nil_perm.mp hs.entries⟩
  | tree htree =>
    obtain ⟨leaves, hsub, hhead, hperm, hnd⟩ := htree.subtree
    rw [← hroot] at hsub
    exact Or.inr ⟨m, s.nodes, _, leaves, s.first, s.chain, hs.shows, hs.holds, hsub, hhead,
      htree.chain.links, hperm, hnd, hs.entries⟩

/-- The last of 407 insertions splits the only leaf, and an entry that stayed in it is removed. -/
theorem tree_structure_split :
    WellBuilt 200000 ((TreeOp.inserts splitLeaf ++ [TreeOp.delete 100 ⟨1, 100⟩]).foldl (step 408)
      { pool := overNewFile 200000 }) := by
  have hlength : (TreeOp.inserts splitLeaf ++ [TreeOp.delete 100 ⟨1, 100⟩]).length = 408 := by
    rw [List.length_append, inserts_splitLeaf_length]
    rfl
  have hsize : (overNewFile 200000).poolSize = 200000 := rfl
  have hidle := idle_overNewFile (n := 200000) (by decide)
  refine tree_structure hidle hlength.le (stepsOk_of_frames hidle hlength.le ?_ ?_)
  · rw [hlength, hsize]
    decide
  · rw [hlength]
    decide

end TreeRun

end CourtDB
