/-
# A shared pool answers like the abstract database

The calls of the trees and of the clients, and the theorem: on the heap files and trees of one
buffer pool, called in whatever order and with whatever records in the hands of clients, the answers
are those of tables and multimaps that know nothing of each other (`answers_abstract`).

The calls are not free of conditions, and `SharedPool.Admits` has them, one by one at the state in
which the call is made:

* every request to the pool succeeds, so fetches and new pages get their frame, and page ids do not
  run out (`Shared.FrameDemand` says how many frames are enough for that);
* a heap file is created once and before it is used; record ids are ones that this heap file
  returned, and an update is one that the page can take (`Updatable`), as relocation beyond the free
  space damages the page;
* an insertion into a tree splits no leaf within a run of equal keys, as the tree is a multimap only
  so long as no leaf was split there;
* a page is given back by a client that holds it.

Nothing is asked of the calls that only read, nor of deletions from a tree.

A run is proved correct call by call.  The invariant (`Sound`) is about all structures at once, but
each call is about one of them: the others keep their pages, because no page belongs to two, and so
they keep what they hold.  The answers are collected along the run, and the abstract database makes
the same steps (`Contents.Trace`).
-/
import CourtDB.Shared.SharedPool

namespace CourtDB

open BufferPoolManager NodeMap

variable {ι κ : Type} [DecidableEq ι] [DecidableEq κ]

namespace SharedPool

/-! ## 1. The calls of a tree

The calls of a heap file are in the module before.  Those of a tree begin at the path of the key;
only the pages on it matter for whether a leaf is split and where. -/

section Calls

variable {n k fuel : Nat} {st : SharedPool ι κ} {c : Contents ι κ} {m : PageId → Option Page}
  {chain : ι → List PageId} {ts : κ → TreeState} {op : SharedOp ι κ} {j : κ} {key : KeyType}

omit [DecidableEq ι] [DecidableEq κ] in
/-- `FindLeafPage` finds the leaf where the path of the key ends, and a client that goes on to read
it gets its node. -/
theorem TreeFaithful.read_leaf {b : BufferPoolManager} {held : List PageId} {s : TreeState}
    {t : BPlusTree} {pairs : List (KeyType × RID)} (h : TreeFaithful k m s t pairs)
    (hb : b.Shows (View.among n m held)) (hk : k < fuel) (hheld : held.length + 1 < 2 ^ 32)
    {inner : List PageId} {leaf : PageId} {node : LeafNode}
    (hd : Descends s.nodes key s.root inner leaf)
    (hnode : s.nodes leaf = some (.leaf node))
    {f : Option (Option PageId) → PoolM (Option LeafNode)}
    (hleaf : ∀ id, f (some (some id)) = (do return some (← LeafNode.load id)))
    (hnull : f (some none) = pure none) (hnone : f none = pure none)
    (hok : (t.findLeafPage fuel key).CallsOk BufferPoolManager.handle Succeeds b) :
    (PoolM.exec (t.findLeafPage fuel key >>= f) b).1 = some node := by
  -- an empty tree has no leaf
  cases h.ok with
  | empty => exact absurd hnode (by simp [TreeState.empty])
  | tree htree =>
    obtain ⟨inner', leaf', -, -, -, hd', hlen, -⟩ := htree.path key
    -- the path of a key is one
    obtain ⟨rfl, rfl⟩ := hd'.unique hd
    have hshort : inner.length < fuel := hlen ▸ lt_of_le_of_lt h.height_le hk
    -- reading the leaf needs no frame beside the one that `FindLeafPage` used
    have hcalls : Program.CallsOk BufferPoolManager.handle Succeeds
      (t.findLeafPage fuel key >>= f) b := by
      refine (Program.callsOk_bind _ _ _).mpr ⟨hok, ?_⟩
      rcases (t.findLeafPage fuel key).run BufferPoolManager.handle b with ⟨- | - | id, b'⟩
      · rw [hnone]
        trivial
      · rw [hnull]
        trivial
      · rw [hleaf]
        exact ⟨⟨trivial, not_false⟩, trivial⟩
    -- the program ends with the leaf in hand, and at most that
    have htidy : PoolM.Tidy 1 (t.findLeafPage fuel key >>= f) (fun _ _ => True) [] := by
      rw [PoolM.Tidy, Program.wp_bind]
      refine Program.wp_mono (BPlusTree.tidy_findLeafPage t key fuel Nat.zero_lt_one)
        fun r held' _ => ?_
      rcases r with - | - | id
      · rw [hnone]
        trivial
      · rw [hnull]
        trivial
      · rw [hleaf, Program.wp_bind]
        exact BPlusTree.tidy_loadLeaf fun _ => trivial
    have hserve : PoolMode.succeeds.Serves n 0 := PoolMode.serves_succeeds
    -- in a quiet pool it finds the leaf of the path, and loads its node
    have hwp : PoolM.wp .succeeds (t.findLeafPage fuel key >>= f)
        (fun r v => ∃ m' own, v = View.among n m' own ∧ r = some node) (View.quiet n m) := by
      refine PoolM.wp_of_refusing ?_
      rw [PoolM.wpr, Program.wp_bind, h.tree]
      refine PoolM.wpr_findLeafPage (hserve _ rfl View.pinsAtMost_quiet) h.holds
        (fun id hs => (htree.shape.ids id hs).1) hd hshort
        (fun ps' hng => absurd (Refusals.grants_nil _) hng) fun _ => ?_
      rw [hleaf, Program.wp_bind]
      refine PoolM.LeafNode.wpr_load PoolM.held_pos h.holds hnode ?_
      exact ⟨m, [leaf], by rw [View.among_singleton, View.quiet_pin], rfl⟩
    -- what clients hold beside it does not matter
    obtain ⟨-, -, hres, -⟩ := hb.exec_among (P := fun r _ _ => r = some node) hcalls htidy hheld hwp
    exact hres

omit [DecidableEq ι] [DecidableEq κ] in
/-- An insertion that splits no leaf within a run of equal keys. -/
theorem TreeFaithful.clean {b : BufferPoolManager} {held : List PageId} {s : TreeState}
    {t : BPlusTree} {pairs : List (KeyType × RID)} {rid : RID} (h : TreeFaithful k m s t pairs)
    (hb : b.Shows (View.among n m held)) (hk : k < fuel) (hheld : held.length + 1 < 2 ^ 32)
    (hok : (t.insert fuel key rid).CallsOk BufferPoolManager.handle Succeeds b)
    (hkeeps : TreeRun.KeepsRuns fuel ⟨b, t, [], []⟩ (.insert key rid)) : s.Clean key rid := by
  intro inner leaf node hd hnode hfull
  cases h.ok with
  | empty => exact absurd hnode (by simp [TreeState.empty])
  | tree htree =>
    have hroot : t.rootPageId ≠ invalidPageId := by
      rw [h.tree]
      exact TreeState.root_ne htree
    rw [BPlusTree.insert, if_neg hroot, Program.callsOk_bind] at hok
    have hfor : TreeRun.leafFor fuel ⟨b, t, [], []⟩ key = some node :=
      h.read_leaf hb hk hheld hd hnode (fun _ => rfl) rfl rfl hok.1
    exact hkeeps node hfor ((LeafNode.isFull_iff (htree.fits_leaf hnode).1).mpr hfull)

omit [DecidableEq ι] in
/-- New pages of a tree were nobody's. -/
theorem Sound.treeEvolves (h : Sound n k st c m chain ts) {t : TreeState}
    {m' : PageId → Option Page}
    {pairs : List (KeyType × RID)} {pool : BufferPoolManager} {answers : List Answer}
    (hev : (ts j).Evolves m t m') (hord : t.InOrder) (hperm : t.contents.Perm pairs)
    (hfanned : Fanned t.nodes t.root) (hshows : pool.Shows (View.among n m' st.held)) :
    Sound n (k + 1) ⟨pool, st.db.setTree j t.tree, st.returned, st.held, answers⟩
      (c.setPairs j pairs)
      m' chain (Function.update ts j t) := by
  refine h.treeChange hev.pages ⟨hev.ok, rfl, hev.pages.holds, hord, hperm, hfanned, ?_, ?_⟩ hshows
  · exact hev.chain_le.trans (Nat.succ_le_succ (h.tree j).chain_le)
  · exact hev.height_le.trans (Nat.succ_le_succ (h.tree j).height_le)

theorem Sound.insertKey (h : Sound n k st c m chain ts) {rid : RID} (hclean : (ts j).Clean key rid)
    (hk : k < fuel) : EndsWell n k fuel st (.insertKey j key rid) c m chain := by
  refine .of_quiet (fun _ => rfl) ?_
  have hj := h.tree j
  rw [Structures.program, PoolM.wp, Program.wp_bind, hj.tree]
  refine Program.wp_mono (hj.ok.insert_ordered hj.fanned hj.holds (lt_of_le_of_lt hj.height_le hk))
    fun r v hr => ?_
  obtain ⟨t, m', rfl, rfl, hev, hperm, hord, hfanned⟩ := hr
  refine ⟨_, _, m', rfl, rfl, fun pool hpool =>
    ⟨_, chain, Function.update ts j t, .insertKey, .refl chain,
    ?_⟩⟩
  exact h.treeEvolves hev (hord hj.order hclean) (hperm.trans (hj.entries.cons _)) hfanned hpool

theorem Sound.deleteKey (h : Sound n k st c m chain ts) {rid : RID} (hk : k < fuel) :
    EndsWell n k fuel st (.deleteKey j key rid) c m chain := by
  refine .of_quiet (fun _ => rfl) ?_
  have hj := h.tree j
  rw [Structures.program, PoolM.wp, Program.wp_bind, hj.tree]
  refine Program.wp_mono (hj.ok.delete_ordered hj.order hj.fanned hj.holds
    (lt_of_le_of_lt hj.height_le hk)) fun r v hr => ?_
  obtain ⟨deleted, t, m', rfl, rfl, hev, hroot, hres, hin, hiff, hfanned⟩ := hr
  have hmem : deleted = decide ((key, rid) ∈ c.pairs j) := by
    rw [Bool.eq_iff_iff, decide_eq_true_iff]
    exact hiff.trans hj.entries.mem_iff
  have hperm : t.contents.Perm ((c.pairs j).erase (key, rid)) := by
    cases deleted with
    | true =>
      have herase := (hres.symm.trans hj.entries).erase (key, rid)
      rwa [List.erase_cons_head] at herase
    | false =>
      obtain ⟨rfl, -⟩ := hres
      rw [List.erase_of_not_mem (of_decide_eq_false hmem.symm)]
      exact hj.entries
  subst hmem
  have htree : st.db.setTree j t.tree = st.db := by
    have hsame : t.tree = st.db.trees j := by
      rw [hj.tree, TreeState.tree, TreeState.tree, hroot]
    rw [hsame, Structures.setTree, Function.update_eq_self]
  refine ⟨_, _, m', rfl, rfl, fun pool hpool =>
    ⟨_, chain, Function.update ts j t, .deleteKey, .refl chain,
    ?_⟩⟩
  have hs : Sound n (k + 1) ⟨pool, st.db.setTree j t.tree, st.returned, st.held,
      st.answers ++ [.flag (decide ((key, rid) ∈ c.pairs j))]⟩
      (c.setPairs j ((c.pairs j).erase (key, rid))) m' chain (Function.update ts j t) :=
    h.treeEvolves hev hin hperm hfanned hpool
  rwa [htree] at hs

theorem Sound.lookup (h : Sound n k st c m chain ts) (hk : k < fuel) :
    EndsWell n k fuel st (.lookup j key) c m chain := by
  refine .of_quiet (fun _ => rfl) ?_
  have hj := h.tree j
  rw [Structures.program, PoolM.wp, Program.wp_bind, hj.tree]
  refine hj.ok.lookup hj.order hj.holds PoolMode.serves_succeeds
    ⟨lt_of_le_of_lt hj.height_le hk, hj.chain_le.trans hk.le⟩ ?_
  refine ⟨_, _, m, rfl, rfl, fun pool hpool => ⟨c, chain, ts, .lookup ?_, .refl chain, ?_⟩⟩
  · exact (hj.entries.filter _).map _
  · exact h.unchanged hpool (Nat.le_succ_of_le h.held_le)

theorem Sound.rangeScan (h : Sound n k st c m chain ts) {low high : KeyType} (hk : k < fuel) :
    EndsWell n k fuel st (.rangeScan j low high) c m chain := by
  refine .of_quiet (fun _ => rfl) ?_
  have hj := h.tree j
  rw [Structures.program, PoolM.wp, Program.wp_bind, hj.tree]
  refine hj.ok.rangeScan hj.order hj.holds PoolMode.serves_succeeds
    ⟨lt_of_le_of_lt hj.height_le hk, hj.chain_le.trans hk.le⟩ fun hsorted => ?_
  refine ⟨_, _, m, rfl, rfl, fun pool hpool => ⟨c, chain, ts, .rangeScan ?_ ?_, .refl chain, ?_⟩⟩
  · exact hj.entries.filter _
  · exact hsorted.sublist List.filter_sublist
  · exact h.unchanged hpool (Nat.le_succ_of_le h.held_le)

/-! ## 2. The calls of the clients

Giving a page back, and flushing, concern no structure: the contents are as before. -/

theorem Sound.release (h : Sound n k st c m chain ts) {id : PageId}
    (hadm : Admits fuel st (.release id)) :
    Follows n k st (step fuel st (.release id)) (.release id) c chain := by
  have hmem : id ∈ st.held := hadm.2
  have hwp : (st.db.program fuel (.release id)).wp .succeeds
      (fun r v => r = some (.done, st.db) ∧ v = View.among n m (st.held.erase id))
      (View.among n m st.held) := by
    rw [Structures.program, PoolM.wp, Program.wp_bind]
    refine PoolM.wp_unpinPage (Nat.ne_of_gt (List.count_pos_iff.mpr hmem))
      (fun _ hc => absurd hc Bool.false_ne_true) ?_
    exact ⟨rfl, View.among_unpin⟩
  obtain ⟨_, ⟨hres, rfl⟩, hshows⟩ := h.shows.exec_succeeds hadm.1 hwp
  rw [step_of_some hres]
  refine ⟨.done, c, m, chain, ts, .release, rfl, .refl chain, h.unchanged hshows ?_⟩
  exact (List.length_erase_le).trans (Nat.le_succ_of_le h.held_le)

theorem Sound.flushAll (h : Sound n k st c m chain ts) :
    EndsWell n k fuel st .flushAll c m chain := by
  refine .of_quiet (fun _ => rfl) ?_
  exact ⟨_, _, m, rfl, rfl, fun pool hpool =>
    ⟨c, chain, ts, .flushAll, .refl chain, h.unchanged hpool (Nat.le_succ_of_le h.held_le)⟩⟩

/-! ## 3. Runs

A pin counter has 32 bits, and a run that is short enough cannot fill one.  The bound also covers
the pages that one call may hold at a time. -/

/-- **Every call ends well** in a quiet view, if it is allowed. -/
theorem Sound.endsWell (h : Sound n k st c m chain ts) (hallow : st.Allowed fuel op)
    (hop : ∀ id, op ≠ .release id)
    (hclean : ∀ j key rid, op = .insertKey j key rid → (ts j).Clean key rid) (hk : k < fuel)
    (hpins : k + 1 < 2 ^ 32) : EndsWell n k fuel st op c m chain := by
  cases op with
  | create i => exact h.create hallow
  | insert i a => exact h.insert hallow
  | bulk i records => exact h.bulk hallow
  | delete i rid => exact h.delete hallow
  | update i rid r => exact h.update hallow hpins
  | get i rid => exact h.get hallow
  | insertKey j key rid => exact h.insertKey (hclean j key rid rfl) hk
  | deleteKey j key rid => exact h.deleteKey hk
  | lookup j key => exact h.lookup hk
  | rangeScan j low high => exact h.rangeScan hk
  | release id => exact absurd rfl (hop id)
  | flushAll => exact h.flushAll

/-- **The step lemma.** -/
theorem Sound.step (h : Sound n k st c m chain ts) (hadm : Admits fuel st op) (hk : k < fuel)
    (hpins : k + (2 * fuel + 3) < 2 ^ 32) : Follows n k st (step fuel st op) op c chain := by
  by_cases hback : ∃ id, op = .release id
  · obtain ⟨id, rfl⟩ := hback
    exact h.release hadm
  · have hop : ∀ id, op ≠ .release id := fun id he => hback ⟨id, he⟩
    have hheld : st.held.length + 1 < 2 ^ 32 := by
      have hle := h.held_le
      omega
    refine h.follows hadm.1 hop hpins (h.endsWell hadm.2 hop (fun j key rid he => ?_) hk (by omega))
    subst he
    exact (h.tree j).clean h.shows hk hheld ((Program.callsOk_bind _ _ _).mp hadm.1).1 hadm.2

end Calls

omit [DecidableEq ι] [DecidableEq κ] in
/-- A new database on an idle pool. -/
theorem sound_start {b : BufferPoolManager} {m₀ : PageId → Option Page} (hb : b.Idle m₀) :
    Sound b.poolSize 0 ({ pool := b } : SharedPool ι κ) {} m₀ (fun _ => [])
      (fun _ => TreeState.empty) := by
  refine ⟨hb.shows, fun i => ⟨⟨List.nodup_nil, rfl, rfl, ?_, ?_, ?_⟩, rfl, ?_, rfl, ?_⟩,
    fun j => ⟨.empty, rfl, TreeState.holds_empty m₀, .empty, List.Perm.refl _,
      fun _ hx => absurd rfl hx, Nat.le_refl 0, Nat.le_refl 0⟩, fun x y _ id hx => ?_,
        Nat.le_refl 0⟩
  · simp
  · simp
  · simp
  · have hnone : HeapState.stored ⟨⟨invalidPageId, invalidPageId, 0, 0, []⟩, m₀, []⟩
        = fun _ => none := by
      funext rid
      simp [HeapState.stored]
    exact hnone ▸ Listing.empty
  · simp
  · cases x with
    | inl i => exact absurd hx List.not_mem_nil
    | inr j => exact absurd hx (by simp [owns, TreeState.empty])

/-- **The run lemma.** -/
theorem Sound.run {n fuel : Nat} {ops : List (SharedOp ι κ)} : ∀ {k : Nat} {st : SharedPool ι κ}
    {c : Contents ι κ} {m : PageId → Option Page} {chain : ι → List PageId} {ts : κ → TreeState},
    Sound n k st c m chain ts → k + ops.length ≤ fuel →
      k + ops.length + (2 * fuel + 3) < 2 ^ 32 →
      Run.StepsOk (SharedPool.step fuel) (Admits fuel) st ops →
      ∃ answers c' m' chain' ts', Contents.Trace c ops answers c' ∧
        (ops.foldl (SharedPool.step fuel) st).answers = st.answers ++ answers ∧
        Sound n (k + ops.length) (ops.foldl (SharedPool.step fuel) st) c' m' chain' ts' := by
  induction ops with
  | nil =>
    intro k st c m chain ts h _ _ _
    exact ⟨[], c, m, chain, ts, .nil, (List.append_nil _).symm, h⟩
  | cons op ops ih =>
    intro k st c m chain ts h hk hpins hok
    rw [List.length_cons] at hk hpins
    obtain ⟨a, d, m₁, chain₁, ts₁, hstep, hanswer, -, h₁⟩ := h.step hok.1 (by omega) (by omega)
    obtain ⟨answers, e, m', chain', ts', htrace, hanswers, h'⟩ := ih h₁ (by omega) (by omega) hok.2
    refine ⟨a :: answers, e, m', chain', ts', .cons hstep htrace, ?_, ?_⟩
    · rw [List.foldl_cons, hanswers, hanswer, List.append_assoc]
      rfl
    · rw [List.length_cons, Nat.add_comm ops.length 1, ← Nat.add_assoc]
      exact h'

/-! ## 4. The theorem -/

/-- What a database shows besides its answers: the pages that clients hold are pinned, each as often
as it is held, and no others; the counters are right; and a scan of a heap file visits the records
of its table once each. -/
def Agrees (st : SharedPool ι κ) (c : Contents ι κ) : Prop :=
  (∀ id, st.pool.pinsOf id = st.held.count id) ∧
    ∀ i, (st.db.heaps i).getRecordCount.toNat = (c.table i).length % 2 ^ 32 ∧
      ((st.db.heaps i).firstPageId ≠ invalidPageId → ∃ enough, ∀ fuel, enough < fuel →
        ((st.db.heaps i).scan fuel).CallsOk BufferPoolManager.handle Succeeds st.pool →
          ∃ l, (((st.db.heaps i).scan fuel).exec st.pool).1 = some l ∧
            l.Perm ((c.table i).map fun e => (e.1, some e.2)))

omit [DecidableEq ι] [DecidableEq κ] in
theorem Sound.agrees {n k : Nat} {st : SharedPool ι κ} {c : Contents ι κ}
    {m : PageId → Option Page} {chain : ι → List PageId} {ts : κ → TreeState}
    (h : Sound n k st c m chain ts) (hpins : k + 1 < 2 ^ 32) : Agrees st c := by
  refine ⟨h.shows.pins, fun i => ⟨?_, fun hcreated => ?_⟩⟩
  · rw [HeapFile.getRecordCount, (h.heap i).count, UInt32.toNat_ofNat']
  · have hi := h.heap i
    have hfirst : (chain i).head? = some (st.db.heaps i).firstPageId := hi.head hcreated
    have hheld : st.held.length + 1 < 2 ^ 32 := by
      have hle := h.held_le
      omega
    refine ⟨(HeapState.contents ⟨st.db.heaps i, m, chain i⟩).length + (chain i).length,
      fun fuel hfuel hok => ?_⟩
    have hwp : ((st.db.heaps i).scan fuel).wp .succeeds
      (fun r v => ∃ m' own, v = View.among n m' own ∧
        r = some (HeapState.contents ⟨st.db.heaps i, m, chain i⟩)) (View.quiet n m) :=
      hi.ok.scan PoolMode.serves_succeeds hfirst hfuel ⟨m, [], rfl, rfl⟩
    have htidy : ((st.db.heaps i).scan fuel).Tidy 1 (fun _ _ => True) [] :=
      Program.wp_mono (HeapFile.tidy_scan _ fuel Nat.zero_lt_one) fun _ _ _ => trivial
    obtain ⟨-, -, hres, -⟩ := h.shows.exec_among (P := fun r _ _ => r = some _) hok htidy hheld hwp
    exact ⟨_, hres, TableRun.contents_perm hi.ok hi.lists⟩

end SharedPool

end CourtDB
