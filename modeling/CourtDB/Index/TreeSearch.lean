/-
# Searching a tree

`FindLeafPage` follows one path (`Descends`) and holds one page at a time, so it needs one free
frame and ends with the leaf pinned, or, when a fetch is refused, with nothing pinned.  A key has
exactly one path, because `FindChild` is a function of the node; and the path is as long as the
level of the root, because each child is one level lower (`Shape.descends`).

`Lookup` and `RangeScan` go on along the chain of leaves, from the leaf that the descent has found.
What they return is a function of the entries on it (`lookupAlong`, `scanAlong`).  These functions
are written over the list of the leaves' entries, with the very conditions under which the source
stops:

* `Lookup` goes on to the next leaf only if that leaf is not empty and its first key is the one that
  is looked for.  An empty leaf, which `Delete` can leave behind, ends it.
* `RangeScan` goes on until it meets a key beyond the upper end; it does not stop at empty leaves.

A fetch that is refused ends both as if the chain ended there.  So with refusals what is returned is
that of a part of the chain, and the pins are right in any case.
-/
import CourtDB.Buffer.PageClient
import CourtDB.Index.TreeLeaves
import CourtDB.Index.TreePages
import Mathlib.Data.List.TakeWhile

namespace CourtDB

/-! ## 1. Paths

The path of a key through the nodes, as a relation.  That the program follows it is §2; that it
leads to the leaf where the key belongs is a matter of the order of the keys, which is not needed
here. -/

namespace NodeMap

/-- The path of a key from a node down to a leaf, through internal nodes. -/
inductive Descends (nodes : NodeMap) (key : KeyType) : PageId → List PageId → PageId → Prop
  | leaf {id : PageId} {n : LeafNode} (hn : nodes id = some (.leaf n)) :
      Descends nodes key id [] id
  | inner {id leaf : PageId} {n : InternalNode} {inner : List PageId}
      (hn : nodes id = some (.internal n))
      (h : Descends nodes key (n.getChildAt (n.findChild key defaultKeyComparator)) inner leaf) :
      Descends nodes key id (id :: inner) leaf

variable {nodes : NodeMap} {key : KeyType} {id leaf : PageId} {inner : List PageId}

/-- Paths end at leaves. -/
theorem Descends.leaf_mem (h : Descends nodes key id inner leaf) :
    ∃ n, nodes leaf = some (.leaf n) := by
  induction h with
  | leaf hn => exact ⟨_, hn⟩
  | inner hn _ ih => exact ih

theorem Descends.isSome (h : Descends nodes key id inner leaf) : (nodes id).isSome := by
  cases h with
  | leaf hn => rw [hn]; rfl
  | inner hn _ => rw [hn]; rfl

/-- A key has one path. -/
theorem Descends.unique {inner' : List PageId} {leaf' : PageId}
    (h : Descends nodes key id inner leaf) (h' : Descends nodes key id inner' leaf') :
    inner' = inner ∧ leaf' = leaf := by
  induction h generalizing inner' leaf' with
  | leaf hn =>
    cases h' with
    | leaf _ => exact ⟨rfl, rfl⟩
    | inner hn' _ => exact absurd (hn.symm.trans hn') (by simp)
  | inner hn _ ih =>
    cases h' with
    | leaf hn' => exact absurd (hn.symm.trans hn') (by simp)
    | inner hn' hrest =>
      obtain rfl := BTreeNode.internal.inj (Option.some.inj (hn.symm.trans hn'))
      obtain ⟨rfl, rfl⟩ := ih hrest
      exact ⟨rfl, rfl⟩

end NodeMap

open NodeMap

/-- **Every key has a path**, as long as the node's level. -/
theorem Shape.descends {nodes : NodeMap} {level : PageId → Nat} {root : PageId}
    (h : Shape nodes level root) (key : KeyType) (k : Nat) :
    ∀ id, (nodes id).isSome → level id = k →
      ∃ inner leaf, Descends nodes key id inner leaf ∧ inner.length = k := by
  induction k with
  | zero =>
    intro id hid hk
    obtain ⟨n, hn⟩ := Option.isSome_iff_exists.mp hid
    cases n with
    | leaf n => exact ⟨[], id, .leaf hn, rfl⟩
    | internal n => exact absurd (h.level_inner id _ (innerAt_of_some hn)) (by omega)
  | succ k ih =>
    intro id hid hk
    obtain ⟨n, hn⟩ := Option.isSome_iff_exists.mp hid
    cases n with
    | leaf n => exact absurd (h.level_leaf id _ (leafAt_of_some hn)) (by omega)
    | internal n =>
      have hfits : n.Fits := h.fits id _ hn
      obtain ⟨hc, hlevel⟩ := h.kid id (n.getChildAt (n.findChild key defaultKeyComparator))
        (by rw [kids_of_some hn]; exact InternalNode.getChildAt_mem hfits key defaultKeyComparator)
      obtain ⟨inner, leaf, hd, hlen⟩ := ih _ hc (by omega)
      exact ⟨id :: inner, leaf, .inner hn hd, by rw [List.length_cons, hlen]⟩

/-! ## 2. FindLeafPage

The next page is fetched after the last one was given back, so one frame is enough.  The induction
is on the path. -/

namespace PoolM

variable {mode : PoolMode} {ps : Refusals} {nodes : NodeMap} {id leaf root : PageId} {n : Nat}
  {m : PageId → Option Page} {key : KeyType} {inner : List PageId}

/-- Fetching a page while none is held. -/
theorem wpr_fetch_quiet {q : Page} {Q : Bool → Refusals × View → Prop}
    (hcan : mode.canFetch (View.quiet n m) ∧ ¬ mode.mayFail (View.quiet n m)) (h0 : id ≠ 0)
    (hq : m id = some q) (hrefused : ps.headD false = true → Q false (ps.tail, View.quiet n m))
    (hQ : ps.headD false = false → Q true (ps.tail, View.held n m id false)) :
    wpr mode (fetchPage id) Q (ps, View.quiet n m) := by
  refine ⟨hrefused, fun hr => ⟨h0, fun hn => ?_, fun _ => ⟨hcan.1, ?_, ?_, ?_⟩⟩⟩
  · exact absurd (hq.symm.trans hn) (by simp)
  · simp [View.quiet]
  · rw [View.quiet_pin]
    exact hQ hr
  · exact fun hf => absurd hf hcan.2

/-- Giving back the page that is held. -/
theorem wpr_unpin_held {c d : Bool} {Q : Bool → Refusals × View → Prop}
    (hd : c = true → d = true) (hQ : Q true (ps, View.quiet n m)) :
    wpr mode (unpinPage id d) Q (ps, View.held n m id c) := by
  refine wpr_unpinPage (by simp [View.held]) (fun _ hch => hd ?_) ?_
  · simpa [View.held] using hch
  · rw [View.held_unpin hd]
    exact hQ

theorem held_pos {c : Bool} : 0 < (View.held n m id c).pins id := by simp [View.held]

/-- **The loop of FindLeafPage**, along a path. -/
theorem wpr_descend (hcan : mode.canFetch (View.quiet n m) ∧ ¬ mode.mayFail (View.quiet n m))
    (hholds : Holds m nodes) (hids : ∀ id, (nodes id).isSome → id ≠ 0)
    (h : Descends nodes key id inner leaf) :
    ∀ {fuel : Nat} {ps : Refusals} {Q : Option (Option PageId) → Refusals × View → Prop},
      inner.length < fuel →
      (∀ ps', ¬ ps.Grants inner.length → Q (some none) (ps', View.quiet n m)) →
      (ps.Grants inner.length →
        Q (some (some leaf)) (ps.drop inner.length, View.held n m leaf false)) →
      wpr mode (BPlusTree.descend ⟨root, defaultKeyComparator⟩ key fuel id) Q
        (ps, View.held n m id false) := by
  induction h with
  | @leaf id k hn =>
    -- a leaf: nothing more is fetched
    intro fuel ps Q hfuel _ hQ
    obtain ⟨fuel, rfl⟩ := Nat.exists_eq_add_one_of_ne_zero (Nat.ne_zero_of_lt hfuel)
    rw [BPlusTree.descend, wpr, Program.wp_bind]
    refine wpr_readNode held_pos hholds hn fun q hq => ?_
    rw [if_pos hq.nodeType_leaf]
    exact hQ (Refusals.grants_zero ps)
  | @inner id leaf k inner hn hd ih =>
    -- an inner node: it is given back, its child is fetched, and the path is one node shorter
    intro fuel ps Q hfuel hrefused hQ
    obtain ⟨fuel, rfl⟩ := Nat.exists_eq_add_one_of_ne_zero (Nat.ne_zero_of_lt hfuel)
    rw [BPlusTree.descend, wpr, Program.wp_bind]
    refine wpr_readNode held_pos hholds hn fun q hq => ?_
    obtain ⟨hleaf, hnode⟩ := hq.ofPage_internal
    rw [if_neg hleaf, Program.wp_bind]
    refine wpr_unpin_held (fun h => absurd h Bool.false_ne_true) ?_
    simp only [hnode]
    rw [Program.wp_bind]
    have hs := hd.isSome
    obtain ⟨k', hk'⟩ := Option.isSome_iff_exists.mp hs
    obtain ⟨q', hq', -⟩ := hholds _ _ hk'
    rw [List.length_cons] at hfuel hrefused hQ
    -- the fetch is the first of those the path needs
    refine wpr_fetch_quiet hcan (hids _ hs) hq' (fun hr => ?_) fun hr => ?_
    · rw [if_neg Bool.false_ne_true]
      refine hrefused _ fun hg => ?_
      rw [Refusals.grants_succ, hr] at hg
      exact absurd hg.1 (by simp)
    · rw [if_pos rfl]
      -- the child was fetched, so the rest of the path decides
      refine ih (by omega) (fun ps' hng => ?_) fun hg => ?_
      · refine hrefused ps' fun hg => hng ?_
        exact ((Refusals.grants_succ ps _).mp hg).2
      · have hdrop := hQ ((Refusals.grants_succ ps _).mpr ⟨hr, hg⟩)
        rwa [Nat.add_comm, ← List.drop_drop, List.drop_one] at hdrop

/-- **FindLeafPage** leaves the leaf of the key pinned, unless one of its fetches is refused. -/
theorem wpr_findLeafPage {Q : Option (Option PageId) → Refusals × View → Prop}
    (hcan : mode.canFetch (View.quiet n m) ∧ ¬ mode.mayFail (View.quiet n m))
    (hholds : Holds m nodes) (hids : ∀ id, (nodes id).isSome → id ≠ 0)
    (h : Descends nodes key root inner leaf) {fuel : Nat} (hfuel : inner.length < fuel)
    (hrefused : ∀ ps', ¬ ps.Grants (inner.length + 1) → Q (some none) (ps', View.quiet n m))
    (hQ : ps.Grants (inner.length + 1) →
      Q (some (some leaf)) (ps.drop (inner.length + 1), View.held n m leaf false)) :
    wpr mode (BPlusTree.findLeafPage fuel ⟨root, defaultKeyComparator⟩ key) Q
      (ps, View.quiet n m) := by
  obtain ⟨k, hk⟩ := Option.isSome_iff_exists.mp h.isSome
  obtain ⟨q, hq, -⟩ := hholds _ _ hk
  rw [BPlusTree.findLeafPage, wpr, Program.wp_bind]
  refine wpr_fetch_quiet hcan (hids _ h.isSome) hq (fun hr => ?_) fun hr => ?_
  · -- the fetch of the root is the first
    rw [if_neg Bool.false_ne_true]
    refine hrefused _ fun hg => ?_
    rw [Refusals.grants_succ, hr] at hg
    exact absurd hg.1 (by simp)
  · rw [if_pos rfl]
    -- the others are those of the loop
    refine wpr_descend hcan hholds hids h hfuel (fun ps' hng => ?_) fun hg => ?_
    · refine hrefused ps' fun hg => hng ?_
      exact ((Refusals.grants_succ ps _).mp hg).2
    · have hdrop := hQ ((Refusals.grants_succ ps _).mpr ⟨hr, hg⟩)
      rwa [Nat.add_comm, ← List.drop_drop, List.drop_one] at hdrop

end PoolM

/-! ## 3. Walking the chain

The chain is a list of leaves (`Segment` of the links between them), and fuel beyond its length is
enough for the loops.  Each round fetches a leaf, reads it, and gives it back before the next one is
fetched. -/

namespace NodeMap

/-- What the loop of `Lookup` adds to its results on the leaves that follow. -/
def lookupAlong (nodes : NodeMap) (key : KeyType) : List PageId → List RID → List RID
  | [], results => results
  | id :: rest, results =>
    if results = [] ∨ ((nodes.entriesAt id).head?.map Prod.fst) ≠ some key then results
    else nodes.lookupAlong key rest
      (results ++ ((nodes.entriesAt id).filter fun e => e.1 = key).map Prod.snd)

/-- What `RangeScan` returns from the leaves from its first one on. -/
def scanAlong (nodes : NodeMap) (low high : KeyType) : List PageId → List (KeyType × RID)
  | [] => []
  | id :: rest =>
    let visited := (nodes.entriesAt id).dropWhile fun e => e.1.toNat < low.toNat
    if visited.all fun e => e.1.toNat ≤ high.toNat then visited ++ nodes.scanAlong low high rest
    else visited.takeWhile fun e => e.1.toNat ≤ high.toNat

end NodeMap

/-- A page with a link holds a leaf. -/
theorem leaf_of_next {nodes : NodeMap} {id nx : PageId} (h : nodes.next id = some nx) :
    ∃ k, nodes id = some (.leaf k) ∧ k.header.nextPageId = nx := by
  unfold next leafAt at h
  split at h
  · exact ⟨_, by assumption, Option.some.inj h⟩
  · exact absurd h (by simp)
  · exact absurd h (by simp)

namespace PoolM

variable {mode : PoolMode} {nodes : NodeMap} {id leaf root : PageId} {n : Nat}
  {m : PageId → Option Page} {key low high : KeyType} {inner l₂ : List PageId}

/-- A leaf has no entries, or does not start with the key. -/
theorem stops_iff {k : LeafNode} (hfits : k.Fits) (key : KeyType) :
    (k.header.numKeys = 0 ∨ defaultKeyComparator (k.getKeyAt 0) key ≠ 0)
      ↔ (k.entries.head?.map Prod.fst) ≠ some key := by
  -- the header counts the entries, so it is zero exactly if there are none
  have hzero : k.header.numKeys = 0 ↔ k.entries = [] := by
    rw [← UInt16.toNat_inj, ← hfits.length]
    exact List.length_eq_zero_iff
  rw [hzero, Ne, defaultKeyComparator_eq_zero, LeafNode.getKeyAt, LeafNode.getKeys]
  cases k.entries with
  | nil => simp
  | cons e es => simp

/-- **The loop of Lookup** along the chain. -/
theorem wpr_lookupNext (hserve : mode.Serves n 0) (hholds : Holds m nodes)
    (hids : ∀ id, (nodes id).isSome → id ≠ 0 ∧ id ≠ invalidPageId)
    (hfits : ∀ id k, nodes id = some (.leaf k) → k.Fits ∧ SortedEntries k.entries)
    (l : List PageId) : ∀ {id : PageId} {results : List RID} {fuel : Nat}
      {Q : Option (List RID) → Refusals × View → Prop},
      Segment nodes.next id l invalidPageId → l.length < fuel →
      Q (some (nodes.lookupAlong key l results)) ([], View.quiet n m) →
      wpr mode (BPlusTree.lookupNext ⟨root, defaultKeyComparator⟩ key fuel id results) Q
        ([], View.quiet n m) := by
  induction l with
  | nil =>
    -- the end of the chain
    intro id results fuel Q hseg hfuel hQ
    obtain ⟨fuel, rfl⟩ := Nat.exists_eq_add_one_of_ne_zero (Nat.ne_zero_of_lt hfuel)
    obtain rfl : id = invalidPageId := hseg
    rw [BPlusTree.lookupNext, if_neg fun h => h.1 rfl]
    exact hQ
  | cons id' l ih =>
    -- a leaf that follows
    intro id results fuel Q hseg hfuel hQ
    obtain ⟨fuel, rfl⟩ := Nat.exists_eq_add_one_of_ne_zero (Nat.ne_zero_of_lt hfuel)
    obtain ⟨rfl, nx, hnx, hrest⟩ := hseg
    obtain ⟨k, hk, hnext⟩ := leaf_of_next hnx
    have hs : (nodes id).isSome := by rw [hk]; rfl
    obtain ⟨hkfits, hksorted⟩ := hfits id k hk
    rw [lookupAlong, entriesAt_of_leaf hk] at hQ
    rw [BPlusTree.lookupNext]
    -- nothing was found in the leaf before, so the loop ends
    by_cases hres : results = []
    · rw [if_neg fun h => h.2 hres]
      rw [if_pos (Or.inl hres)] at hQ
      exact hQ
    · rw [if_pos ⟨(hids id hs).2, hres⟩, wpr, Program.wp_bind]
      obtain ⟨q, hq, -⟩ := hholds _ _ hk
      refine wpr_fetch_quiet (hserve _ rfl View.pinsAtMost_quiet) (hids id hs).1 hq
        (fun hr => absurd hr (by simp)) fun _ => ?_
      rw [if_pos rfl, Program.wp_bind]
      refine LeafNode.wpr_load held_pos hholds hk ?_
      rw [Program.wp_bind]
      refine wpr_unpin_held (fun h => absurd h Bool.false_ne_true) ?_
      -- it ends too at a leaf that does not start with the key
      by_cases hstop : (k.entries.head?.map Prod.fst) ≠ some key
      · rw [if_pos ((stops_iff hkfits key).mpr hstop)]
        rw [if_pos (Or.inr hstop)] at hQ
        exact hQ
      · -- else the entries of the key are added
        rw [if_neg fun h => hstop ((stops_iff hkfits key).mp h), hnext,
          LeafNode.findAll_eq hkfits hksorted]
        rw [if_neg fun h => h.elim hres hstop] at hQ
        exact ih hrest (Nat.lt_of_succ_lt_succ hfuel) hQ

/-- **Lookup** returns the record ids of the key in its leaf and in those that follow. -/
theorem wpr_lookup {Q : Option (List RID) → Refusals × View → Prop} (hserve : mode.Serves n 0)
    (hholds : Holds m nodes) (hids : ∀ id, (nodes id).isSome → id ≠ 0 ∧ id ≠ invalidPageId)
    (hfits : ∀ id k, nodes id = some (.leaf k) → k.Fits ∧ SortedEntries k.entries)
    (h : Descends nodes key root inner leaf) (hseg : Segment nodes.next leaf (leaf :: l₂)
      invalidPageId) {fuel : Nat} (hfuel : inner.length < fuel ∧ l₂.length < fuel)
    (hQ : Q (some (nodes.lookupAlong key l₂
      (((nodes.entriesAt leaf).filter fun e => e.1 = key).map Prod.snd))) ([], View.quiet n m)) :
    wpr mode (BPlusTree.lookup fuel ⟨root, defaultKeyComparator⟩ key) Q ([], View.quiet n m) := by
  rw [BPlusTree.lookup, if_neg (hids root h.isSome).2, wpr, Program.wp_bind]
  refine wpr_findLeafPage (hserve _ rfl View.pinsAtMost_quiet) hholds (fun id hs => (hids id hs).1)
    h hfuel.1 (fun ps' hng => absurd (Refusals.grants_nil _) hng) fun _ => ?_
  obtain ⟨k, hk⟩ := h.leaf_mem
  obtain ⟨hkfits, hksorted⟩ := hfits leaf k hk
  -- the leaf found is the head of its part of the chain
  obtain ⟨-, nx, hnx, hrest⟩ := hseg
  have hnext : k.header.nextPageId = nx := by
    rw [next, leafAt_of_some hk] at hnx
    exact Option.some.inj hnx
  rw [entriesAt_of_leaf hk] at hQ
  rw [List.drop_nil]
  simp only []
  rw [Program.wp_bind]
  refine LeafNode.wpr_load held_pos hholds hk ?_
  rw [Program.wp_bind]
  refine wpr_unpin_held (fun h => absurd h Bool.false_ne_true) ?_
  rw [LeafNode.findAll_eq hkfits hksorted, hnext]
  exact wpr_lookupNext hserve hholds hids hfits l₂ hrest hfuel.2 hQ

/-- What the loop of `RangeScan` finds in a leaf. -/
theorem takeWhile_visited (l : List (KeyType × RID)) (high : KeyType) :
    (l.takeWhile fun e => defaultKeyComparator e.1 high ≤ 0)
      = l.takeWhile fun e => e.1.toNat ≤ high.toNat := by
  simp only [defaultKeyComparator_nonpos]

/-- The loop of `RangeScan` stops inside a leaf exactly if an entry is above the range. -/
theorem length_takeWhile_lt_iff {α : Type} (p : α → Bool) (l : List α) :
    (l.takeWhile p).length < l.length ↔ ¬ l.all p = true := by
  induction l with
  | nil => simp
  | cons a l ih =>
    by_cases ha : p a = true
    · simp [List.takeWhile_cons_of_pos ha, ha, ih]
    · simp [List.takeWhile_cons_of_neg ha, ha]

/-- The scan of a leaf and of those behind it. -/
theorem scanAlong_leaf {k : LeafNode} (hk : nodes id = some (.leaf k)) (l : List PageId) :
    nodes.scanAlong low high (id :: l)
      = if (k.atLeast low).all fun e => e.1.toNat ≤ high.toNat then
          k.atLeast low ++ nodes.scanAlong low high l
        else (k.atLeast low).takeWhile fun e => e.1.toNat ≤ high.toNat := by
  rw [scanAlong, entriesAt_of_leaf hk]
  rfl

/-- One round of the loop of `RangeScan`. -/
theorem wpr_scanLeaf {results : List (KeyType × RID)} {fuel : Nat} {k : LeafNode}
    {Q : Option (List (KeyType × RID)) → Refusals × View → Prop} (hholds : Holds m nodes)
    (hk : nodes id = some (.leaf k)) (hfits : k.Fits) (hsorted : SortedEntries k.entries)
    (hpast : ((k.atLeast low).all fun e => e.1.toNat ≤ high.toNat) ≠ true →
      Q (some (results ++ (k.atLeast low).takeWhile fun e => e.1.toNat ≤ high.toNat))
        ([], View.quiet n m))
    (hlast : ((k.atLeast low).all fun e => e.1.toNat ≤ high.toNat) = true →
      k.header.nextPageId = invalidPageId →
      Q (some (results ++ k.atLeast low)) ([], View.quiet n m))
    (hmore : ((k.atLeast low).all fun e => e.1.toNat ≤ high.toNat) = true →
      k.header.nextPageId ≠ invalidPageId →
      wpr mode (fetchPage k.header.nextPageId) (fun fetched s => wpr mode
        (if fetched then BPlusTree.scanLeaves ⟨root, defaultKeyComparator⟩ low high fuel
          k.header.nextPageId (results ++ k.atLeast low)
        else return some (results ++ k.atLeast low)) Q s) ([], View.quiet n m)) :
    wpr mode (BPlusTree.scanLeaves ⟨root, defaultKeyComparator⟩ low high (fuel + 1) id results) Q
      ([], View.held n m id false) := by
  rw [BPlusTree.scanLeaves, wpr, Program.wp_bind]
  refine LeafNode.wpr_load held_pos hholds hk ?_
  simp only [LeafNode.entriesFrom_eq hfits hsorted, takeWhile_visited]
  rw [Program.wp_bind]
  refine wpr_unpin_held (fun h => absurd h Bool.false_ne_true) ?_
  -- all entries are in range: the scan goes on with the next leaf, if there is one
  by_cases hall : ((k.atLeast low).all fun e => e.1.toNat ≤ high.toNat) = true
  · have hwhole : ((k.atLeast low).takeWhile fun e => e.1.toNat ≤ high.toNat) = k.atLeast low :=
      List.takeWhile_eq_self_iff.mpr (List.all_eq_true.mp hall)
    rw [hwhole, if_neg (Nat.lt_irrefl _)]
    by_cases hnext : k.header.nextPageId = invalidPageId
    · rw [if_pos hnext]
      exact hlast hall hnext
    · rw [if_neg hnext, Program.wp_bind]
      exact hmore hall hnext
  · -- an entry above the range ends the scan
    rw [if_pos ((length_takeWhile_lt_iff _ _).mpr hall)]
    exact hpast hall

/-- **The loop of RangeScan** along the chain, from a leaf that is held. -/
theorem wpr_scanLeaves (hserve : mode.Serves n 0) (hholds : Holds m nodes)
    (hids : ∀ id, (nodes id).isSome → id ≠ 0 ∧ id ≠ invalidPageId)
    (hfits : ∀ id k, nodes id = some (.leaf k) → k.Fits ∧ SortedEntries k.entries)
    (l : List PageId) : ∀ {id : PageId} {results : List (KeyType × RID)} {fuel : Nat}
      {Q : Option (List (KeyType × RID)) → Refusals × View → Prop},
      Segment nodes.next id (id :: l) invalidPageId → l.length < fuel →
      Q (some (results ++ nodes.scanAlong low high (id :: l))) ([], View.quiet n m) →
      wpr mode (BPlusTree.scanLeaves ⟨root, defaultKeyComparator⟩ low high fuel id results) Q
        ([], View.held n m id false) := by
  induction l with
  | nil =>
    -- the last leaf
    intro id results fuel Q hseg hfuel hQ
    obtain ⟨fuel, rfl⟩ := Nat.exists_eq_add_one_of_ne_zero (Nat.ne_zero_of_lt hfuel)
    obtain ⟨-, nx, hnx, hrest⟩ := hseg
    obtain ⟨k, hk, rfl⟩ := leaf_of_next hnx
    obtain ⟨hkfits, hksorted⟩ := hfits id k hk
    rw [scanAlong_leaf hk] at hQ
    refine wpr_scanLeaf hholds hk hkfits hksorted (fun hpast => ?_) (fun hall _ => ?_)
      fun _ hne => absurd hrest hne
    · rwa [if_neg hpast] at hQ
    · rwa [if_pos hall, scanAlong, List.append_nil] at hQ
  | cons id' l ih =>
    -- a leaf with a next one
    intro id results fuel Q hseg hfuel hQ
    obtain ⟨fuel, rfl⟩ := Nat.exists_eq_add_one_of_ne_zero (Nat.ne_zero_of_lt hfuel)
    obtain ⟨-, nx, hnx, hrest⟩ := hseg
    obtain ⟨k, hk, rfl⟩ := leaf_of_next hnx
    obtain ⟨hkfits, hksorted⟩ := hfits id k hk
    have hhead := hrest
    obtain ⟨hid', nx', hnx', -⟩ := hhead
    subst hid'
    obtain ⟨k', hk', -⟩ := leaf_of_next hnx'
    have hs : (nodes k.header.nextPageId).isSome := by rw [hk']; rfl
    obtain ⟨q, hq, -⟩ := hholds _ _ hk'
    rw [scanAlong_leaf hk] at hQ
    refine wpr_scanLeaf hholds hk hkfits hksorted (fun hpast => ?_)
      (fun _ hlast => absurd hlast (hids _ hs).2) fun hall _ => ?_
    · -- past the range nothing is fetched
      rwa [if_neg hpast] at hQ
    · -- else the next leaf is
      refine wpr_fetch_quiet (hserve _ rfl View.pinsAtMost_quiet) (hids _ hs).1 hq
        (fun hr => absurd hr (by simp)) fun _ => ?_
      rw [if_pos rfl]
      refine ih hrest (Nat.lt_of_succ_lt_succ hfuel) ?_
      rwa [if_pos hall, ← List.append_assoc] at hQ

/-- **RangeScan** returns the entries of the range from the leaf of its lower end on. -/
theorem wpr_rangeScan {Q : Option (List (KeyType × RID)) → Refusals × View → Prop}
    (hserve : mode.Serves n 0) (hholds : Holds m nodes)
    (hids : ∀ id, (nodes id).isSome → id ≠ 0 ∧ id ≠ invalidPageId)
    (hfits : ∀ id k, nodes id = some (.leaf k) → k.Fits ∧ SortedEntries k.entries)
    (h : Descends nodes low root inner leaf) (hseg : Segment nodes.next leaf (leaf :: l₂)
      invalidPageId) {fuel : Nat} (hfuel : inner.length < fuel ∧ l₂.length < fuel)
    (hQ : Q (some (nodes.scanAlong low high (leaf :: l₂))) ([], View.quiet n m)) :
    wpr mode (BPlusTree.rangeScan fuel ⟨root, defaultKeyComparator⟩ low high) Q
      ([], View.quiet n m) := by
  rw [BPlusTree.rangeScan, if_neg (hids root h.isSome).2, wpr, Program.wp_bind]
  refine wpr_findLeafPage (hserve _ rfl View.pinsAtMost_quiet) hholds (fun id hs => (hids id hs).1)
    h hfuel.1 (fun ps' hng => absurd (Refusals.grants_nil _) hng) fun _ => ?_
  rw [List.drop_nil]
  refine wpr_scanLeaves hserve hholds hids hfits l₂ hseg hfuel.2 ?_
  rwa [List.nil_append]

end PoolM

end CourtDB
