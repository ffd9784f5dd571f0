/-
# Heap files and trees on one buffer pool

`SharedPool` is a database: any number of heap files and B+ trees over one buffer pool, whose
clients call their operations in any order.  A client that reads a record with `GetRecord` has its
page pinned until it gives it back, so operations run beside the pins of others (`PoolM.wp_beside`).

Every page belongs to at most one structure (`Apart`), because each gets its pages from `NewPage`,
and an operation changes only pages of its own.  So a structure does not notice the others: the
answers of a run are those of the abstract database (`answers_abstract`, in the next module).

The proof of a call is in three parts, and only the first is about the structure:

* what the operation does in a quiet view, where nobody else has a page pinned.  This is what the
  modules on heap files and trees say (`EndsWell`);
* that its program is tidy: it gives back what it takes and touches no pins of others.  So it does
  the same in the view where clients hold pages (`Sound.follows`);
* that the other structures keep their pages and what they hold (`Sound.heapChange`,
  `Sound.treeChange`).

`Sound` is the invariant of a run.  It lists, for each structure, that it stands on the pages and is
faithful to its part of the contents; that pages belong to one structure; and that the record ids
which a heap file has returned stay ones of its chain, so that a client may come back with one
later.
-/
import CourtDB.Heap.HeapPins
import CourtDB.Heap.HeapUpdate
import CourtDB.Index.TreeHeight
import CourtDB.Index.TreePins
import CourtDB.Shared.Contents

namespace CourtDB

open BufferPoolManager

/-! ## 1. Runs

A state has the structures, the pool, and what clients know: the record ids they were given, the
pages they hold, and the answers so far.  `Admits` is asked of each call at its state; every part of
it can be decided, so a run can be checked by evaluation. -/

/-- The structures of a database. -/
structure Structures (ι κ : Type) where
  heaps : ι → HeapFile := fun _ => ⟨invalidPageId, invalidPageId, 0, 0, []⟩
  trees : κ → BPlusTree := fun _ => {}

/-- A database on its pool: its structures, the record ids that each heap file has returned, the
pages that clients hold through `GetRecord`, and all answers. -/
structure SharedPool (ι κ : Type) where
  pool : BufferPoolManager
  db : Structures ι κ := {}
  returned : ι → List RID := fun _ => []
  held : List PageId := []
  answers : List Answer := []

variable {ι κ : Type} [DecidableEq ι] [DecidableEq κ]

namespace Structures

def setHeap (db : Structures ι κ) (i : ι) (h : HeapFile) : Structures ι κ :=
  { db with heaps := Function.update db.heaps i h }

def setTree (db : Structures ι κ) (j : κ) (t : BPlusTree) : Structures ι κ :=
  { db with trees := Function.update db.trees j t }

/-- The program behind a call.  Loops over a tree have `fuel`; without it, and for a record that
meets the null pointer of `BulkInsert`, there is no result. -/
def program (fuel : Nat) (db : Structures ι κ) :
    SharedOp ι κ → PoolM (Option (Answer × Structures ι κ))
  | .create i => do
    let heap ← HeapFile.create
    return some (.done, db.setHeap i heap)
  | .insert i a => do
    let (rid, heap) ← (db.heaps i).insertRecord a
    return some (.ids [rid], db.setHeap i heap)
  | .bulk i records => do
    return (← (db.heaps i).bulkInsert records).map fun r => (.ids r.1, db.setHeap i r.2)
  | .delete i rid => do
    let (deleted, heap) ← (db.heaps i).deleteRecord rid
    return some (.flag deleted, db.setHeap i heap)
  | .update i rid r => do
    let (rid', heap) ← (db.heaps i).updateRecord rid r
    return some (.ids [rid'], db.setHeap i heap)
  | .get _ rid => do
    return some (.record (← HeapFile.getRecord rid), db)
  | .insertKey j key rid => do
    return (← (db.trees j).insert fuel key rid).map fun r => (.flag r.1, db.setTree j r.2)
  | .deleteKey j key rid => do
    return (← (db.trees j).delete fuel key rid).map fun b => (.flag b, db)
  | .lookup j key => do
    return (← (db.trees j).lookup fuel key).map fun rids => (.ids rids, db)
  | .rangeScan j low high => do
    return (← (db.trees j).rangeScan fuel low high).map fun entries => (.pairs entries, db)
  | .release id => do
    let _ ← unpinPage id false
    return some (.done, db)
  | .flushAll => do
    flushAllPages
    return some (.done, db)

end Structures

namespace SharedPool

/-- The record ids that a heap file has returned after a call. -/
def learn (returned : ι → List RID) : SharedOp ι κ → Answer → ι → List RID
  | .insert i _, .ids rids | .bulk i _, .ids rids | .update i _ _, .ids rids =>
    Function.update returned i (returned i ++ rids)
  | _, _ => returned

/-- The pages that clients hold after a call. -/
def holding (held : List PageId) : SharedOp ι κ → Answer → List PageId
  | .get _ rid, .record (some _) => rid.pageId :: held
  | .release id, _ => held.erase id
  | _, _ => held

/-- One call. -/
def step (fuel : Nat) (st : SharedPool ι κ) (op : SharedOp ι κ) : SharedPool ι κ :=
  match (st.db.program fuel op).exec st.pool with
  | (some (a, db), pool) =>
    ⟨pool, db, learn st.returned op a, holding st.held op a, st.answers ++ [a]⟩
  | (none, pool) => { st with pool := pool }

/-- What is asked of an update: the record is there, and its page has room for the new one if it
accepts it. -/
def Updatable (b : BufferPoolManager) (rid : RID) (r : RecordData) : Prop :=
  rid.isValid = true ∧ ∃ p ∈ b.pageOf rid.pageId,
    (p.getRecord rid.slotId).isSome ∧ ¬ p.RelocatesBeyond rid.slotId r

instance (b : BufferPoolManager) (rid : RID) (r : RecordData) : Decidable (Updatable b rid r) :=
  inferInstanceAs (Decidable (_ ∧ _))

/-- What is asked of a call: a heap file is created once, before it is used; a record id that is
deleted, updated or read is one that its heap file returned; a page that is given back is held; and
a leaf of a tree is not split within a run of equal keys. -/
def Allowed (fuel : Nat) (st : SharedPool ι κ) : SharedOp ι κ → Prop
  | .create i => (st.db.heaps i).firstPageId = invalidPageId
  | .insert i _ | .bulk i _ => (st.db.heaps i).firstPageId ≠ invalidPageId
  | .delete i rid | .get i rid => rid ∈ st.returned i
  | .update i rid r => rid ∈ st.returned i ∧ Updatable st.pool rid r
  | .insertKey j key rid => TreeRun.KeepsRuns fuel ⟨st.pool, st.db.trees j, [], []⟩
      (.insert key rid)
  | .release id => id ∈ st.held
  | .deleteKey _ _ _ | .lookup _ _ | .rangeScan _ _ _ | .flushAll => True

/-- The calls of the operation on the pool succeed, and it is allowed. -/
def Admits (fuel : Nat) (st : SharedPool ι κ) (op : SharedOp ι κ) : Prop :=
  (st.db.program fuel op).CallsOk BufferPoolManager.handle Succeeds st.pool ∧ st.Allowed fuel op

instance (fuel : Nat) (st : SharedPool ι κ) : DecidablePred (st.Allowed fuel)
  | .create i => inferInstanceAs (Decidable ((st.db.heaps i).firstPageId = invalidPageId))
  | .insert i _ | .bulk i _ =>
    inferInstanceAs (Decidable ((st.db.heaps i).firstPageId ≠ invalidPageId))
  | .delete i rid | .get i rid => inferInstanceAs (Decidable (rid ∈ st.returned i))
  | .update i rid r => inferInstanceAs (Decidable (rid ∈ st.returned i ∧ Updatable st.pool rid r))
  | .insertKey j key rid => inferInstanceAs
    (Decidable (TreeRun.KeepsRuns fuel ⟨st.pool, st.db.trees j, [], []⟩ (.insert key rid)))
  | .release id => inferInstanceAs (Decidable (id ∈ st.held))
  | .deleteKey _ _ _ | .lookup _ _ | .rangeScan _ _ _ | .flushAll =>
    inferInstanceAs (Decidable True)

instance (fuel : Nat) (st : SharedPool ι κ) : DecidablePred (st.Admits fuel) :=
  fun _ => inferInstanceAs (Decidable (_ ∧ _))

/-! ## 2. Pages and their owners

A heap file owns the pages of its chain, and a tree the pages that hold its nodes. -/

/-- No page belongs to two parts of the database. -/
def Apart {ξ : Type} (owns : ξ → PageId → Prop) : Prop :=
  ∀ x y, x ≠ y → ∀ id, owns x id → ¬ owns y id

/-- A part that takes only pages that did not exist stays apart from the others. -/
theorem Apart.change {ξ : Type} {owns owns' : ξ → PageId → Prop} {m : PageId → Option Page} {x : ξ}
    (h : Apart owns) (hexist : ∀ y id, owns y id → (m id).isSome)
    (hsame : ∀ y, y ≠ x → owns' y = owns y) (hnew : ∀ id, owns' x id → owns x id ∨ m id = none) :
    Apart owns' ∧ ∀ y, y ≠ x → ∀ id, owns y id → ¬ owns' x id := by
  have hother : ∀ y, y ≠ x → ∀ id, owns y id → ¬ owns' x id := by
    intro y hy id hid hx
    rcases hnew id hx with hold | hfresh
    · exact h y x hy id hid hold
    · have hs := hexist y id hid
      rw [hfresh] at hs
      exact absurd hs (by simp)
  refine ⟨fun y z hyz id hy hz => ?_, hother⟩
  by_cases hyx : y = x
  · obtain rfl := hyx
    rw [hsame z (Ne.symm hyz)] at hz
    exact hother z (Ne.symm hyz) id hz hy
  · rw [hsame y hyx] at hy
    by_cases hzx : z = x
    · obtain rfl := hzx
      exact hother y hyx id hy hz
    · rw [hsame z hzx] at hz
      exact h y z hyz id hy hz

/-- The pages of a heap file, or of a tree. -/
def owns (chain : ι → List PageId) (ts : κ → TreeState) : ι ⊕ κ → PageId → Prop
  | .inl i, id => id ∈ chain i
  | .inr j, id => ((ts j).nodes id).isSome

/-! ## 3. The invariant

For each structure there is a witness of its own: the chain of a heap file, and the nodes of a tree.
They are functions of the structure's name, and a call changes one value of one of them. -/

/-- A heap file stands, and stores what its table says. -/
structure HeapFaithful (s : HeapState) (table : List (RID × List UInt8)) (returned : List RID) :
    Prop where
  ok : s.Ok
  first : s.chain.head?.getD invalidPageId = s.heap.firstPageId
  lists : Listing table s.stored
  count : s.heap.recordCount = UInt32.ofNat table.length
  returned : ∀ rid ∈ returned, rid.isValid = true → rid.pageId ∈ s.chain

/-- A tree stands in order on the pages `m`, and its entries are `pairs`. -/
structure TreeFaithful (k : Nat) (m : PageId → Option Page) (t : TreeState) (tree : BPlusTree)
    (pairs : List (KeyType × RID)) : Prop where
  ok : t.Ok
  tree : tree = t.tree
  holds : Holds m t.nodes
  order : t.InOrder
  entries : t.contents.Perm pairs
  fanned : Fanned t.nodes t.root
  chain_le : t.chain.length ≤ k
  height_le : t.height ≤ k

/-- After at most `k` calls the structures of `st` stand, apart from each other, on the pages `m`,
and are faithful to the contents `c`. -/
structure Sound (n k : Nat) (st : SharedPool ι κ) (c : Contents ι κ) (m : PageId → Option Page)
    (chain : ι → List PageId) (ts : κ → TreeState) : Prop where
  shows : st.pool.Shows (View.among n m st.held)
  heap : ∀ i, HeapFaithful ⟨st.db.heaps i, m, chain i⟩ (c.table i) (st.returned i)
  tree : ∀ j, TreeFaithful k m (ts j) (st.db.trees j) (c.pairs j)
  apart : Apart (owns chain ts)
  held_le : st.held.length ≤ k

section Parts

variable {n k : Nat} {st : SharedPool ι κ} {c : Contents ι κ} {m m' : PageId → Option Page}
  {chain : ι → List PageId} {ts : κ → TreeState} {i : ι} {j : κ}

omit [DecidableEq ι] [DecidableEq κ] in
/-- The chain of a heap file that was created begins with its first page. -/
theorem HeapFaithful.head {s : HeapState} {table : List (RID × List UInt8)} {returned : List RID}
    (h : HeapFaithful s table returned) (hcreated : s.heap.firstPageId ≠ invalidPageId) :
    s.chain.head? = some s.heap.firstPageId := by
  have hfirst := h.first
  cases hhead : s.chain.head? with
  | none =>
    rw [hhead, Option.getD_none] at hfirst
    exact absurd hfirst.symm hcreated
  | some id =>
    rw [hhead, Option.getD_some] at hfirst
    rw [hfirst]

theorem HeapFaithful.congr {s : HeapState} {table : List (RID × List UInt8)} {returned : List RID}
    (h : HeapFaithful s table returned) (hm : ∀ id ∈ s.chain, m id = s.pages id) :
    HeapFaithful { s with pages := m } table returned := by
  obtain ⟨hok, hstored⟩ := h.ok.congr_pages hm
  exact ⟨hok, h.first, hstored ▸ h.lists, h.count, h.returned⟩

theorem TreeFaithful.congr {t : TreeState} {tree : BPlusTree} {pairs : List (KeyType × RID)}
    (h : TreeFaithful k m t tree pairs) (hm : ∀ id, (t.nodes id).isSome → m' id = m id) :
    TreeFaithful k m' t tree pairs := by
  refine ⟨h.ok, h.tree, fun id n hn => ?_, h.order, h.entries, h.fanned, h.chain_le, h.height_le⟩
  rw [hm id (by rw [hn]; rfl)]
  exact h.holds id n hn

theorem TreeFaithful.mono {t : TreeState} {tree : BPlusTree} {pairs : List (KeyType × RID)}
    (h : TreeFaithful k m t tree pairs) : TreeFaithful (k + 1) m t tree pairs :=
  ⟨h.ok, h.tree, h.holds, h.order, h.entries, h.fanned, Nat.le_succ_of_le h.chain_le,
    Nat.le_succ_of_le h.height_le⟩

variable (h : Sound n k st c m chain ts)

include h

omit [DecidableEq ι] [DecidableEq κ] in
theorem Sound.mono : Sound n (k + 1) st c m chain ts :=
  ⟨h.shows, h.heap, fun j => (h.tree j).mono, h.apart, Nat.le_succ_of_le h.held_le⟩

omit [DecidableEq ι] [DecidableEq κ] in
/-- Every page of the database exists. -/
theorem Sound.exist (x : ι ⊕ κ) (id : PageId) (hid : owns chain ts x id) : (m id).isSome := by
  cases x with
  | inl i =>
    obtain ⟨q, hq, -⟩ := (h.heap i).ok.layout id hid
    exact Option.isSome_of_eq_some hq
  | inr j =>
    obtain ⟨node, hnode⟩ := Option.isSome_iff_exists.mp hid
    obtain ⟨p, hp, -⟩ := (h.tree j).holds id node hnode
    exact Option.isSome_of_eq_some hp

omit [DecidableEq κ] in
/-- **A heap file changed.** -/
theorem Sound.heapChange {t : HeapState} {table : List (RID × List UInt8)} {rids : List RID}
    {pool : BufferPoolManager} {answers : List Answer}
    (hnew : ∀ id ∈ t.chain, id ∈ chain i ∨ m id = none)
    (hframe : ∀ id, id ∉ t.chain → t.pages id = m id) (hfaithful : HeapFaithful t table rids)
    (hshows : pool.Shows (View.among n t.pages st.held)) :
    Sound n (k + 1) ⟨pool, st.db.setHeap i t.heap, Function.update st.returned i rids,
      st.held, answers⟩
      (c.setTable i table) t.pages (Function.update chain i t.chain) ts := by
  have hown : ∀ id, owns (Function.update chain i t.chain) ts (.inl i) id ↔ id ∈ t.chain := by
    intro id
    rw [owns, Function.update_self]
  have hsame : ∀ y : ι ⊕ κ, y ≠ .inl i →
      owns (Function.update chain i t.chain) ts y = owns chain ts y := by
    intro y hy
    cases y with
    | inl i' =>
      have hi : i' ≠ i := fun he => hy (he ▸ rfl)
      funext id
      simp only [owns, Function.update_of_ne hi]
    | inr j => rfl
  obtain ⟨hapart, hother⟩ := h.apart.change h.exist hsame fun id hid => hnew id ((hown id).mp hid)
  refine ⟨hshows, fun i' => ?_, fun j => ?_, hapart, Nat.le_succ_of_le h.held_le⟩
  · by_cases hi : i' = i
    · subst hi
      simp only [Structures.setHeap, Contents.setTable, Function.update_self]
      exact hfaithful
    · simp only [Structures.setHeap, Contents.setTable, Function.update_of_ne hi]
      refine (h.heap i').congr (m := t.pages) fun id hid => hframe id fun hmem => ?_
      exact hother (.inl i') (fun he => hi (Sum.inl.inj he)) id hid ((hown id).mpr hmem)
  · refine ((h.tree j).congr fun id hid => hframe id fun hmem => ?_).mono
    exact hother (.inr j) Sum.inr_ne_inl id hid ((hown id).mpr hmem)

omit [DecidableEq ι] in
/-- **A tree changed.** -/
theorem Sound.treeChange {t : TreeState} {pairs : List (KeyType × RID)} {pool : BufferPoolManager}
    {answers : List Answer} {tree : BPlusTree} (hmove : PagesMove m (ts j).nodes m' t.nodes)
    (hfaithful : TreeFaithful (k + 1) m' t tree pairs)
    (hshows : pool.Shows (View.among n m' st.held)) :
    Sound n (k + 1) ⟨pool, st.db.setTree j tree, st.returned, st.held, answers⟩ (c.setPairs j pairs)
      m' chain (Function.update ts j t) := by
  have hown : ∀ id, owns chain (Function.update ts j t) (.inr j) id ↔ (t.nodes id).isSome := by
    intro id
    rw [owns, Function.update_self]
  have hsame : ∀ y : ι ⊕ κ, y ≠ .inr j →
      owns chain (Function.update ts j t) y = owns chain ts y := by
    intro y hy
    cases y with
    | inl i => rfl
    | inr j' =>
      have hj : j' ≠ j := fun he => hy (he ▸ rfl)
      funext id
      simp only [owns, Function.update_of_ne hj]
  have hframe : ∀ id, ¬ owns chain (Function.update ts j t) (.inr j) id → m' id = m id :=
    fun id hid => hmove.frame id (Option.not_isSome_iff_eq_none.mp fun hs => hid ((hown id).mpr hs))
  obtain ⟨hapart, hother⟩ := h.apart.change h.exist hsame fun id hid => by
    by_cases hold : ((ts j).nodes id).isSome
    · exact .inl hold
    · exact .inr (hmove.fresh id ((hown id).mp hid) (Option.not_isSome_iff_eq_none.mp hold))
  refine ⟨hshows, fun i => ?_, fun j' => ?_, hapart, Nat.le_succ_of_le h.held_le⟩
  · refine (h.heap i).congr fun id hid => hframe id ?_
    exact hother (.inl i) Sum.inl_ne_inr id hid
  · by_cases hj : j' = j
    · subst hj
      simp only [Structures.setTree, Contents.setPairs, Function.update_self]
      exact hfaithful
    · simp only [Structures.setTree, Contents.setPairs, Function.update_of_ne hj]
      refine ((h.tree j').congr fun id hid => hframe id ?_).mono
      exact hother (.inr j') (fun he => hj (Sum.inr.inj he)) id hid

end Parts

/-! ## 4. One call

What all calls have in common.  `Follows` is what a call leads to, and `EndsWell` what has to be
proved of its program in a quiet view. -/

/-- A chain only gets new pages at its end. -/
def Grows (chain chain' : ι → List PageId) : Prop := ∀ i, chain i <+: chain' i

omit [DecidableEq ι] in
theorem Grows.refl (chain : ι → List PageId) : Grows chain chain := fun _ => List.prefix_rfl

theorem Grows.update {chain : ι → List PageId} {i : ι} {l : List PageId} (h : chain i <+: l) :
    Grows chain (Function.update chain i l) := by
  intro x
  by_cases hx : x = i
  · subst hx
    rwa [Function.update_self]
  · exact ⟨[], by rw [List.append_nil, Function.update_of_ne hx]⟩

/-- What a call leads to: an answer that the abstract database can give, and structures that are
faithful to what it holds then. -/
def Follows (n k : Nat) (st st' : SharedPool ι κ) (op : SharedOp ι κ) (c : Contents ι κ)
    (chain : ι → List PageId) : Prop :=
  ∃ a c' m chain' ts, c.Step op a c' ∧ st'.answers = st.answers ++ [a] ∧ Grows chain chain' ∧
    Sound n (k + 1) st' c' m chain' ts

section Calls

variable {n k fuel : Nat} {st : SharedPool ι κ} {c : Contents ι κ} {m : PageId → Option Page}
  {chain : ι → List PageId} {ts : κ → TreeState} {op : SharedOp ι κ}

/-- The state after a program with a result. -/
theorem step_of_some {a : Answer} {db : Structures ι κ}
    (h : ((st.db.program fuel op).exec st.pool).1 = some (a, db)) :
    step fuel st op = ⟨((st.db.program fuel op).exec st.pool).2, db, learn st.returned op a,
      holding st.held op a, st.answers ++ [a]⟩ := by
  rw [step]
  split
  · rename_i a' db' pool heq
    rw [heq] at h ⊢
    obtain ⟨rfl, rfl⟩ := Prod.mk.inj (Option.some.inj h)
    rfl
  · rename_i pool heq
    rw [heq] at h
    exact absurd h (by simp)

omit [DecidableEq ι] [DecidableEq κ] in
/-- A call takes no page from a client. -/
theorem holding_append {op : SharedOp ι κ} (hop : ∀ id, op ≠ .release id) (held : List PageId)
    (a : Answer) : holding held op a = holding [] op a ++ held := by
  cases op with
  | get i rid =>
    cases a with
    | record r => cases r <;> rfl
    | _ => rfl
  | release x => exact absurd rfl (hop x)
  | _ => rfl

/-- The pages that the client holds after a call, when it held none before. -/
abbrev Holds (op : SharedOp ι κ) (r : Option (Answer × Structures ι κ))
    (held : List PageId) : Prop :=
  ∀ a db, r = some (a, db) → held = holding [] op a

omit [DecidableEq ι] [DecidableEq κ] in
/-- A balanced call of a heap file. -/
theorem tidy_balanced {α : Type} {op : SharedOp ι κ} {k d : Nat} {p : PoolM α}
    {f : α → Option (Answer × Structures ι κ)} (hp : p.Balanced d) (hd : d ≤ k)
    (hf : ∀ r a db, f r = some (a, db) → holding [] op a = []) :
    PoolM.Tidy k (do return f (← p)) (Holds op) [] := by
  rw [PoolM.Tidy, Program.wp_bind]
  exact hp.tidy (by simpa using hd) fun r a db hr => (hf r a db hr).symm

omit [DecidableEq ι] [DecidableEq κ] in
/-- A call of a tree, which has no result when the fuel runs out. -/
theorem tidy_settles {α : Type} {op : SharedOp ι κ} {k d : Nat} {p : PoolM (Option α)}
    {f : α → Answer × Structures ι κ} (hp : p.Settles d) (hd : d ≤ k)
    (hf : ∀ e, holding [] op (f e).1 = []) :
    PoolM.Tidy k (do return (← p).map f) (Holds op) [] := by
  rw [PoolM.Tidy, Program.wp_bind]
  refine Program.wp_mono (hp k [] (by simpa using hd)) fun r held hheld a db hr => ?_
  obtain ⟨e, rfl, heq⟩ := Option.map_eq_some_iff.mp hr
  have hnone := hf e
  rw [heq] at hnone
  rw [hheld rfl, hnone]

/-- **The program of a call is tidy**, but for the one that gives back a page of the client: it ends
with the page that the client holds from now on, if there is one.  Two pages at a time are enough,
but for an insertion into a tree. -/
theorem tidy_program {limit : Nat} (fuel : Nat) (db : Structures ι κ) (op : SharedOp ι κ)
    (hop : ∀ id, op ≠ .release id) (htwo : 2 ≤ limit)
    (hinsert : ∀ j key rid, op = .insertKey j key rid → 2 * fuel + 3 ≤ limit) :
    (db.program fuel op).Tidy limit (Holds op) [] := by
  -- the answer decides which page the client holds
  have hdone : ∀ {a b : Answer} {db db' : Structures ι κ}, some (a, db) = some (b, db') → b = a :=
    fun h => (Prod.mk.inj (Option.some.inj h)).1.symm
  cases op with
  | create i =>
    refine tidy_balanced HeapFile.balanced_create (by omega) fun r a db' hr => ?_
    rw [hdone hr]
    rfl
  | insert i a =>
    refine tidy_balanced (HeapFile.balanced_insertRecord _ a) (by omega) fun r a db' hr => ?_
    rw [hdone hr]
    rfl
  | bulk i records =>
    refine tidy_balanced (HeapFile.balanced_bulkInsert _ records) (by omega) fun r a db' hr => ?_
    obtain ⟨e, -, heq⟩ := Option.map_eq_some_iff.mp hr
    rw [hdone (congrArg some heq)]
    rfl
  | delete i rid =>
    refine tidy_balanced (HeapFile.balanced_deleteRecord _ rid) (by omega) fun r a db' hr => ?_
    rw [hdone hr]
    rfl
  | update i rid r =>
    refine tidy_balanced (HeapFile.balanced_updateRecord _ rid r) (by omega) fun r a db' hr => ?_
    rw [hdone hr]
    rfl
  -- the page of the record stays with the client
  | get i rid =>
    rw [Structures.program, PoolM.Tidy, Program.wp_bind]
    refine Program.wp_mono (HeapFile.tidy_getRecord rid (Nat.lt_of_lt_of_le Nat.two_pos htwo))
      fun r held hheld a db' hr => ?_
    rw [hdone hr, hheld]
    cases r <;> rfl
  -- of the calls only an insertion into a tree needs more than two pages
  | insertKey j key rid =>
    exact tidy_settles (BPlusTree.settles_insert fuel _ key rid) (hinsert j key rid rfl)
      fun _ => rfl
  | deleteKey j key rid =>
    exact tidy_settles (BPlusTree.settles_delete fuel _ key rid) (by omega) fun _ => rfl
  | lookup j key =>
    exact tidy_settles (BPlusTree.settles_lookup fuel _ key) (by omega) fun _ => rfl
  | rangeScan j low high =>
    exact tidy_settles (BPlusTree.settles_rangeScan fuel _ low high) (by omega) fun _ => rfl
  -- a page is given back: excluded
  | release id => exact absurd rfl (hop id)
  | flushAll =>
    -- nothing is fetched
    intro a db' hr
    rw [hdone hr]
    rfl

/-- In a quiet view the program of the call gives an answer that the abstract database can give, and
leaves structures that are faithful to what it holds then, whatever the clients have in their hands.
-/
def EndsWell (n k fuel : Nat) (st : SharedPool ι κ) (op : SharedOp ι κ) (c : Contents ι κ)
    (m : PageId → Option Page) (chain : ι → List PageId) : Prop :=
  (st.db.program fuel op).wp .succeeds (fun r v => ∃ a db m' own, r = some (a, db) ∧
    v = View.among n m' own ∧ own ++ st.held = holding st.held op a ∧
    ∀ pool, pool.Shows (View.among n m' (own ++ st.held)) → ∃ c' chain' ts', c.Step op a c' ∧
      Grows chain chain' ∧ Sound n (k + 1)
        ⟨pool, db, learn st.returned op a, holding st.held op a, st.answers ++ [a]⟩ c'
          m' chain' ts')
    (View.quiet n m)

/-- For a call after which the clients hold what they held. -/
theorem EndsWell.of_quiet (hheld : ∀ a, holding st.held op a = st.held)
    (hwp : (st.db.program fuel op).wp .succeeds (fun r v => ∃ a db m', r = some (a, db) ∧
      v = View.quiet n m' ∧ ∀ pool, pool.Shows (View.among n m' st.held) → ∃ c' chain' ts',
        c.Step op a c' ∧ Grows chain chain' ∧ Sound n (k + 1)
          ⟨pool, db, learn st.returned op a, st.held, st.answers ++ [a]⟩ c' m' chain' ts')
      (View.quiet n m)) : EndsWell n k fuel st op c m chain := by
  refine Program.wp_mono hwp fun r v hr => ?_
  obtain ⟨a, db, m', hr, hv, hsound⟩ := hr
  refine ⟨a, db, m', [], hr, hv, (hheld a).symm, ?_⟩
  rw [hheld a]
  exact hsound

/-- **A call that ends well in a quiet view** ends well among the clients. -/
theorem Sound.follows (h : Sound n k st c m chain ts)
    (hok : (st.db.program fuel op).CallsOk BufferPoolManager.handle Succeeds st.pool)
    (hop : ∀ id, op ≠ .release id) (hpins : k + (2 * fuel + 3) < 2 ^ 32)
    (hwp : EndsWell n k fuel st op c m chain) : Follows n k st (step fuel st op) op c chain := by
  have hheld : st.held.length + (2 * fuel + 3) < 2 ^ 32 := by
    have hle := h.held_le
    omega
  obtain ⟨m', own, ⟨a, db, hres, hown, hsound⟩, hshows⟩ := h.shows.exec_among
    (P := fun r m' own => ∃ a db, r = some (a, db) ∧ own ++ st.held = holding st.held op a ∧
      ∀ pool, pool.Shows (View.among n m' (own ++ st.held)) → ∃ c' chain' ts', c.Step op a c' ∧
        Grows chain chain' ∧ Sound n (k + 1)
          ⟨pool, db, learn st.returned op a, holding st.held op a, st.answers ++ [a]⟩ c'
            m' chain' ts')
    hok (tidy_program fuel st.db op hop (by omega) fun _ _ _ _ => Nat.le_refl _) hheld
    (Program.wp_mono hwp fun r v hr => by
      obtain ⟨a, db, m', own, hr, hv, hown, hsound⟩ := hr
      exact ⟨m', own, hv, a, db, hr, hown, hsound⟩)
  obtain ⟨c', chain', ts', hstep, hgrows, hs⟩ := hsound _ hshows
  rw [step_of_some hres]
  exact ⟨a, c', m', chain', ts', hstep, rfl, hgrows, hs⟩

omit [DecidableEq ι] [DecidableEq κ] in
/-- A call that changes no structure. -/
theorem Sound.unchanged (h : Sound n k st c m chain ts) {pool : BufferPoolManager}
    {held : List PageId} {answers : List Answer} (hshows : pool.Shows (View.among n m held))
    (hheld : held.length ≤ k + 1) :
    Sound n (k + 1) ⟨pool, st.db, st.returned, held, answers⟩ c m chain ts :=
  ⟨hshows, h.heap, fun j => (h.tree j).mono, h.apart, hheld⟩

omit [DecidableEq κ] in
theorem setTable_self (c : Contents ι κ) (i : ι) : c.setTable i (c.table i) = c := by
  rw [Contents.setTable, Function.update_eq_self]

/-! ## 5. The calls of a heap file

Each lemma takes the spec of the operation and fits it into the invariant.  The abstract database
lets an insertion choose any record id that is not in the table; here it is new by what the heap
file says of itself. -/

omit [DecidableEq ι] [DecidableEq κ] in
/-- What a heap file has stored and returned goes on. -/
theorem HeapFaithful.next {s t : HeapState} {table table' : List (RID × List UInt8)}
    {returned rids : List RID} (h : HeapFaithful s table returned) (hext : s.Extends t)
    (hfirst : t.chain.head?.getD invalidPageId = t.heap.firstPageId)
    (hlists : Listing table' t.stored) (hcount : t.heap.recordCount = UInt32.ofNat table'.length)
    (hrids : ∀ rid ∈ rids, rid.isValid = true → rid.pageId ∈ t.chain) :
    HeapFaithful t table' (returned ++ rids) := by
  refine ⟨hext.ok, hfirst, hlists, hcount, fun rid hrid hvalid => ?_⟩
  rcases List.mem_append.mp hrid with hrid | hrid
  · exact hext.grows.subset (h.returned rid hrid hvalid)
  · exact hrids rid hrid hvalid

omit [DecidableEq ι] [DecidableEq κ] in
/-- A heap file that was created keeps its first page. -/
theorem HeapFaithful.first_kept {s t : HeapState} {table : List (RID × List UInt8)}
    {returned : List RID} (h : HeapFaithful s table returned)
    (hcreated : s.heap.firstPageId ≠ invalidPageId) (hext : s.Extends t) :
    t.chain.head?.getD invalidPageId = t.heap.firstPageId := by
  have hfirst := h.first
  cases hhead : s.chain.head? with
  | none =>
    rw [hhead] at hfirst
    exact absurd hfirst.symm hcreated
  | some id =>
    rw [hhead] at hfirst
    obtain rfl : id = s.heap.firstPageId := hfirst
    rw [hext.head? hhead, Option.getD_some]

omit [DecidableEq κ] in
/-- New pages of a heap file were nobody's. -/
theorem Sound.heapExtends (h : Sound n k st c m chain ts) {i : ι} {t : HeapState}
    {table : List (RID × List UInt8)} {rids : List RID} {pool : BufferPoolManager}
    {answers : List Answer} (hext : HeapState.Extends ⟨st.db.heaps i, m, chain i⟩ t)
    (hfaithful : HeapFaithful t table rids) (hshows : pool.Shows (View.among n t.pages st.held)) :
    Sound n (k + 1) ⟨pool, st.db.setHeap i t.heap, Function.update st.returned i rids,
      st.held, answers⟩
      (c.setTable i table) t.pages (Function.update chain i t.chain) ts :=
  h.heapChange (fun id hid => or_iff_not_imp_left.mpr (hext.fresh id hid)) hext.frame
    hfaithful hshows

/-- The record ids of an insertion are new. -/
theorem fresh_of_insertsAll {s t : HeapState} {table : List (RID × List UInt8)}
    {records : List RecordArg} {rids : List RID} (hlists : Listing table s.stored)
    (hins : HeapState.InsertsAll s t records rids) (hfits : HeapState.OnlyFit records rids) :
    Contents.Fresh table records rids := by
  refine ⟨hins.nodup, fun rid hrid hvalid => ?_, hins.isValid_eq hfits⟩
  rw [hlists.lookup]
  exact hins.free rid hrid hvalid

theorem Sound.insert (h : Sound n k st c m chain ts) {i : ι} {a : RecordArg}
    (hallow : st.Allowed fuel (.insert i a)) : EndsWell n k fuel st (.insert i a) c m chain := by
  refine .of_quiet (fun _ => rfl) ?_
  have hi := h.heap i
  rw [Structures.program, PoolM.wp, Program.wp_bind]
  refine hi.ok.insertRecord PoolMode.serves_succeeds a (fun _ _ => PoolMode.creates_succeeds)
    fun rid t hext hins hsea => ?_
  obtain ⟨hlists, hcount⟩ := TableRun.note_spec hi.lists hi.count hins
  have hall : HeapState.InsertsAll ⟨st.db.heaps i, m, chain i⟩ t [a] [rid] :=
    .cons hins (List.Subset.refl _) (.nil rfl rfl)
  refine ⟨_, _, t.pages, rfl, rfl, fun pool hpool => ⟨_, _, _,
    .insert (fresh_of_insertsAll hi.lists hall (.cons hsea.fit .nil)), .update hext.grows,
    h.heapExtends hext ?_ hpool⟩⟩
  refine hi.next hext (hi.first_kept hallow hext) hlists hcount fun rid' hrid' hvalid => ?_
  obtain rfl := List.mem_singleton.mp hrid'
  exact hins.mem_chain hvalid

theorem Sound.bulk (h : Sound n k st c m chain ts) {i : ι} {records : List RecordArg}
    (hallow : st.Allowed fuel (.bulk i records)) :
    EndsWell n k fuel st (.bulk i records) c m chain := by
  refine .of_quiet (fun _ => rfl) ?_
  have hi := h.heap i
  rw [Structures.program, PoolM.wp, Program.wp_bind]
  refine hi.ok.bulkInsert PoolMode.serves_succeeds (fun _ _ => PoolMode.creates_succeeds) records
    fun rids t hext hins hfits => ?_
  obtain ⟨hlists, hcount⟩ := TableRun.noteAll_spec hins hi.lists hi.count
  refine ⟨_, _, t.pages, rfl, rfl, fun pool hpool => ⟨_, _, _,
    .bulk (fresh_of_insertsAll hi.lists hins hfits), .update hext.grows,
    h.heapExtends hext ?_ hpool⟩⟩
  exact hi.next hext (hi.first_kept hallow hext) hlists hcount hins.mem_chain

/-- **A delete** answers whether there was a record, and takes its row out. -/
theorem Sound.delete (h : Sound n k st c m chain ts) {i : ι} {rid : RID}
    (hallow : st.Allowed fuel (.delete i rid)) :
    EndsWell n k fuel st (.delete i rid) c m chain := by
  refine .of_quiet (fun _ => rfl) ?_
  have hi := h.heap i
  rw [Structures.program, PoolM.wp, Program.wp_bind]
  refine hi.ok.deleteRecord PoolMode.serves_succeeds (hi.returned rid hallow)
    fun deleted t hext hdel hchain _ => ?_
  obtain ⟨hres, hst, hcount⟩ := hdel
  -- the answer says whether there was a record
  have hlookup : deleted = ((c.table i).lookup rid).isSome := by rw [hres, hi.lists.lookup]
  have hlen := hi.lists.length_erase rid
  subst hlookup
  refine ⟨_, _, t.pages, rfl, rfl, fun pool hpool =>
    ⟨_, Function.update chain i t.chain, ts, .delete, .update hext.grows, ?_⟩⟩
  -- without this record the heap file is what the table is without its row
  have hfaithful : HeapFaithful t ((c.table i).filter fun e => decide (e.1 ≠ rid))
      (st.returned i ++ []) := by
    refine hi.next hext ?_ (hst ▸ hi.lists.erase rid) ?_ fun _ hr => absurd hr List.not_mem_nil
    · rw [hchain, hext.first]
      exact hi.first
    · rw [hcount, hi.count, hlen, hres]
      cases (HeapState.stored ⟨st.db.heaps i, m, chain i⟩ rid).isSome
      · simp
      · simp [UInt32.ofNat_add]
  have hs : Sound n (k + 1) ⟨pool, st.db.setHeap i t.heap,
      Function.update st.returned i (st.returned i ++ []), st.held,
      st.answers ++ [.flag ((c.table i).lookup rid).isSome]⟩
      (c.setTable i ((c.table i).filter fun e => decide (e.1 ≠ rid))) t.pages
      (Function.update chain i t.chain) ts := h.heapExtends hext hfaithful hpool
  rwa [List.append_nil, Function.update_eq_self] at hs

omit [DecidableEq ι] [DecidableEq κ] in
/-- A heap file that was not created has no pages, and no records. -/
theorem Sound.not_created (h : Sound n k st c m chain ts) {i : ι}
    (hi : (st.db.heaps i).firstPageId = invalidPageId) :
    chain i = [] ∧ c.table i = [] ∧ ∀ rid ∈ st.returned i, rid.isValid = false := by
  have hheap := h.heap i
  have hnil : chain i = [] := by
    -- a chain begins with the first page, which is an invalid one
    cases hch : chain i with
    | nil => rfl
    | cons id l =>
      have hmem : id ∈ chain i := by
        rw [hch]
        exact List.mem_cons_self
      have hfirst := hheap.first
      simp only [hch, List.head?_cons, Option.getD_some, hi] at hfirst
      exact absurd hfirst (hheap.ok.ids id hmem).2
  have hnone : ∀ rid, HeapState.stored ⟨st.db.heaps i, m, chain i⟩ rid = none := by
    intro rid
    rw [HeapState.stored, hnil, if_neg List.not_mem_nil]
  refine ⟨hnil, ?_, fun rid hrid => ?_⟩
  · refine List.eq_nil_iff_forall_not_mem.mpr fun e he => ?_
    have hst := (hheap.lists.mem_iff e.1 e.2).mp he
    rw [hnone] at hst
    exact absurd hst (by simp)
  · refine Bool.eq_false_iff.mpr fun hvalid => ?_
    have hmem := hheap.returned rid hrid hvalid
    simp only [hnil] at hmem
    exact absurd hmem List.not_mem_nil

/-- The page that a client would get is the one that the pool shows. -/
theorem Updatable.of_shows {b : BufferPoolManager} {v : View} {rid : RID}
    {r : RecordData} {q : Page}
    (h : Updatable b rid r) (hb : b.Shows v) (h0 : rid.pageId ≠ 0)
    (hpin : v.pins rid.pageId + 1 < 2 ^ 32) (hq : v.pages rid.pageId = some q) (hlay : q.Layout) :
    (q.getRecord rid.slotId).isSome ∧ ¬ q.RelocatesBeyond rid.slotId r := by
  -- the pool shows the page with the content that the heap file has
  obtain ⟨-, p, hp, hlive, hroom⟩ := h
  obtain ⟨f, hf, -⟩ := Option.map_eq_some_iff.mp hp
  have hshows := ((hb.fetchPage h0 hpin).2 f hf).2
  have hsame : p.SameContent q := by
    obtain rfl := Option.some.inj ((Option.mem_def.mp hp).symm.trans (hb.rep.pageOf hf))
    exact hshows.residentPage hq (by simp [View.pin])
  rw [hsame.getRecord (hsame.symm.layout hlay)] at hlive
  exact ⟨hlive, fun hb => hroom (hsame.relocatesBeyond_iff.mpr hb)⟩

/-- **An update** puts the new bytes in the place of the row, or under a new record id. -/
theorem Sound.update (h : Sound n k st c m chain ts) {i : ι} {rid : RID} {r : RecordData}
    (hallow : st.Allowed fuel (.update i rid r)) (hk : k + 1 < 2 ^ 32) :
    EndsWell n k fuel st (.update i rid r) c m chain := by
  refine .of_quiet (fun _ => rfl) ?_
  have hi := h.heap i
  obtain ⟨hret, hupd⟩ := hallow
  have hvalid := hupd.1
  -- the record lies on a page of the file, which is not pinned too often for one more fetch
  have hid : rid.pageId ∈ chain i := hi.returned rid hret hvalid
  obtain ⟨q, hq, hlay⟩ := hi.ok.layout _ hid
  have hpin : (View.among n m st.held).pins rid.pageId + 1 < 2 ^ 32 := by
    have hcount := List.count_le_length (a := rid.pageId) (l := st.held)
    have hle := h.held_le
    change st.held.count rid.pageId + 1 < 2 ^ 32
    omega
  obtain ⟨hlive, hroom⟩ := hupd.of_shows h.shows (hi.ok.ids _ hid).1 hpin hq hlay
  -- it is stored, so the table has its row
  have hstored : (HeapState.stored ⟨st.db.heaps i, m, chain i⟩ rid).isSome := by
    rw [HeapState.stored, if_pos hid, hq]
    exact hlive
  have hlookup : ((c.table i).lookup rid).isSome := by
    rw [hi.lists.lookup]
    exact hstored
  have hcreated : (st.db.heaps i).firstPageId ≠ invalidPageId := by
    intro hno
    obtain ⟨hnil, -⟩ := h.not_created hno
    rw [hnil] at hid
    exact absurd hid List.not_mem_nil
  -- without the record the file is what the table is without the row
  have herase := hi.lists.erase rid
  have hlen := hi.lists.length_erase rid
  rw [if_pos hstored] at hlen
  rw [Structures.program, PoolM.wp, Program.wp_bind]
  refine hi.ok.updateRecord PoolMode.serves_succeeds hid r (fun _ _ => PoolMode.creates_succeeds)
    (fun q' _ hq' hb => absurd hb ?_) (fun t ht hheap _ hst => ?_)
    fun u t rid' hu hust huh _ ht hins hsea => ?_
  · obtain rfl := Option.some.inj (hq.symm.trans hq')
    exact hroom
  · -- in its place
    refine ⟨_, _, t.pages, rfl, rfl, fun pool hpool => ⟨_, _, _,
      .update hlookup (.inl ⟨rfl, hvalid⟩), .update ht.grows, h.heapExtends ht ?_ hpool⟩⟩
    refine hi.next ht (hi.first_kept hcreated ht) ?_ ?_ fun rid' hrid' _ => ?_
    · have hnone : Function.update (HeapState.stored ⟨st.db.heaps i, m, chain i⟩) rid none
        rid = none :=
        Function.update_self _ _ _
      have hreplace := herase.insert hnone r.bytes
      rw [Function.update_idem, ← hst] at hreplace
      rw [TableRun.note, if_pos hvalid]
      exact hreplace
    · rw [hheap, hi.count, TableRun.note, if_pos hvalid, List.length_cons, hlen]
    · obtain rfl := List.mem_singleton.mp hrid'
      exact ht.grows.subset hid
  · -- the old record is deleted, and the new one inserted
    have hext := hu.trans ht
    have hcount : u.heap.recordCount
        = UInt32.ofNat ((c.table i).filter fun e => decide (e.1 ≠ rid)).length := by
      rw [huh]
      dsimp only
      rw [hi.count, hlen, UInt32.ofNat_add]
      exact UInt32.add_sub_cancel _ _
    obtain ⟨hlists, hcount'⟩ := TableRun.note_spec (hust ▸ herase) hcount hins
    have hall : HeapState.InsertsAll u t [.data r] [rid'] :=
      .cons hins (List.Subset.refl _) (.nil rfl rfl)
    refine ⟨_, _, t.pages, rfl, rfl, fun pool hpool => ⟨_, _, _,
      .update hlookup (.inr (fresh_of_insertsAll (hust ▸ herase) hall (.cons hsea.fit .nil))),
      .update hext.grows, h.heapExtends hext ?_ hpool⟩⟩
    refine hi.next hext (hi.first_kept hcreated hext) hlists hcount' fun rid'' hrid'' hvalid' => ?_
    obtain rfl := List.mem_singleton.mp hrid''
    exact hins.mem_chain hvalid'

/-- **A create** makes an empty table. -/
theorem Sound.create (h : Sound n k st c m chain ts) {i : ι}
    (hallow : st.Allowed fuel (.create i)) :
    EndsWell n k fuel st (.create i) c m chain := by
  refine .of_quiet (fun _ => rfl) ?_
  obtain ⟨hnil, htable, hreturned⟩ := h.not_created hallow
  rw [Structures.program, PoolM.wp, Program.wp_bind]
  refine HeapState.create m PoolMode.serves_succeeds PoolMode.creates_succeeds
    fun t hok hfirst hfresh hframe hst hcount _ => ?_
  refine ⟨_, _, t.pages, rfl, rfl, fun pool hpool =>
    ⟨c, Function.update chain i t.chain, ts, .create htable, .update (hnil ▸ List.nil_prefix), ?_⟩⟩
  have hfaithful : HeapFaithful t (c.table i) (st.returned i) := by
    refine ⟨hok, by rw [hfirst, Option.getD_some], ?_, ?_, fun rid hrid hvalid => ?_⟩
    · rw [htable, hst]
      exact Listing.empty
    · rw [hcount, htable]
      rfl
    · rw [hreturned rid hrid] at hvalid
      exact absurd hvalid Bool.false_ne_true
  have hs : Sound n (k + 1) ⟨pool, st.db.setHeap i t.heap,
    Function.update st.returned i (st.returned i),
      st.held, st.answers ++ [.done]⟩ (c.setTable i (c.table i)) t.pages
      (Function.update chain i t.chain) ts :=
    h.heapChange (fun id hid => .inr (hfresh id hid)) hframe hfaithful hpool
  rwa [setTable_self, Function.update_eq_self] at hs

end Calls

/-- **GetRecord** on a record id of the heap file, or an invalid one: the page of a record that is
found stays pinned. -/
theorem getRecord_spec {n : Nat} {s : HeapState} (hs : s.Ok) {rid : RID}
    (hrid : rid.isValid = true → rid.pageId ∈ s.chain) {Q : Option (List UInt8) → View → Prop}
    (hQ : Q (s.stored rid)
      (View.among n s.pages (if (s.stored rid).isSome then [rid.pageId] else []))) :
    (HeapFile.getRecord rid).wp .succeeds Q (View.quiet n s.pages) := by
  unfold HeapFile.getRecord
  split
  · rename_i hvalid
    have hid := hrid hvalid
    rw [PoolM.wp, Program.wp_bind]
    refine hs.fetch PoolMode.serves_succeeds hid fun q hq hql => ?_
    simp only [if_true]
    rw [Program.wp_bind]
    refine PoolM.wp_read_held hq fun p hp => ?_
    have hpl : p.Layout := hp.symm.layout hql
    have hstored : s.stored rid = p.getRecord rid.slotId := by
      rw [HeapState.stored, if_pos hid, hq, Option.bind_some, ← hp.store hpl]
      rfl
    rw [hstored] at hQ
    cases hrec : p.getRecord rid.slotId with
    | some data =>
      rw [hrec, Option.isSome_some, if_pos rfl, View.among_singleton, View.quiet_pin] at hQ
      exact hQ
    | none =>
      rw [hrec] at hQ
      simp only []
      rw [Program.wp_bind]
      exact PoolM.wp_unpin_held (by simp) hQ
  · rename_i hvalid
    have hnone : s.stored rid = none := by
      rw [HeapState.stored, if_neg]
      exact fun hid => hvalid (HeapState.isValid_of_mem hs hid rid.slotId)
    rw [hnone] at hQ
    exact hQ

section Calls

variable {n k fuel : Nat} {st : SharedPool ι κ} {c : Contents ι κ} {m : PageId → Option Page}
  {chain : ι → List PageId} {ts : κ → TreeState} {op : SharedOp ι κ}

theorem Sound.get (h : Sound n k st c m chain ts) {i : ι} {rid : RID}
    (hallow : st.Allowed fuel (.get i rid)) : EndsWell n k fuel st (.get i rid) c m chain := by
  have hi := h.heap i
  rw [EndsWell, Structures.program, PoolM.wp, Program.wp_bind]
  refine getRecord_spec hi.ok (hi.returned rid hallow) ?_
  rw [← hi.lists.lookup]
  refine ⟨_, _, m, _, rfl, rfl, ?_, fun pool hpool => ⟨c, chain, ts, .get, .refl chain, ?_⟩⟩
  · cases (c.table i).lookup rid <;> rfl
  · have hle := h.held_le
    cases hdata : (c.table i).lookup rid with
    | none =>
      rw [hdata] at hpool
      exact h.unchanged hpool (Nat.le_succ_of_le hle)
    | some data =>
      rw [hdata] at hpool
      exact h.unchanged hpool (Nat.succ_le_succ hle)

end Calls

end SharedPool

end CourtDB
