/-
# The pin ledger of a database

A page stays in its frame while it is pinned, so a pin that nobody gives back is a frame that is
lost.  `PinLedger` is a database whose clients also scan: `Begin()` and `Next` leave an iterator on
a page, and several iterators may be open.  `pins_exact` accounts for every pin: beside those that
were there before, there is one for each page that a client has from `GetRecord`, and one for each
valid iterator.

Nothing is asked of the pages: they may be of any content, and the heap files and trees of any
state.  The pool may refuse requests, because its frames are pinned or for another reason.  What is
asked of each call (`PinLedger.Admits`) is this:

* a fetch that is not refused takes no pin counter past its 32 bits;
* a `NewPage` that is not refused is given an id which is a page id, and which no frame holds but
  the one that is about to be evicted.  A free list that has the id of a resident page would put the
  page into two frames, and the pins of one of them would be counted for the other;
* the call returns, so a loop over a tree or a chain that runs in a circle is no call here;
* a client unpins only pages that it has from `GetRecord`.

The account is kept for a whole run by one equation for each page, and the program of each call is
tidy: it gives back what it takes, but for what its caller has in hand afterwards (`Turns`).
-/
import CourtDB.Buffer.PinTally
import CourtDB.Shared.SharedPool

namespace CourtDB

open BufferPoolManager

/-! ## 1. Runs

The state of a client is what it has in hand: pages from `GetRecord`, and iterators.  An iterator
that was opened can be moved at any time, also after its end, where `Next` does nothing. -/

/-- The clients of a database: its structures, the pages they have from `GetRecord`, and the
iterators they have opened. -/
structure PinClients (ι κ : Type) where
  db : Structures ι κ := {}
  held : List PageId := []
  iterators : List HeapFileIterator := []

/-- What a client may call. -/
inductive ClientCall (ι κ : Type) where
  /-- a call of a heap file or tree, or `UnpinPage` of a page from `GetRecord` -/
  | call (op : SharedOp ι κ)
  /-- the constructor of `HeapFile`, on the first page of a heap file that exists -/
  | construct (i : ι) (firstPageId : PageId)
  /-- `HeapFile::Begin` -/
  | begin (i : ι)
  /-- `HeapFileIterator::Next`, of the iterator that was opened as the `n`-th -/
  | next (n : Nat)

/-- A database on a pool that may refuse requests. -/
structure PinLedger (ι κ : Type) where
  pool : Refusals × BufferPoolManager
  clients : PinClients ι κ := {}

variable {ι κ : Type}

section Runs

variable [DecidableEq ι] [DecidableEq κ]

namespace PinClients

/-- The program behind a call.  It has no result when the fuel runs out. -/
def program (fuel : Nat) (c : PinClients ι κ) : ClientCall ι κ → PoolM (Option (PinClients ι κ))
  | .call op => do
    return (← c.db.program fuel op).map fun r =>
      { c with db := r.2, held := SharedPool.holding c.held op r.1 }
  | .construct i firstPageId => do
    return (← HeapFile.construct fuel firstPageId).map fun heap =>
      { c with db := c.db.setHeap i heap }
  | .begin i => do
    return (← HeapFileIterator.begin fuel (c.db.heaps i).firstPageId).map fun it =>
      { c with iterators := c.iterators ++ [it] }
  | .next n =>
    match c.iterators[n]? with
    | none => return some c
    | some it => do
      return (← it.next fuel).map fun it' => { c with iterators := c.iterators.set n it' }

end PinClients

namespace PinLedger

/-- One call. -/
def step (fuel : Nat) (st : PinLedger ι κ) (call : ClientCall ι κ) : PinLedger ι κ :=
  let (r, pool) := (st.clients.program fuel call).run handleRefusing st.pool
  ⟨pool, r.getD st.clients⟩

/-- A page that a client gives back is one from `GetRecord`. -/
def Gives (st : PinLedger ι κ) : ClientCall ι κ → Prop
  | .call (.release id) => id ∈ st.clients.held
  | _ => True

instance (st : PinLedger ι κ) : DecidablePred st.Gives := fun call =>
  match call with
  | .call (.release id) => inferInstanceAs (Decidable (id ∈ st.clients.held))
  | .call (.create _) | .call (.insert _ _) | .call (.bulk _ _) | .call (.delete _ _)
  | .call (.update _ _ _) | .call (.get _ _) | .call (.insertKey _ _ _) | .call
      (.deleteKey _ _ _) | .call (.lookup _ _)
  | .call (.rangeScan _ _ _) | .call .flushAll | .construct _ _ | .begin _
  | .next _ => inferInstanceAs (Decidable True)

/-- The calls on the pool are served or refused, the call returns, and a page that is given back is
one from `GetRecord`. -/
def Admits (fuel : Nat) (st : PinLedger ι κ) (call : ClientCall ι κ) : Prop :=
  (st.clients.program fuel call).CallsOk handleRefusing RefusedOrSafe st.pool ∧
    ((st.clients.program fuel call).run handleRefusing st.pool).1.isSome = true ∧ st.Gives call

instance (fuel : Nat) (st : PinLedger ι κ) : DecidablePred (st.Admits fuel) := fun _ =>
  inferInstanceAs (Decidable (_ ∧ _ ∧ _))

end PinLedger

end Runs

/-! ## 2. The account

What the clients owe is a list of page ids.  A call changes a part of it, which is what its program
starts with and ends with; the rest stays, by the frame rule of tidy programs. -/

namespace PinClients

variable {c c' : PinClients ι κ} {it it' : HeapFileIterator} {id : PageId}

/-- The pages that the clients have pinned. -/
def owed (c : PinClients ι κ) : List PageId := c.held ++ c.iterators.flatMap HeapFileIterator.held

/-- The iterators are as their calls leave them: valid as long as they are on a page. -/
def Open (c : PinClients ι κ) : Prop := ∀ it ∈ c.iterators, it.valid = it.onPage

/-- A call that turns the clients `c` into `c'` has changed the pages that are pinned from `own` to
`own'`. -/
structure Turns (c : PinClients ι κ) (own : List PageId) (c' : PinClients ι κ)
    (own' : List PageId) :
    Prop where
  counts : ∀ id, c'.owed.count id + own.count id = c.owed.count id + own'.count id
  openness : c.Open → c'.Open

/-- A call after which the clients have what they had. -/
theorem turns_db (db : Structures ι κ) : c.Turns [] { c with db := db } [] :=
    ⟨fun _ => rfl, fun h => h⟩

theorem turns_begin (hit : it.valid = it.onPage) :
    c.Turns [] { c with iterators := c.iterators ++ [it] } it.held := by
  refine ⟨fun id => ?_, fun h x hx => ?_⟩
  · simp only [owed, List.flatMap_append, List.flatMap_singleton, List.count_append, List.count_nil]
    omega
  · rcases List.mem_append.mp hx with hx | hx
    · exact h x hx
    · rw [List.mem_singleton.mp hx]
      exact hit

theorem turns_next {n : Nat} (hn : c.iterators[n]? = some it) (hit : it'.valid = it'.onPage) :
    c.Turns it.held { c with iterators := c.iterators.set n it' } it'.held := by
  obtain ⟨hlt, hget⟩ := List.getElem?_eq_some_iff.mp hn
  refine ⟨fun id => ?_, fun h x hx => ?_⟩
  · have hsplit : c.iterators = c.iterators.take n ++ it :: c.iterators.drop (n + 1) := by
      rw [← hget, List.getElem_cons_drop, List.take_append_drop]
    have hset : c.iterators.set n it' = c.iterators.take n ++ it' :: c.iterators.drop (n + 1) :=
      List.set_eq_take_append_cons_drop.trans (if_pos hlt)
    have hcount : c.owed.count id = c.held.count id
        + ((c.iterators.take n ++ it :: c.iterators.drop (n + 1)).flatMap
            HeapFileIterator.held).count id := by
      rw [owed, List.count_append, ← hsplit]
    rw [hcount]
    simp only [owed, hset, List.flatMap_append, List.flatMap_cons, List.count_append]
    omega
  · rcases List.mem_or_eq_of_mem_set hx with hx | rfl
    · exact h x hx
    · exact hit

/-- The pins of the iterators. -/
theorem count_pins (its : List HeapFileIterator) (id : PageId) :
    (its.flatMap HeapFileIterator.held).count id
      = its.countP fun it => it.valid ∧ it.currentPageId = id := by
  induction its with
  | nil => rfl
  | cons it its ih =>
    rw [List.flatMap_cons, List.count_append, ih, List.countP_cons, Nat.add_comm]
    congr 1
    unfold HeapFileIterator.held
    cases it.valid with
    | false => rfl
    | true => simp [List.count_singleton, beq_iff_eq]

/-- A call of a heap file or tree adds the page that `GetRecord` leaves. -/
theorem turns_call {op : SharedOp ι κ} (hop : ∀ id, op ≠ .release id) (a : Answer)
    (db : Structures ι κ) :
    c.Turns [] { c with db := db, held := SharedPool.holding c.held op a }
      (SharedPool.holding [] op a) := by
  refine ⟨fun id => ?_, fun h => h⟩
  simp only [owed, List.count_append, SharedPool.holding_append hop c.held, List.count_nil]
  omega

/-- `UnpinPage`. -/
theorem turns_release (hid : id ∈ c.held) (db : Structures ι κ) :
    c.Turns [id] { c with db := db, held := c.held.erase id } [] := by
  refine ⟨fun x => ?_, fun h => h⟩
  simp only [owed, List.count_append, List.count_nil]
  have hcount : c.held.count x = [id].count x + (c.held.erase id).count x := by
    rw [(List.perm_cons_erase hid).count_eq x, ← List.singleton_append, List.count_append]
  omega

/-- A call that passes its result on. -/
theorem tidy_pass {α : Type} {k : Nat} {p : PoolM α} {T : α → List PageId → Prop}
    {own : List PageId} {f : α → Option (PinClients ι κ)} (hp : p.Tidy k T own)
    (hf : ∀ r own' c', T r own' → f r = some c' → c.Turns own c' own') :
    PoolM.Tidy k (do return f (← p)) (fun r own' => ∀ c', r = some c' →
      c.Turns own c' own') own := by
  rw [PoolM.Tidy, Program.wp_bind]
  exact Program.wp_mono hp fun r own' hr c' hc => hf r own' c' hr hc

variable [DecidableEq ι] [DecidableEq κ]

/-- **The program of a call is tidy**: it starts with pages `own` of the clients and ends with those
that they have instead. -/
theorem tidy_program (fuel : Nat) (c : PinClients ι κ) (call : ClientCall ι κ) (hopen : c.Open)
    (hback : ∀ id, call = .call (.release id) → id ∈ c.held) :
    ∃ own, (∀ id, own.count id ≤ c.owed.count id) ∧
      (c.program fuel call).Tidy (2 * fuel + 3)
        (fun r own' => ∀ c', r = some c' → c.Turns own c' own') own := by
  cases call with
  | call op =>
    -- a call on a structure starts with no page of the clients, and leaves the one it answers
    by_cases hop : ∀ id, op ≠ .release id
    · refine ⟨[], fun _ => Nat.zero_le _, ?_⟩
      refine tidy_pass (SharedPool.tidy_program fuel c.db op hop (by omega) fun _ _ _ _ =>
        Nat.le_refl _) fun r own' c' hr hc => ?_
      obtain ⟨⟨a, db⟩, rfl, rfl⟩ := Option.map_eq_some_iff.mp hc
      rw [hr a db rfl]
      exact turns_call hop a db
    · -- a page is given back: it was one that a client has
      obtain ⟨id, hid⟩ := not_forall.mp hop
      obtain rfl := not_not.mp hid
      have hmem : id ∈ c.held := hback id rfl
      refine ⟨[id], fun x => ?_, ?_⟩
      · rw [owed, List.count_append]
        exact Nat.le_add_right_of_le (List.Subperm.count_le (List.singleton_subperm_iff.mpr hmem) x)
      · refine PoolM.tidy_unpinPage fun _ c' hc => ?_
        obtain rfl := Option.some.inj hc
        exact turns_release hmem c.db
  -- a constructor walks the chain and holds nothing afterwards
  | construct i firstPageId =>
    refine ⟨[], fun _ => Nat.zero_le _,
      tidy_pass (HeapFile.balanced_construct fuel firstPageId _ [] ?_)
      fun r own' c' hr hc => ?_⟩
    · simp
    · obtain ⟨heap, rfl, rfl⟩ := Option.map_eq_some_iff.mp hc
      rw [hr]
      exact turns_db _
  -- a new iterator holds the page of its record
  | begin i =>
    refine ⟨[], fun _ => Nat.zero_le _, tidy_pass (HeapFileIterator.tidy_begin fuel _ (by simp))
      fun r own' c' hr hc => ?_⟩
    obtain ⟨it, rfl, rfl⟩ := Option.map_eq_some_iff.mp hc
    obtain ⟨hit, hown⟩ := hr it rfl
    rw [hown, List.append_nil]
    exact turns_begin hit
  | next n =>
    rw [program]
    cases hn : c.iterators[n]? with
    | none =>
      -- there is no such iterator
      refine ⟨[], fun _ => Nat.zero_le _, fun c' hc => ?_⟩
      obtain rfl := Option.some.inj hc
      exact turns_db c.db
    -- the iterator gives its page back, or keeps it, or moves to another one
    | some it =>
      have hmem : it ∈ c.iterators := List.mem_of_getElem? hn
      refine ⟨it.held, fun x => ?_, ?_⟩
      · rw [owed, List.count_append]
        exact Nat.le_add_left_of_le ((List.sublist_flatten_of_mem
          (List.mem_map_of_mem hmem)).count_le x)
      · have hnext : (it.next fuel).Tidy (2 * fuel + 3) (HeapFileIterator.HoldsPage [])
          (it.held ++ []) :=
          HeapFileIterator.tidy_next fuel (hopen it hmem) (by simp)
        rw [List.append_nil] at hnext
        refine tidy_pass hnext fun r own' c' hr hc => ?_
        obtain ⟨it', rfl, rfl⟩ := Option.map_eq_some_iff.mp hc
        obtain ⟨hit, hown⟩ := hr it' rfl
        rw [hown, List.append_nil]
        exact turns_next hn hit

end PinClients

namespace PinLedger

variable [DecidableEq ι] [DecidableEq κ] {fuel : Nat} {st : PinLedger ι κ} {base : PageId → Nat}

/-- The bookkeeping of the pool is in order, and a page has a pin for each time a client has it,
beside those of `base`. -/
structure Balances (base : PageId → Nat) (st : PinLedger ι κ) : Prop where
  tallies : Tallies base st.pool st.clients.owed
  iterators : st.clients.Open

/-- **One call** keeps the account. -/
theorem Balances.step (h : st.Balances base) {call : ClientCall ι κ} (hok : st.Admits fuel call) :
    (st.step fuel call).Balances base := by
  obtain ⟨hcalls, hreturns, hgives⟩ := hok
  have hback : ∀ id, call = .call (.release id) → id ∈ st.clients.held := fun id hid => by
    rw [hid] at hgives
    exact hgives
  obtain ⟨own, hle, htidy⟩ := st.clients.tidy_program fuel call h.iterators hback
  have hstart : Tallies (fun id => base id + (st.clients.owed.count id - own.count id))
    st.pool own := by
    refine ⟨h.tallies.1, fun id => ?_⟩
    have hpins := h.tallies.2 id
    have hcount := hle id
    change st.pool.2.pinsOf id = base id + (st.clients.owed.count id - own.count id) + own.count id
    omega
  obtain ⟨own', hT, haccounted, hpins⟩ := hstart.exec_tidy hcalls htidy
  obtain ⟨c', hc'⟩ := Option.isSome_iff_exists.mp hreturns
  have hturns := hT c' hc'
  have hclients : (st.step fuel call).clients = c' := by
    change Option.getD _ _ = c'
    rw [hc']
    rfl
  refine ⟨⟨haccounted, fun id => ?_⟩, hclients ▸ hturns.openness h.iterators⟩
  have hid : (st.step fuel call).pool.2.pinsOf id
      = base id + (st.clients.owed.count id - own.count id) + own'.count id := hpins id
  have hcount := hturns.counts id
  have hown := hle id
  rw [hclients, hid]
  omega

end PinLedger

end CourtDB
