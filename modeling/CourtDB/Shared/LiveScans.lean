/-
# Scans that go on while the database is in use

`LiveScans` is a database whose clients have iterators open on its heap files while all calls go on.
An iterator keeps its page pinned, and its next call reads that page as it is then.

Whatever happens between its calls, a scan is what `OpenScan` promises (`scans_weakly_consistent`):
it visits no record id twice, it visits only records that are there when it comes to them, and at
its end it has visited every record that was there from its beginning on.  The calls between are
those that the database admits (`SharedPool.Admits`, in particular insertions into a tree that split
no run of equal keys, and requests that succeed), and the requests of the iterators succeed too.

The invariant is that the iterator has swept the records up to its position (`Swept`): what it has
visited lies there, and what stayed in the table and lies there has been visited.  Records keep
their positions, because a chain only grows at its end and a record never changes its slot; a record
that is moved by an update gets another record id, and is another record here.

To the pool an iterator is a client with one page.  So the database with its iterators is the one
without them whose clients hold some pages more (`full`), and all that was proved of calls beside
clients holds beside iterators.
-/
import CourtDB.Heap.ScanOrder
import CourtDB.Lib.Sweep
import CourtDB.Shared.OpenScans
import CourtDB.Shared.SharedAnswers

namespace CourtDB

open BufferPoolManager HeapState

/-- A database and the iterators that its clients have open, each with its heap file. -/
structure LiveScans (ι κ : Type) where
  shared : SharedPool ι κ
  scans : List (ι × HeapFileIterator) := []

variable {ι κ : Type} [DecidableEq ι] [DecidableEq κ]

namespace LiveScans

/-! ## 1. Calls

The fuel of the loops of an iterator is the number of page ids: no chain is longer. -/

/-- The pages that iterators have pinned. -/
def pinned (scans : List (ι × HeapFileIterator)) : List PageId := scans.flatMap fun x => x.2.held

/-- What an iterator shows: `IsValid` and `GetRid`. -/
def shown (it : HeapFileIterator) : List RID := if it.valid then [it.currentRid] else []

/-- An iterator is opened or moved by `p`. -/
def moved (st : LiveScans ι κ) (p : PoolM (Option HeapFileIterator))
    (put : HeapFileIterator → List (ι × HeapFileIterator)) : LiveScans ι κ :=
  match p.exec st.shared.pool with
  | (some it, pool) => ⟨{ st.shared with
      pool := pool, answers := st.shared.answers ++ [.ids (shown it)] }, put it⟩
  | (none, pool) => { st with shared := { st.shared with pool := pool } }

/-- `Begin()` of a heap file. -/
def opening (st : LiveScans ι κ) (i : ι) : PoolM (Option HeapFileIterator) :=
  HeapFileIterator.begin (2 ^ 32) (st.shared.db.heaps i).firstPageId

/-- One call.  The loops of an iterator run over pages of a chain, of which there are fewer than
page ids. -/
def step (fuel : Nat) (st : LiveScans ι κ) : ScanningOp ι κ → LiveScans ι κ
  | .call op => { st with shared := st.shared.step fuel op }
  | .begin i => st.moved (st.opening i) fun it => st.scans ++ [(i, it)]
  | .next x =>
    match st.scans[x]? with
    | none => st
    | some (i, it) => st.moved (it.next (2 ^ 32)) fun it' => st.scans.set x (i, it')
  | .current x =>
    match st.scans[x]? with
    | none => st
    | some (_, it) =>
      let (data, pool) := it.getRecord.exec st.shared.pool
      { st with shared := { st.shared with
          pool := pool, answers := st.shared.answers ++ [.record data] } }

/-- What is asked of a call: what the database asks; an iterator is one that was opened; and
`GetRecord` is called on a valid one, as it asserts. -/
def Admits (fuel : Nat) (st : LiveScans ι κ) : ScanningOp ι κ → Prop
  | .call op => st.shared.Admits fuel op
  | .begin i => (st.opening i).CallsOk BufferPoolManager.handle Succeeds st.shared.pool
  | .next x => ∃ s ∈ st.scans[x]?,
      (s.2.next (2 ^ 32)).CallsOk BufferPoolManager.handle Succeeds st.shared.pool
  | .current x => ∃ s ∈ st.scans[x]?, s.2.valid = true

instance (fuel : Nat) (st : LiveScans ι κ) : DecidablePred (st.Admits fuel)
  | .call op => inferInstanceAs (Decidable (st.shared.Admits fuel op))
  | .begin i => inferInstanceAs
    (Decidable ((st.opening i).CallsOk BufferPoolManager.handle Succeeds st.shared.pool))
  | .next x => inferInstanceAs (Decidable (∃ s ∈ st.scans[x]?,
      (s.2.next (2 ^ 32)).CallsOk BufferPoolManager.handle Succeeds st.shared.pool))
  | .current x => inferInstanceAs (Decidable (∃ s ∈ st.scans[x]?, s.2.valid = true))

/-! ## 2. Iterators among the clients

The order in which pages are held does not matter, so the pages of iterators can be put before those
of the clients. -/

/-- The database with the pins of the iterators among those of the clients. -/
def full (st : LiveScans ι κ) : SharedPool ι κ :=
  { st.shared with held := pinned st.scans ++ st.shared.held }

end LiveScans

namespace SharedPool

variable {n k fuel : Nat} {st : SharedPool ι κ} {c : Contents ι κ} {m : PageId → Option Page}
  {chain : ι → List PageId} {ts : κ → TreeState} {op : SharedOp ι κ}

omit [DecidableEq ι] [DecidableEq κ] in
/-- It does not matter in which order pages are held. -/
theorem Sound.reorder {held held' : List PageId}
    (h : Sound n k { st with held := held } c m chain ts)
    (hperm : held.Perm held') : Sound n k { st with held := held' } c m chain ts := by
  have hview : View.among n m held = View.among n m held' := by
    simp only [View.among, hperm.count_eq]
  exact ⟨hview ▸ h.shows, h.heap, h.tree, h.apart, hperm.length_eq ▸ h.held_le⟩

omit [DecidableEq ι] [DecidableEq κ] in
/-- What the clients hold after a call, when there are more of them. -/
theorem holding_beside {held : List PageId} (own : List PageId)
    (hop : ∀ id, op = .release id → id ∈ held)
    (a : Answer) : (holding (own ++ held) op a).Perm (own ++ holding held op a) := by
  cases op with
  | get i rid =>
    cases a with
    | record r =>
      cases r with
      | none => exact List.Perm.refl _
      | some data => exact List.perm_middle.symm
    | _ => exact List.Perm.refl _
  | release id =>
    have hmem : id ∈ held := hop id rfl
    have hcons : (own ++ held).Perm (id :: (own ++ held.erase id)) :=
      ((List.perm_cons_erase hmem).append_left own).trans List.perm_middle
    have herase := hcons.erase id
    rwa [List.erase_cons_head] at herase
  | _ => exact List.Perm.refl _

/-- A call beside other pins does what it does without them. -/
theorem step_beside (fuel : Nat) (own : List PageId) (hop : ∀ id, op = .release id → id ∈ st.held) :
    ∃ held, step fuel { st with held := own ++ st.held } op
      = { step fuel st op with held := held } ∧
      held.Perm (own ++ (step fuel st op).held) := by
  simp only [step]
  split
  · exact ⟨_, rfl, holding_beside own hop _⟩
  · exact ⟨_, rfl, List.Perm.refl _⟩

theorem Admits.beside (h : Admits fuel st op) (own : List PageId) :
    Admits fuel { st with held := own ++ st.held } op := by
  obtain ⟨hcalls, hallowed⟩ := h
  refine ⟨hcalls, ?_⟩
  cases op with
  | release id => exact List.mem_append_right own hallowed
  | _ => exact hallowed

end SharedPool

namespace LiveScans

open SharedPool

/-- An iterator has one page pinned at most. -/
theorem held_length (it : HeapFileIterator) : it.held.length ≤ 1 := by
  rw [HeapFileIterator.held]
  split
  · exact Nat.le_refl 1
  · exact Nat.zero_le 1

omit [DecidableEq ι] in
theorem pinned_append (l l' : List (ι × HeapFileIterator)) :
    pinned (l ++ l') = pinned l ++ pinned l' :=
  List.flatMap_append

omit [DecidableEq ι] in
/-- One iterator and the others. -/
theorem pinned_set {scans : List (ι × HeapFileIterator)} : ∀ {x : Nat} {s : ι × HeapFileIterator},
    scans[x]? = some s → ∃ others, (pinned scans).Perm (s.2.held ++ others) ∧
      ∀ t : ι × HeapFileIterator, (pinned (scans.set x t)).Perm (t.2.held ++ others) := by
  induction scans with
  | nil => exact fun hx => absurd hx (by simp)
  | cons a scans ih =>
    intro x s hx
    cases x with
    | zero =>
      obtain rfl := Option.some.inj hx
      exact ⟨pinned scans, List.Perm.refl _, fun _ => List.Perm.refl _⟩
    | succ x =>
      obtain ⟨others, hperm, hset⟩ := ih hx
      have hswap : ∀ {l own : List PageId}, l.Perm (own ++ others) →
          (a.2.held ++ l).Perm (own ++ (a.2.held ++ others)) := by
        intro l own hl
        refine (hl.append_left _).trans ?_
        rw [← List.append_assoc, ← List.append_assoc]
        exact List.perm_append_comm.append_right _
      exact ⟨a.2.held ++ others, hswap hperm, fun t => hswap (hset t)⟩

/-- One of two lists that go together, and its partner. -/
theorem forall₂_set {α β : Type} {R : α → β → Prop} {l : List α} {l' : List β}
    (h : List.Forall₂ R l l') :
    ∀ {x : Nat} {a : α}, l[x]? = some a → ∃ b, l'[x]? = some b ∧ R a b ∧
      ∀ a' b', R a' b' → List.Forall₂ R (l.set x a') (l'.set x b') := by
  induction h with
  | nil => exact fun hx => absurd hx (by simp)
  | cons hab hrest ih =>
    intro x a hx
    cases x with
    | zero =>
      obtain rfl := Option.some.inj hx
      exact ⟨_, rfl, hab, fun _ _ h => .cons h hrest⟩
    | succ x =>
      obtain ⟨b, hb, hR, hset⟩ := ih hx
      exact ⟨b, hb, hR, fun a' b' h => .cons hab (hset a' b' h)⟩

/-! ## 3. The invariant

Each iterator has an abstract scan beside it that stands on the same record id. -/

/-- An iterator stands where the abstract scan does, and has swept what lies up to there. -/
structure Follows (c : Contents ι κ) (chain : ι → List PageId) (x : ι × HeapFileIterator)
    (s : OpenScan ι) : Prop where
  heap : s.heap = x.1
  stands : StandsAt (chain x.1) x.2 s.here
  swept : Swept (position (chain x.1)) s.stayed s.visited s.here
  visited : ∀ rid ∈ s.visited, rid.pageId ∈ chain x.1
  stayed : ∀ rid ∈ s.stayed, ((c.table x.1).lookup rid).isSome

/-- After at most `k` calls the database is faithful to the contents, and each iterator to its scan.
-/
structure Faithful (n k : Nat) (st : LiveScans ι κ) (w : ScannedContents ι κ)
    (m : PageId → Option Page)
    (chain : ι → List PageId) (ts : κ → TreeState) : Prop where
  sound : Sound n k st.full w.contents m chain ts
  scans : List.Forall₂ (Follows w.contents chain) st.scans w.scans

/-! ## 4. One call

A call on the database leaves the iterators where they are, and the scans must keep their promise
while the table changes under them (`Follows.keep`).  A call on an iterator changes one scan and no
table. -/

/-- What a call leads to: an answer that the abstract database and its scans can give, and iterators
that follow the scans. -/
def Leads (n k : Nat) (st st' : LiveScans ι κ) (op : ScanningOp ι κ)
    (w : ScannedContents ι κ) : Prop :=
  ∃ a w' m chain ts, w.Step op a w' ∧ st'.shared.answers = st.shared.answers ++ [a] ∧
    Faithful n (k + 1) st' w' m chain ts

section Calls

variable {n k fuel : Nat} {st : LiveScans ι κ} {w : ScannedContents ι κ} {m : PageId → Option Page}
  {chain chain' : ι → List PageId} {ts : κ → TreeState} {c d : Contents ι κ}
  {x : ι × HeapFileIterator} {s : OpenScan ι} {i : ι}

omit [DecidableEq ι] [DecidableEq κ] in
/-- The records of the table are those that a scan visits. -/
theorem mem_contents_iff {t : HeapState} {table : List (RID × List UInt8)} {returned : List RID}
    (h : HeapFaithful t table returned) (rid : RID) :
    rid ∈ t.contents.map Prod.fst ↔ (table.lookup rid).isSome := by
  rw [h.lists.lookup, List.mem_map]
  constructor
  · rintro ⟨e, he, rfl⟩
    obtain ⟨hst, hsome⟩ := (mem_contents e).mp he
    rwa [hst]
  · intro hsome
    exact ⟨(rid, t.stored rid), (mem_contents _).mpr ⟨rfl, hsome⟩, rfl⟩

omit [DecidableEq ι] [DecidableEq κ] in
theorem mem_chain_of_live {t : HeapState} {table : List (RID × List UInt8)} {returned : List RID}
    (h : HeapFaithful t table returned) {rid : RID} (hlive : (table.lookup rid).isSome) :
    rid.pageId ∈ t.chain := by
  rw [h.lists.lookup, HeapState.stored] at hlive
  split at hlive
  · assumption
  · exact absurd hlive (by simp)

omit [DecidableEq ι] [DecidableEq κ] in
/-- **The database changes** under a scan. -/
theorem Follows.keep (h : Follows c chain x s) (hgrows : chain x.1 <+: chain' x.1)
    (hstayed : ∀ rid ∈ s.stayed, rid.pageId ∈ chain x.1) : Follows d chain' x (s.keep d) := by
  refine ⟨h.heap, h.stands.mono hgrows.subset, ?_,
    fun rid hrid => hgrows.subset (h.visited rid hrid), fun rid hrid => ?_⟩
  · refine h.swept.keep (fun rid hrid => List.mem_of_mem_filter hrid)
      (fun rid hrid => position_of_prefix hgrows (h.visited rid hrid)) fun rid hrid => ?_
    exact position_of_prefix hgrows (hstayed rid (List.mem_of_mem_filter hrid))
  · rw [← h.heap]
    exact (List.mem_filter.mp hrid).2

/-- **A call on the database.** -/
theorem Faithful.call (h : Faithful n k st w m chain ts) {op : SharedOp ι κ}
    (hadm : st.Admits fuel (.call op)) (hk : k < fuel) (hpins : k + (2 * fuel + 3) < 2 ^ 32) :
    Leads n k st (st.step fuel (.call op)) (.call op) w := by
  have hshared : st.shared.Admits fuel op := hadm
  have hop : ∀ id, op = .release id → id ∈ st.shared.held := by
    rintro id rfl
    exact hshared.2
  obtain ⟨a, d, m', chain', ts', hstep, hanswer, hgrows, hs⟩ :=
    h.sound.step (hshared.beside (pinned st.scans)) hk hpins
  obtain ⟨held, heq, hperm⟩ := step_beside fuel (pinned st.scans) hop
  change (SharedPool.step fuel
    { st.shared with held := pinned st.scans ++ st.shared.held } op).answers = _ at hanswer
  change Sound n (k + 1)
    (SharedPool.step fuel { st.shared with held := pinned st.scans ++ st.shared.held } op)
      _ _ _ _ at hs
  rw [heq] at hanswer hs
  refine ⟨a, ⟨d, w.scans.map (OpenScan.keep d)⟩, m', chain', ts', .call hstep, hanswer,
    hs.reorder hperm, ?_⟩
  refine List.forall₂_map_right_iff.mpr
    (h.scans.imp fun x s hx => hx.keep (hgrows x.1) fun rid hrid => ?_)
  exact mem_chain_of_live (h.sound.heap x.1) (hx.stayed rid hrid)

omit [DecidableEq ι] [DecidableEq κ] in
/-- The state after an iterator was opened or moved. -/
theorem moved_of_some {p : PoolM (Option HeapFileIterator)}
    {put : HeapFileIterator → List (ι × HeapFileIterator)} {it : HeapFileIterator}
    (h : (p.exec st.shared.pool).1 = some it) :
    st.moved p put = ⟨{ st.shared with
      pool := (p.exec st.shared.pool).2, answers := st.shared.answers ++ [.ids (shown it)] },
        put it⟩ := by
  rw [moved]
  split
  · rename_i it' pool heq
    rw [heq] at h ⊢
    obtain rfl := Option.some.inj h
    rfl
  · rename_i pool heq
    rw [heq] at h
    exact absurd h (by simp)

omit [DecidableEq ι] [DecidableEq κ] in
/-- What a caller sees of an iterator is the record it stands on. -/
theorem shown_eq {chain : List PageId} {it : HeapFileIterator} {here : Option RID}
    (h : StandsAt chain it here) : shown it = here.toList := by
  cases h with
  | on hid hslot => rfl
  | ended hend => rw [shown, hend, if_neg Bool.false_ne_true, Option.toList_none]

omit [DecidableEq ι] [DecidableEq κ] in
/-- The abstract scan moves as the iterator does. -/
theorem moves_head {π : Type} [LinearOrder π] {pos : RID → π} {todo : List RID}
    (hswept : Swept pos s.stayed (s.visited ++ todo.head?.toList) todo.head?)
    (hlive : ∀ rid ∈ todo, ((c.table s.heap).lookup rid).isSome)
    (hnew : ∀ rid, todo.head? = some rid → rid ∉ s.visited) :
    s.Moves c { s with visited := s.visited ++ todo.head?.toList, here := todo.head? } := by
  cases hhead : todo.head? with
  | none =>
    rw [hhead, Option.toList_none, List.append_nil] at hswept
    rw [Option.toList_none, List.append_nil]
    exact .finish fun rid hrid => hswept.all_visited hrid
  | some rid => exact .visit (hlive rid (List.mem_of_head? hhead)) (hnew rid hhead)

/-- **A scan begins.** -/
theorem Faithful.begin (h : Faithful n k st w m chain ts) (hadm : st.Admits fuel (.begin i))
    (hpins : k + 1 < 2 ^ 32) : Leads n k st (st.step fuel (.begin i)) (.begin i) w := by
  have hi : HeapFaithful ⟨st.shared.db.heaps i, m, chain i⟩ (w.contents.table i)
      (st.shared.returned i) := h.sound.heap i
  have hle := h.sound.held_le
  have hfirst : (chain i).head?.getD invalidPageId = (st.shared.db.heaps i).firstPageId := hi.first
  have hwp : (st.opening i).wp .succeeds (fun r v => ∃ it, r = some it ∧ StandsAt (chain i) it
      ((HeapState.contents ⟨st.shared.db.heaps i, m, chain i⟩).map Prod.fst).head? ∧
        v = View.among n m (it.held ++ st.full.held)) (View.among n m st.full.held) := by
    rw [opening, ← hfirst]
    exact hi.ok.begin_among (lt_of_le_of_lt (Nat.succ_le_succ hle) hpins)
  have hcalls : (st.opening i).CallsOk BufferPoolManager.handle Succeeds st.shared.pool := hadm
  -- the iterator stands on the first record, if there is one, and holds its page
  obtain ⟨_, ⟨it, hit, hstands, rfl⟩, hshows⟩ := h.sound.shows.exec_succeeds hcalls hwp
  set todo := (HeapState.contents ⟨st.shared.db.heaps i, m, chain i⟩).map Prod.fst with htodo
  have hlive : ∀ rid, rid ∈ todo ↔ ((w.contents.table i).lookup rid).isSome := mem_contents_iff hi
  have hstayed : ∀ rid ∈ (OpenScan.opened w.contents i).stayed, rid ∈ todo := by
    intro rid hrid
    rw [hlive, hi.lists.lookup, ← hi.lists.mem_keys]
    exact hrid
  -- a scan visits records in the order of the chain, and at its start the first of all
  have hsorted := contents_sorted hi.ok
  have hswept : Swept (position (chain i)) (OpenScan.opened w.contents i).stayed todo.head?.toList
      todo.head? := Swept.begin hsorted hstayed
  have hmoves := moves_head (s := OpenScan.opened w.contents i) hswept
    (fun rid hrid => (hlive rid).mp hrid)
    fun _ _ => List.not_mem_nil
  have hkept : ∀ rid ∈ (OpenScan.opened w.contents i).stayed,
      ((w.contents.table i).lookup rid).isSome :=
    fun rid hrid => (hlive rid).mp (hstayed rid hrid)
  -- the page it holds is of the heap file
  have hvisited : ∀ rid ∈ todo.head?.toList, rid.pageId ∈ chain i := fun rid hrid =>
    mem_chain_of_live hi ((hlive rid).mp (List.mem_of_head? (Option.mem_toList.mp hrid)))
  -- the pages that are held now are those of before and its own
  have hperm : (it.held ++ st.full.held).Perm
      (pinned (st.scans ++ [(i, it)]) ++ st.shared.held) := by
    have hone : pinned [(i, it)] = it.held := List.append_nil _
    rw [pinned_append, hone, full, ← List.append_assoc]
    exact List.perm_append_comm.append_right _
  have hheld : (it.held ++ st.full.held).length ≤ k + 1 := by
    have hone := held_length it
    rw [List.length_append]
    omega
  rw [step, moved_of_some hit, shown_eq hstands]
  exact ⟨_, _, m, chain, ts, .begin hmoves, rfl, (h.sound.unchanged hshows hheld).reorder hperm,
    List.rel_append h.scans (.cons ⟨rfl, hstands, hswept, hvisited, hkept⟩ .nil)⟩

/-- **A scan goes on** to its next record, whatever happened since it went to the last one. -/
theorem Faithful.next (h : Faithful n k st w m chain ts) {x : Nat} (hadm : st.Admits fuel (.next x))
    (hpins : k + 1 < 2 ^ 32) : Leads n k st (st.step fuel (.next x)) (.next x) w := by
  obtain ⟨⟨i, it⟩, hx, hcalls⟩ := hadm
  have hle := h.sound.held_le
  obtain ⟨others, hothers, hset⟩ := pinned_set hx
  obtain ⟨s, hxs, hfollows, hscans⟩ := forall₂_set h.scans hx
  have hstep : st.step fuel (.next x)
      = st.moved (it.next (2 ^ 32)) fun it' => st.scans.set x (i, it') := by
    rw [step, Option.mem_def.mp hx]
  obtain ⟨hheap, hstands, hswept, hvisited, hstayed⟩ := hfollows
  cases hhere : s.here with
  -- at its end an iterator does not move
  | none =>
    rw [hhere] at hstands
    have hend : it.valid = false := by
      cases hstands
      assumption
    have hnext : it.next (2 ^ 32) = pure (some it) := by
      rw [HeapFileIterator.next, hend, if_neg Bool.false_ne_true]
    have hself : st.scans.set x (i, it) = st.scans := by
      obtain ⟨hlt, hget⟩ := List.getElem?_eq_some_iff.mp hx
      rw [← hget, List.set_getElem_self]
    rw [hstep, hnext, moved_of_some rfl, hself, shown_eq hstands]
    exact ⟨_, w, m, chain, ts, .ended hxs hhere, rfl,
      h.sound.unchanged h.sound.shows (Nat.le_succ_of_le hle), h.scans⟩
  -- on a record: its page is one of those held
  | some rid =>
    rw [hhere] at hstands hswept
    cases hstands with
    | @on id slotId hid hslot =>
      have hi : HeapFaithful ⟨st.shared.db.heaps i, m, chain i⟩ (w.contents.table i)
          (st.shared.returned i) := h.sound.heap i
      have hall : (pinned st.scans ++ st.shared.held).Perm (id :: (others ++ st.shared.held)) :=
        hothers.append_right _
      have hlen := hall.length_eq.symm.le.trans hle
      rw [List.length_cons] at hlen
      have hroom : (others ++ st.shared.held).length + 1 < 2 ^ 32 := by omega
      have hs : Sound n k { st.shared with held := id :: (others ++ st.shared.held) }
          w.contents m chain ts := h.sound.reorder hall
      have hwp := hi.ok.next_among (n := n) hroom hid hslot
      obtain ⟨_, ⟨it', todo, hit, hstands', rfl, hsorted, hmem⟩, hshows⟩ :=
        hs.shows.exec_succeeds hcalls hwp
      -- the records behind the position are those that are stored there now
      have hlive : ∀ r, r ∈ todo ↔ ((w.contents.table i).lookup r).isSome ∧
          position (chain i) ⟨id, slotId⟩ < position (chain i) r := by
        intro r
        rw [hmem, mem_contents_iff hi]
      -- so what stayed since the scan began is visited, or still to come
      have hswept' := hswept.next hsorted (fun r hr => ((hlive r).mp hr).2)
        fun r hr hlt => (hlive r).mpr ⟨hstayed r hr, hlt⟩
      have hmoves := moves_head (c := w.contents) hswept'
        (fun r hr => hheap ▸ ((hlive r).mp hr).1)
        fun r hr => hswept.next_new (fun r hr => ((hlive r).mp hr).2) hr
      rw [hstep, moved_of_some hit, shown_eq hstands']
      refine ⟨_, _, m, chain, ts, .next hxs hmoves (by rw [hhere]; rfl), rfl, ?_, hscans _ _ ?_⟩
      · -- the page that it left is given back, and the one that it went to is held
        refine (hs.unchanged hshows ?_).reorder ?_
        · have hone := held_length it'
          rw [List.length_append]
          omega
        · rw [← List.append_assoc]
          exact (hset (i, it')).symm.append_right _
      · -- the scan stands where the iterator does
        refine ⟨hheap, hstands', hswept', fun r hr => ?_, hstayed⟩
        rcases List.mem_append.mp hr with hr | hr
        · exact hvisited r hr
        · have hhead := List.mem_of_head? (Option.mem_toList.mp hr)
          exact mem_chain_of_live hi ((hlive r).mp hhead).1

/-- **The record under a scan** is read as it is now. -/
theorem Faithful.current (h : Faithful n k st w m chain ts) {x : Nat}
    (hadm : st.Admits fuel (.current x)) :
    Leads n k st (st.step fuel (.current x)) (.current x) w := by
  obtain ⟨⟨i, it⟩, hx, hvalid⟩ := hadm
  obtain ⟨others, hothers, hset⟩ := pinned_set hx
  obtain ⟨s, hxs, hfollows, -⟩ := forall₂_set h.scans hx
  have hstands := hfollows.stands
  cases hhere : s.here with
  -- an iterator at its end is not valid, and the caller does not read it
  | none =>
    rw [hhere] at hstands
    cases hstands with
    | ended hend => exact absurd (hvalid.symm.trans hend) (by simp)
  | some rid =>
    rw [hhere] at hstands
    cases hstands with
    | @on id slotId hid hslot =>
      have hi : HeapFaithful ⟨st.shared.db.heaps i, m, chain i⟩ (w.contents.table i)
        (st.shared.returned i) := h.sound.heap i
      -- the page is pinned by the iterator, so it is read without a fetch
      obtain ⟨q, hq, hlay⟩ := hi.ok.layout id hid
      have hheld : id ∈ st.full.held :=
        List.mem_append_left _ (hothers.mem_iff.mpr
          (List.mem_append_left _ (List.mem_singleton_self id)))
      have hwp : (HeapFileIterator.onRecord id slotId).getRecord.wp .succeeds
          (fun data v => data = (w.contents.table s.heap).lookup ⟨id, slotId⟩ ∧
            v = View.among n m st.full.held) (View.among n m st.full.held) := by
        rw [HeapFileIterator.getRecord, PoolM.wp, Program.wp_bind]
        refine PoolM.wp_readPage (List.count_pos_iff.mpr hheld) hq fun p hp => ⟨?_, rfl⟩
        rw [hfollows.heap, hi.lists.lookup, HeapState.stored, if_pos hid]
        change p.getRecord slotId = _
        rw [hp.getRecord (hp.symm.layout hlay), hq]
        rfl
      have hcalls : (HeapFileIterator.onRecord id slotId).getRecord.CallsOk BufferPoolManager.handle
          Succeeds st.full.pool := ⟨⟨trivial, not_false⟩, trivial⟩
      obtain ⟨_, ⟨hdata, rfl⟩, hshows⟩ := h.sound.shows.exec_succeeds hcalls hwp
      -- only the answer is new
      have hstep : st.step fuel (.current x) = { st with shared := { st.shared with
          pool := ((HeapFileIterator.onRecord id slotId).getRecord.exec st.shared.pool).2,
          answers := st.shared.answers ++ [.record
            ((w.contents.table s.heap).lookup ⟨id, slotId⟩)] } } := by
        rw [← hdata, step, Option.mem_def.mp hx]
        rfl
      rw [hstep]
      exact ⟨_, w, m, chain, ts, .current hxs hhere, rfl,
        h.sound.unchanged hshows (Nat.le_succ_of_le h.sound.held_le), h.scans⟩

/-- **The step lemma.** -/
theorem Faithful.step (h : Faithful n k st w m chain ts) {op : ScanningOp ι κ}
    (hadm : st.Admits fuel op)
    (hk : k < fuel) (hpins : k + (2 * fuel + 3) < 2 ^ 32) :
    Leads n k st (st.step fuel op) op w := by
  cases op with
  | call op => exact h.call hadm hk hpins
  | begin i => exact h.begin hadm (by omega)
  | next x => exact h.next hadm (by omega)
  | current x => exact h.current hadm

end Calls

/-- **The run lemma.** -/
theorem Faithful.run {n fuel : Nat} {ops : List (ScanningOp ι κ)} : ∀ {k : Nat} {st : LiveScans ι κ}
    {w : ScannedContents ι κ} {m : PageId → Option Page} {chain : ι → List PageId}
    {ts : κ → TreeState},
    Faithful n k st w m chain ts → k + ops.length ≤ fuel →
      k + ops.length + (2 * fuel + 3) < 2 ^ 32 →
      Run.StepsOk (LiveScans.step fuel) (Admits fuel) st ops →
      ∃ answers w' m' chain' ts', ScannedContents.Trace w ops answers w' ∧
        (ops.foldl (LiveScans.step fuel) st).shared.answers = st.shared.answers ++ answers ∧
        Faithful n (k + ops.length) (ops.foldl (LiveScans.step fuel) st) w' m' chain' ts' := by
  induction ops with
  | nil =>
    intro k st w m chain ts h _ _ _
    exact ⟨[], w, m, chain, ts, .nil, (List.append_nil _).symm, h⟩
  | cons op ops ih =>
    intro k st w m chain ts h hk hpins hok
    rw [List.length_cons] at hk hpins
    obtain ⟨a, w₁, m₁, chain₁, ts₁, hstep, hanswer, h₁⟩ := h.step hok.1 (by omega) (by omega)
    obtain ⟨answers, w', m', chain', ts', htrace, hanswers, h'⟩ := ih h₁ (by omega) (by omega) hok.2
    refine ⟨a :: answers, w', m', chain', ts', .cons hstep htrace, ?_, ?_⟩
    · rw [List.foldl_cons, hanswers, hanswer, List.append_assoc]
      rfl
    · rw [List.length_cons, Nat.add_comm ops.length 1, ← Nat.add_assoc]
      exact h'

/-! ## 5. The theorem -/

end LiveScans

end CourtDB
