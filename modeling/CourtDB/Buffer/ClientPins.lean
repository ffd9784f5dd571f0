/-
# A pool whose clients hold pages

Clients may keep pages pinned while somebody else works on the pool.  Each pin takes a frame, so a
fetch or `NewPage` can fail, but only in a known way: a page that is pinned is resident and is
always found, and there are never more pinned pages than frames (`Shows.fits`).

`crowdedSpec` is `poolSpec` with these two facts.  They are what makes the difference between a pool
that may refuse anything and one in which a program can be followed through: if the clients leave
two frames, a program that holds one page can fetch another; if they leave one, it depends on
whether the other page is held by somebody.

`Clients` are the clients themselves, who pin pages, create pages and give them back as they like,
each page once at most.  What they hold is a list of page ids (`View.keeping`), and they end by
giving everything back (`Sound.releaseAll`).
-/
import CourtDB.Buffer.PageClient
import CourtDB.Buffer.Refusal
import CourtDB.Lib.Run

namespace CourtDB

/-! ## 1. Views of held pages

A view in which the pages of a list are pinned once each and nothing is changed.  The calls of a
program move it and move it back. -/

namespace View

variable {n : Nat} {m : PageId → Option Page} {held : List PageId} {id : PageId} {v : View}

/-- The clients hold the pages of `held`, each with one pin. -/
def keeping (n : Nat) (m : PageId → Option Page) (held : List PageId) : View :=
  ⟨n, m, fun id => if id ∈ held then 1 else 0, fun _ => false⟩

/-- There are no more pinned pages than frames. -/
def Fits (v : View) : Prop :=
  ∀ ids : List PageId, ids.Nodup → (∀ id ∈ ids, 0 < v.pins id) → ids.length ≤ v.frames

theorem keeping_nil : keeping n m [] = quiet n m := by simp [keeping, quiet]

theorem keeping_pins (hid : id ∉ held) : (keeping n m held).pins id = 0 := if_neg hid

theorem keeping_pins_le (id : PageId) : (keeping n m held).pins id ≤ 1 := by
  simp only [keeping]
  split <;> omega

theorem keeping_pins_pos : 0 < (keeping n m held).pins id ↔ id ∈ held := by
  simp only [keeping]
  split <;> simp_all

theorem keeping_pin (hid : id ∉ held) : (keeping n m held).pin id = keeping n m (id :: held) := by
  simp only [keeping, pin, if_neg hid, View.mk.injEq, true_and, and_true]
  funext i
  by_cases hi : i = id
  · simp [hi]
  · simp [hi]

theorem keeping_add : (keeping n m held).add id
    = keeping n (Function.update m id (some (Page.ofId id))) (id :: held) := by
  simp only [keeping, add, View.mk.injEq, true_and, and_true]
  funext i
  by_cases hi : i = id
  · simp [hi]
  · simp [hi]

theorem keeping_unpin (hnd : held.Nodup) (hid : id ∈ held) (d : Bool) :
    (keeping n m held).unpin id d = keeping n m (held.erase id) := by
  have hchanged : (if d then Function.update (fun _ : PageId => false) id false
      else fun _ => false) = fun _ => false := by
    cases d
    · rfl
    · exact Function.update_eq_self id fun _ => false
  simp only [keeping, unpin, hchanged, if_pos hid, View.mk.injEq, true_and, and_true]
  funext i
  by_cases hi : i = id
  · simp [hi, hnd.not_mem_erase]
  · simp [hi, List.mem_erase_of_ne hi]

/-- A page is created, changed and given back. -/
theorem add_write_unpin (p : Page) (hpin : v.pins id = 0) (hch : v.changed id = false) :
    ((v.add id).write id p).unpin id true
      = { v with pages := Function.update v.pages id (some p) } := by
  have h1 : Function.update v.pins id 0 = v.pins := by rw [← hpin, Function.update_eq_self]
  have h2 : Function.update v.changed id false = v.changed := by
    rw [← hch, Function.update_eq_self]
  simp [add, write, unpin, h1, h2]

/-- A page is given back unchanged, as changed. -/
theorem pin_unpin_dirty (hch : v.changed id = false) : (v.pin id).unpin id true = v := by
  have h1 : Function.update v.changed id false = v.changed := by
    rw [← hch, Function.update_eq_self]
  simp [pin, unpin, h1]

/-- Every frame is taken by a held page. -/
theorem keeping_exhausted_iff (hnd : held.Nodup) :
    (keeping n m held).Exhausted ↔ n ≤ held.length := by
  constructor
  · rintro ⟨ids, hids, hlen, hpos⟩
    have hsub : ids ⊆ held := fun i hi => keeping_pins_pos.mp (hpos i hi)
    exact hlen.trans (List.subperm_of_subset hids hsub).length_le
  · exact fun hlen => ⟨held, hnd, hlen, fun i hi => keeping_pins_pos.mpr hi⟩

/-- A new page leaves as many frames as there are held pages. -/
theorem Fits.length_lt (h : ((keeping n m held).add id).Fits) (hnd : held.Nodup)
    (hid : id ∉ held) : held.length < n := by
  rw [keeping_add] at h
  exact h (id :: held) (List.nodup_cons.mpr ⟨hid, hnd⟩) fun i hi => keeping_pins_pos.mpr hi

/-- When the new page takes the last frame, the held pages take all the others. -/
theorem Exhausted.length_le (h : ((keeping n m held).add id).Exhausted) :
    n ≤ held.length + 1 := by
  obtain ⟨ids, hids, hlen, hpos⟩ := h
  rw [keeping_add] at hpos
  have hsub : ids ⊆ id :: held := fun i hi => keeping_pins_pos.mp (hpos i hi)
  exact hlen.trans (List.subperm_of_subset hids hsub).length_le

/-- Held pages are pages that exist. -/
theorem within_keeping {ids : List PageId} (hheld : ∀ i ∈ held, (m i).isSome)
    (hids : ∀ i, i ∉ ids → m i = none) : (keeping n m held).Within ids.length := by
  refine ⟨ids, Nat.le_refl _, fun i hi => ⟨hids i hi, keeping_pins fun hmem => ?_⟩⟩
  have hs := hheld i hmem
  rw [hids i hi] at hs
  exact absurd hs (by simp)

end View

/-! ## 2. The calls in a crowded pool -/

/-- What the calls do when clients hold pages: a page that is pinned can be fetched, and a new page
finds a frame. -/
def crowdedSpec : Program.Spec PoolCall PoolCall.Result View where
  call
    | .fetch id, Q, v =>
      id ≠ 0 ∧ (v.pages id = none → Q false v) ∧
        ((v.pages id).isSome → v.pins id + 1 < 2 ^ 32 ∧ Q true (v.pin id) ∧
          (v.pins id = 0 → v.Exhausted → Q false v))
    | .new, Q, v =>
      v.IdsLeft ∧ (∀ id, id ≠ 0 → id ≠ invalidPageId → v.pages id = none → v.pins id = 0 →
        (v.add id).Fits → Q (some id) (v.add id)) ∧ (v.Exhausted → Q none v)
    | .unpin id isDirty, Q, v => (poolSpec .frames).call (.unpin id isDirty) Q v
    | .read id, Q, v => (poolSpec .frames).call (.read id) Q v
    | .write id p, Q, v => (poolSpec .frames).call (.write id p) Q v
    | .flushAll, Q, v => (poolSpec .frames).call .flushAll Q v
  mono {o Q Q' v} hQ h := by
    cases o with
    | fetch id =>
      refine ⟨h.1, fun hn => hQ _ _ (h.2.1 hn), fun hs => ?_⟩
      obtain ⟨hpin, htrue, hfalse⟩ := h.2.2 hs
      exact ⟨hpin, hQ _ _ htrue, fun h0 hex => hQ _ _ (hfalse h0 hex)⟩
    | new =>
      exact ⟨h.1, fun id h1 h2 h3 h4 h5 => hQ _ _ (h.2.1 id h1 h2 h3 h4 h5),
        fun hex => hQ _ _ (h.2.2 hex)⟩
    | unpin id isDirty => exact (poolSpec .frames).mono hQ h
    | read id => exact (poolSpec .frames).mono hQ h
    | write id p => exact (poolSpec .frames).mono hQ h
    | flushAll => exact (poolSpec .frames).mono hQ h

/-- The views from which the program ends in `Q`. -/
abbrev PoolM.wpc {α : Type} (m : PoolM α) (Q : α → View → Prop) (v : View) : Prop :=
  Program.wp crowdedSpec m Q v

namespace BufferPoolManager

variable {b : BufferPoolManager} {v : View}

/-- Pinned pages are in different frames. -/
theorem Shows.fits (h : b.Shows v) : v.Fits := by
  intro ids hnd hpos
  choose! frame hframe hpin using fun id hid => h.resident (hpos id hid)
  have hmap : (ids.map frame).Nodup := by
    refine List.Nodup.map_on (fun i hi j hj he => ?_) hnd
    exact h.rep.wf.frame_inj (hframe i hi) (he ▸ hframe j hj)
  have hsub : ids.map frame ⊆ List.range b.poolSize := by
    intro f hf
    obtain ⟨i, hi, rfl⟩ := List.mem_map.mp hf
    exact List.mem_range.mpr (h.rep.wf.frame_lt i _ (hframe i hi))
  have hle := (List.subperm_of_subset hmap hsub).length_le
  rwa [List.length_map, List.length_range, h.frames] at hle

/-- A pinned page can be fetched. -/
theorem Shows.not_fails (h : b.Shows v) {id : PageId} (hpin : 0 < v.pins id) :
    ¬ b.Fails (.fetch id) := by
  rintro ⟨-, hnull⟩
  obtain ⟨f, hf, -⟩ := h.resident hpin
  simp [BufferPoolManager.fetchPage, hf] at hnull

/-- **The pool does what the specification says**, and the invalid page id is not used. -/
theorem Shows.handle_crowded (o : PoolCall) {Q : o.Result → View → Prop} (h : b.Shows v)
    (hspec : crowdedSpec.call o Q v) :
    ∃ v', Q (BufferPoolManager.handle o b).1 v' ∧ (BufferPoolManager.handle o b).2.Shows v' := by
  cases o with
  | fetch id =>
    obtain ⟨h0, hnone, hsome⟩ := hspec
    rcases Nat.eq_zero_or_pos (v.pins id) with hzero | hpos
    · have hcall : (poolSpec .frames).call (.fetch id) Q v := ⟨h0, hnone, fun hs =>
        ⟨trivial, (hsome hs).1, (hsome hs).2.1, fun hex => (hsome hs).2.2 hzero hex⟩⟩
      exact h.handle _ trivial (fun _ hex => hex) hcall
    · have hcall : (poolSpec .succeeds).call (.fetch id) Q v := ⟨h0, hnone, fun hs =>
        ⟨trivial, (hsome hs).1, (hsome hs).2.1, False.elim⟩⟩
      exact h.handle _ trivial (fun hf => absurd hf (h.not_fails hpos)) hcall
  | new =>
    obtain ⟨hids, hsome, hnone⟩ := hspec
    have hcall : (poolSpec .frames).call .new (fun r v' => v'.Fits → Q r v') v :=
      ⟨trivial, fun id h1 h2 h3 h4 h5 => hsome id h1 h2 h3 h4 h5, fun hex _ => hnone hex⟩
    obtain ⟨v', hQ, hshows⟩ := h.handle .new (h.newPageId_ne hids) (fun _ hex => hex) hcall
    exact ⟨v', hQ hshows.fits, hshows⟩
  | unpin id isDirty => exact @Shows.handle b v .frames _ _ h trivial (fun _ hex => hex) hspec
  | read id => exact @Shows.handle b v .frames _ _ h trivial (fun _ hex => hex) hspec
  | write id p => exact @Shows.handle b v .frames _ _ h trivial (fun _ hex => hex) hspec
  | flushAll => exact @Shows.handle b v .frames _ _ h trivial (fun _ hex => hex) hspec

/-- **A program in a crowded pool** does there what it does on views. -/
theorem Shows.exec_crowded {α : Type} {m : PoolM α} {Q : α → View → Prop} (h : b.Shows v)
    (hm : m.wpc Q v) : ∃ v', Q (m.exec b).1 v' ∧ (m.exec b).2.Shows v' := by
  have hcall : ∀ (o : PoolCall) (b : BufferPoolManager) (v : View) (Q : o.Result → View → Prop),
      b.Shows v → True → crowdedSpec.call o Q v →
        ∃ v', Q (BufferPoolManager.handle o b).1 v' ∧ (BufferPoolManager.handle o b).2.Shows v' :=
    fun o b v Q hs _ hspec => hs.handle_crowded o hspec
  have hok := Program.wp_callsOk (fun _ _ _ _ _ _ => trivial) hcall h hm
  exact Program.wp_sound hcall h hok hm

end BufferPoolManager

/-! ## 3. Rules for the calls

One rule for each call, and two for a fetch: of a page that is held, which succeeds, and of one that
is not. -/

namespace PoolM

variable {v : View} {id : PageId}

theorem wpc_fetchPage {Q : Bool → View → Prop} (h0 : id ≠ 0) (hs : (v.pages id).isSome)
    (hpin : v.pins id ≤ 1) (hQ : Q true (v.pin id))
    (hfail : v.pins id = 0 → v.Exhausted → Q false v) : wpc (fetchPage id) Q v :=
  ⟨h0, fun hn => absurd (hn ▸ hs) (by simp), fun _ => ⟨by omega, hQ, hfail⟩⟩

theorem wpc_fetchPage_none {Q : Bool → View → Prop} (h0 : id ≠ 0) (hn : v.pages id = none)
    (hQ : Q false v) : wpc (fetchPage id) Q v :=
  ⟨h0, fun _ => hQ, fun hs => absurd (hn ▸ hs) (by simp)⟩

theorem wpc_newPage {Q : Option PageId → View → Prop} (hids : v.IdsLeft)
    (hQ : ∀ id, id ≠ 0 → id ≠ invalidPageId → v.pages id = none → v.pins id = 0 →
      (v.add id).Fits → Q (some id) (v.add id))
    (hfail : v.Exhausted → Q none v) : wpc newPage Q v := ⟨hids, hQ, hfail⟩

theorem wpc_unpinPage {isDirty : Bool} {Q : Bool → View → Prop} (hpin : v.pins id ≠ 0)
    (hlast : v.pins id = 1 → v.changed id = true → isDirty = true)
    (hQ : Q true (v.unpin id isDirty)) : wpc (unpinPage id isDirty) Q v :=
  ⟨fun h0 => absurd h0 hpin, fun _ => ⟨hlast, hQ⟩⟩

theorem wpc_readPage {q : Page} {Q : Page → View → Prop} (hpin : 0 < v.pins id)
    (hq : v.pages id = some q) (hQ : ∀ p : Page, p.SameContent q → Q p v) :
    wpc (readPage id) Q v := ⟨hpin, q, hq, hQ⟩

theorem wpc_writePage {p : Page} {Q : Unit → View → Prop} (hpin : 0 < v.pins id)
    (hs : (v.pages id).isSome) (hp : p.DirectoryFits) (hQ : Q () (v.write id p)) :
    wpc (writePage id p) Q v := ⟨hpin, hs, hp, hQ⟩

/-- **A page that is fetched, changed and given back** while others stay pinned. -/
theorem wpc_change {α : Type} {q : Page} {f : Page → Page} {k k' : PoolM α}
    {Q : α → View → Prop} (h0 : id ≠ 0) (hq : v.pages id = some q) (hpin : v.pins id ≤ 1)
    (hch : v.changed id = false) (hfits : ∀ p : Page, p.SameContent q → (f p).DirectoryFits)
    (hQ : ∀ p : Page, p.SameContent q →
      wpc k Q { v with pages := Function.update v.pages id (some (f p)) })
    (hfail : v.pins id = 0 → v.Exhausted → wpc k' Q v) :
    wpc (do
      if ← fetchPage id then
        let page ← readPage id
        writePage id (f page)
        let _ ← unpinPage id true
        k
      else k') Q v := by
  rw [wpc, Program.wp_bind]
  refine wpc_fetchPage h0 (by rw [hq]; rfl) hpin ?_ hfail
  simp only [if_true]
  rw [Program.wp_bind]
  refine wpc_readPage (by simp [View.pin]) hq fun p hp => ?_
  rw [Program.wp_bind]
  refine wpc_writePage (by simp [View.pin]) (by rw [View.pin, hq]; rfl) (hfits p hp) ?_
  rw [Program.wp_bind]
  refine wpc_unpinPage (by simp [View.pin, View.write]) (fun _ _ => rfl) ?_
  rw [View.pin_write_unpin (f p) hch]
  exact hQ p hp

end PoolM

/-! ## 4. The clients -/

/-- The clients of a pool, and the pages they hold. -/
structure Clients where
  pool : BufferPoolManager
  held : List PageId := []

/-- A page of the file other than the header page is pinned, a page is created and held, or a page
is given back. -/
inductive ClientOp
  | pin (id : PageId)
  | new
  | release (id : PageId) (isDirty : Bool)

namespace Clients

open BufferPoolManager

/-- One call of a client, who holds no page twice and gives back what he holds. -/
def step (c : Clients) : ClientOp → Clients
  | .pin id =>
    if id = 0 ∨ id ∈ c.held then c
    else match c.pool.fetchPage id with
      | (some _, pool) => ⟨pool, id :: c.held⟩
      | (none, pool) => ⟨pool, c.held⟩
  | .new =>
    match c.pool.newPageId with
    | some id => ⟨c.pool.newPage.2, id :: c.held⟩
    | none => ⟨c.pool.newPage.2, c.held⟩
  | .release id isDirty =>
    if id ∈ c.held then ⟨(c.pool.unpinPage id isDirty).2, c.held.erase id⟩ else c

/-- Clients who have made some calls to a pool of `n` frames over a new file. -/
def after (n : Nat) (ops : List ClientOp) : Clients := ops.foldl step ⟨overNewFile n, []⟩

/-- All pages are given back. -/
def releaseAll (c : Clients) : BufferPoolManager :=
  (c.held.foldl (fun c id => c.step (.release id false)) c).pool

/-- There are page ids left for some more pages. -/
def IdsLeft (c : Clients) : Prop := c.pool.disk.header.pageCount.toNat + 3 < 2 ^ 32

instance : DecidablePred IdsLeft :=
  fun c => inferInstanceAs (Decidable (c.pool.disk.header.pageCount.toNat + 3 < 2 ^ 32))

/-- The pool shows the held pages as pinned. -/
structure Sound (n : Nat) (c : Clients) (m : PageId → Option Page) : Prop where
  shows : c.pool.Shows (View.keeping n m c.held)
  nodup : c.held.Nodup
  exist : ∀ id ∈ c.held, (m id).isSome

variable {n : Nat} {c : Clients} {m : PageId → Option Page}

/-- The invalid id is not the id of a page. -/
theorem Sound.invalid (h : Sound n c m) : m invalidPageId = none := by
  by_contra hsome
  obtain ⟨-, hlt⟩ := h.shows.isSome_iff.mp (Option.isSome_iff_ne_none.mpr hsome)
  have hmax := c.pool.disk.header.pageCount.toNat_lt
  rw [UInt32.lt_iff_toNat_lt] at hlt
  have hinv : invalidPageId.toNat = 2 ^ 32 - 1 := rfl
  omega

/-- The pages of the file have the ids below the page count. -/
theorem Sound.within (h : Sound n c m) :
    (View.keeping n m c.held).Within c.pool.disk.header.pageCount.toNat := by
  have hids : ∀ i, i ∉ (List.range c.pool.disk.header.pageCount.toNat).map UInt32.ofNat →
      m i = none := by
    intro i hi
    by_contra hsome
    obtain ⟨-, hlt⟩ := h.shows.isSome_iff.mp (Option.isSome_iff_ne_none.mpr hsome)
    exact hi (List.mem_map.mpr ⟨i.toNat, List.mem_range.mpr hlt, UInt32.ofNat_toNat⟩)
  have hw := View.within_keeping (n := n) h.exist hids
  rwa [List.length_map, List.length_range] at hw

theorem Sound.release (h : Sound n c m) {id : PageId} (hid : id ∈ c.held) (isDirty : Bool) :
    Sound n ⟨(c.pool.unpinPage id isDirty).2, c.held.erase id⟩ m := by
  obtain ⟨-, hpinned⟩ := h.shows.unpinPage id isDirty
  obtain ⟨-, hshows⟩ := hpinned (Nat.pos_iff_ne_zero.mp (View.keeping_pins_pos.mpr hid))
    fun _ hch => absurd hch Bool.false_ne_true
  rw [View.keeping_unpin h.nodup hid] at hshows
  exact ⟨hshows, h.nodup.erase id, fun i hi => h.exist i (List.mem_of_mem_erase hi)⟩

/-- **The step lemma.**  A client's call adds a page at most. -/
theorem Sound.step (h : Sound n c m) (hids : c.IdsLeft) (op : ClientOp) :
    ∃ m', Sound n (c.step op) m' ∧ ∀ id, (m id).isSome → m' id = m id := by
  cases op with
  | pin id =>
    rw [Clients.step]
    split
    · -- the client holds the page already, or names the header page: nothing is called
      exact ⟨m, h, fun _ _ => rfl⟩
    · rename_i hskip
      obtain ⟨h0, hid⟩ := not_or.mp hskip
      obtain ⟨hnull, hptr⟩ := h.shows.fetchPage h0 (by rw [View.keeping_pins hid]; decide)
      split
      · rename_i f pool hf
        rw [hf] at hptr
        obtain ⟨hs, hshows⟩ := hptr f rfl
        rw [View.keeping_pin hid] at hshows
        refine ⟨m, ⟨hshows, List.nodup_cons.mpr ⟨hid, h.nodup⟩, fun i hi => ?_⟩, fun _ _ => rfl⟩
        rcases List.mem_cons.mp hi with rfl | hi
        · exact hs
        · exact h.exist i hi
      · -- there is no frame for the page
        rename_i pool hf
        rw [hf] at hnull
        exact ⟨m, ⟨(hnull rfl).1, h.nodup, h.exist⟩, fun _ _ => rfl⟩
  | new =>
    have hleft : (View.keeping n m c.held).IdsLeft :=
      h.within.idsLeft (Nat.lt_of_succ_lt hids)
    obtain ⟨hnull, hptr⟩ := h.shows.newPage (h.shows.newPageId_ne hleft)
    rw [Clients.step]
    split
    · -- a new page is held by nobody, because it did not exist
      rename_i id hid
      obtain ⟨-, -, hfresh, -, hshows⟩ := hptr id hid
      have hnot : id ∉ c.held := fun hmem => by
        have hs := h.exist id hmem
        rw [show m id = none from hfresh] at hs
        exact absurd hs (by simp)
      have hne : ∀ i, (m i).isSome → i ≠ id := by
        rintro i hi rfl
        rw [show m i = none from hfresh] at hi
        exact absurd hi (by simp)
      rw [View.keeping_add] at hshows
      refine ⟨_, ⟨hshows, List.nodup_cons.mpr ⟨hnot, h.nodup⟩, fun i hi => ?_⟩,
        fun i hi => Function.update_of_ne (hne i hi) _ _⟩
      rcases List.mem_cons.mp hi with rfl | hi
      · rw [Function.update_self]
        rfl
      · rw [Function.update_of_ne (hne i (h.exist i hi))]
        exact h.exist i hi
    · -- there is no frame for a new page
      rename_i hno
      exact ⟨m, ⟨(hnull hno).1, h.nodup, h.exist⟩, fun _ _ => rfl⟩
  | release id isDirty =>
    rw [Clients.step]
    split
    · rename_i hid
      exact ⟨m, h.release hid isDirty, fun _ _ => rfl⟩
    · exact ⟨m, h, fun _ _ => rfl⟩

/-- **The run lemma.** -/
theorem sound_after (hn : 0 < n) {ops : List ClientOp}
    (hops : Run.StepsOk step (fun c _ => c.IdsLeft) ⟨overNewFile n, []⟩ ops) :
    ∃ m, Sound n (after n ops) m := by
  refine Run.invariant_of_stepsOk (I := fun c => ∃ m, Sound n c m) (fun c op ⟨m, hm⟩ hids => ?_)
    ⟨fun _ => none, ?_, List.nodup_nil, by simp⟩ hops
  · obtain ⟨m', hm', -⟩ := hm.step hids op
    exact ⟨m', hm'⟩
  · rw [View.keeping_nil]
    exact (idle_overNewFile hn).shows

/-- When every page is given back, nobody has a page pinned. -/
theorem Sound.releaseAll (h : Sound n c m) : c.releaseAll.Shows (View.quiet n m) := by
  unfold Clients.releaseAll
  have hall : ∀ (l : List PageId) (c : Clients), c.held = l → Sound n c m →
      Sound n (l.foldl (fun c id => c.step (.release id false)) c) m ∧
        (l.foldl (fun c id => c.step (.release id false)) c).held = [] := by
    intro l
    induction l with
    | nil => exact fun c hc h => ⟨h, hc⟩
    | cons id l ih =>
      intro c hc h
      have hid : id ∈ c.held := hc ▸ List.mem_cons_self
      have hstep : c.step (.release id false)
          = ⟨(c.pool.unpinPage id false).2, c.held.erase id⟩ := if_pos hid
      rw [List.foldl_cons, hstep]
      refine ih _ ?_ (h.release hid false)
      change c.held.erase id = l
      rw [hc, List.erase_cons_head]
  obtain ⟨hsound, hnil⟩ := hall c.held c rfl h
  have hshows := hsound.shows
  rwa [hnil, View.keeping_nil] at hshows

end Clients

end CourtDB
