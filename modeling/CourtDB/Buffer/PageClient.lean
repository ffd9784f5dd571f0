/-
# Clients that hold few pages

A heap file or an index holds few pages at a time and gives every one back before it returns.
Between two calls it sees a `quiet` view, inside a call mostly one of its pages is pinned
(`View.held`).  The rules of `PoolLogic` take a simple form on these views.

How many pages a client may have pinned while it makes a call is bounded by the frames.  `Serves`
says that a mode lets a client with at most `k` pinned pages fetch, and `Creates` that it may ask
for a page when it holds none.
-/
import CourtDB.Buffer.PoolAccess
import Mathlib.Data.List.Perm.Subperm

namespace CourtDB

/-! ## 1. Views with few pins -/

namespace View

variable {n k : Nat} {m : PageId → Option Page} {id : PageId} {c : Bool} {v : View}

/-- The view of a client that has one page pinned, changed or not. -/
def held (n : Nat) (m : PageId → Option Page) (id : PageId) (c : Bool) : View :=
  ⟨n, m, Function.update (fun _ => 0) id 1, Function.update (fun _ => false) id c⟩

theorem quiet_pin : (quiet n m).pin id = held n m id false := by
  simp [quiet, pin, held]

theorem quiet_add_held :
    (quiet n m).add id = held n (Function.update m id (some (Page.ofId id))) id false := by
  simp [quiet, add, held]

theorem held_write (p : Page) :
    (held n m id c).write id p = held n (Function.update m id (some p)) id true := by
  simp [held, write]

theorem held_unpin {d : Bool} (h : c = true → d = true) :
    (held n m id c).unpin id d = quiet n m := by
  cases c
  · cases d <;> simp [held, unpin, quiet]
  · obtain rfl := h rfl
    simp [held, unpin, quiet]

/-- A page that is fetched, changed and given back while other pages stay pinned. -/
theorem pin_write_unpin (p : Page) (hch : v.changed id = false) :
    ((v.pin id).write id p).unpin id true
      = { v with pages := Function.update v.pages id (some p) } := by
  have h2 : Function.update v.changed id false = v.changed := by
    rw [← hch, Function.update_eq_self]
  simp [pin, write, unpin, h2]

/-- At most `k` pages are pinned. -/
def PinsAtMost (v : View) (k : Nat) : Prop :=
  ∃ ids : List PageId, ids.length ≤ k ∧ ∀ id, id ∉ ids → v.pins id = 0

theorem pinsAtMost_quiet : (quiet n m).PinsAtMost k := ⟨[], Nat.zero_le k, fun _ _ => rfl⟩

theorem pinsAtMost_held : (held n m id c).PinsAtMost (k + 1) := by
  refine ⟨[id], by simp, fun i hi => ?_⟩
  have hne : i ≠ id := by simpa using hi
  simp [held, hne]

theorem PinsAtMost.mono {k' : Nat} (h : v.PinsAtMost k) (hk : k ≤ k') : v.PinsAtMost k' := by
  obtain ⟨ids, hlen, hids⟩ := h
  exact ⟨ids, hlen.trans hk, hids⟩

/-- With more frames than pinned pages some frame is free. -/
theorem PinsAtMost.not_exhausted (h : v.PinsAtMost k) (hk : k < v.frames) : ¬ v.Exhausted := by
  obtain ⟨ids, hlen, hids⟩ := h
  rintro ⟨pinned, hnd, hframes, hpos⟩
  have hsub : pinned ⊆ ids := by
    intro id hid
    by_contra hno
    exact absurd (hids id hno) (Nat.pos_iff_ne_zero.mp (hpos id hid))
  have hle := (List.subperm_of_subset hnd hsub).length_le
  omega

end View

/-! ## 2. What a mode grants -/

namespace PoolMode

variable {mode : PoolMode} {n k : Nat} {m : PageId → Option Page}

/-- Every client with at most `k` pinned pages may fetch, and its fetches succeed. -/
def Serves (mode : PoolMode) (n k : Nat) : Prop :=
  ∀ v : View, v.frames = n → v.PinsAtMost k → mode.canFetch v ∧ ¬ mode.mayFail v

/-- A client that holds nothing may ask for a new page, and gets one. -/
def Creates (mode : PoolMode) (n : Nat) (m : PageId → Option Page) : Prop :=
  mode.canNew (View.quiet n m) ∧ ¬ mode.mayFail (View.quiet n m)

theorem Serves.mono {k' : Nat} (h : mode.Serves n k) (hk : k' ≤ k) : mode.Serves n k' :=
  fun v hv hpins => h v hv (hpins.mono hk)

theorem serves_succeeds : succeeds.Serves n k := fun _ _ _ => ⟨trivial, not_false⟩

theorem serves_safe (hk : k < n) : safe.Serves n k :=
  fun _ hv hpins => ⟨hpins.not_exhausted (hv ▸ hk), not_false⟩

theorem creates_succeeds : succeeds.Creates n m := ⟨trivial, not_false⟩

theorem creates_safe (hn : 0 < n) (hids : (View.quiet n m).IdsLeft) : safe.Creates n m :=
  ⟨⟨View.not_exhausted_quiet hn, hids⟩, not_false⟩

end PoolMode

/-! ## 3. Rules for one page -/

namespace PoolM

variable {mode : PoolMode} {n : Nat} {m : PageId → Option Page} {id : PageId} {c : Bool}

theorem wp_fetch_quiet {q : Page} {Q : Bool → View → Prop} (hserve : mode.Serves n 0)
    (h0 : id ≠ 0) (hq : m id = some q) (hQ : Q true (View.held n m id false)) :
    wp mode (fetchPage id) Q (View.quiet n m) := by
  refine wp_fetchPage h0 (by simp [View.quiet, hq]) (by simp [View.quiet])
    (hserve _ rfl View.pinsAtMost_quiet) ?_
  rw [View.quiet_pin]
  exact hQ

theorem wp_read_held {q : Page} {Q : Page → View → Prop} (hq : m id = some q)
    (hQ : ∀ p : Page, p.SameContent q → Q p (View.held n m id c)) :
    wp mode (readPage id) Q (View.held n m id c) :=
  wp_readPage (by simp [View.held]) hq hQ

theorem wp_write_held {p q : Page} {Q : Unit → View → Prop} (hq : m id = some q)
    (hp : p.DirectoryFits) (hQ : Q () (View.held n (Function.update m id (some p)) id true)) :
    wp mode (writePage id p) Q (View.held n m id c) := by
  refine wp_writePage (by simp [View.held]) (by simp [View.held, hq]) hp ?_
  rw [View.held_write]
  exact hQ

theorem wp_unpin_held {d : Bool} {Q : Bool → View → Prop} (hd : c = true → d = true)
    (hQ : Q true (View.quiet n m)) : wp mode (unpinPage id d) Q (View.held n m id c) := by
  refine wp_unpinPage (by simp [View.held]) (fun _ hch => hd ?_) ?_
  · simpa [View.held] using hch
  · rw [View.held_unpin hd]
    exact hQ

theorem wp_new_quiet {Q : Option PageId → View → Prop} (hnew : mode.Creates n m)
    (hQ : ∀ id, id ≠ 0 → id ≠ invalidPageId → m id = none →
      Q (some id) (View.held n (Function.update m id (some (Page.ofId id))) id false)) :
    wp mode newPage Q (View.quiet n m) := by
  refine wp_newPage hnew fun id h0 hne hfresh _ => ?_
  rw [View.quiet_add_held]
  exact hQ id h0 hne hfresh

/-- **A second page, while one is held**, fetched, changed and given back. -/
theorem wp_fetch_second {α : Type} {id' : PageId} {q : Page} {f : Page → Page}
    {k : PoolM α} {k' : PoolM α} {Q : α → View → Prop} (hserve : mode.Serves n 1)
    (h0 : id' ≠ 0) (hne : id' ≠ id) (hq : m id' = some q)
    (hfits : ∀ p : Page, p.SameContent q → (f p).DirectoryFits)
    (hQ : ∀ p : Page, p.SameContent q →
      wp mode k Q (View.held n (Function.update m id' (some (f p))) id c)) :
    wp mode (do
      if ← fetchPage id' then
        let page ← readPage id'
        writePage id' (f page)
        let _ ← unpinPage id' true
        k
      else k') Q (View.held n m id c) := by
  rw [wp, Program.wp_bind]
  have hpin : (View.held n m id c).pins id' = 0 := by simp [View.held, hne]
  have hch : (View.held n m id c).changed id' = false := by simp [View.held, hne]
  refine wp_fetchPage h0 (by simp [View.held, hq]) (by rw [hpin]; decide)
    (hserve _ rfl View.pinsAtMost_held) ?_
  simp only [if_true]
  rw [Program.wp_bind]
  refine wp_readPage (by simp [View.pin]) hq fun p hp => ?_
  rw [Program.wp_bind]
  refine wp_writePage (by simp [View.pin]) (by simp [View.pin, View.held, hq]) (hfits p hp) ?_
  rw [Program.wp_bind]
  refine wp_unpinPage (by simp [View.pin, View.write]) (fun _ _ => rfl) ?_
  rw [View.pin_write_unpin (f p) hch]
  exact hQ p hp

end PoolM

/-- Different pages are fewer than page ids. -/
theorem pageIds_length_lt {ids : List PageId} (hnd : ids.Nodup)
    (hne : ∀ id ∈ ids, id ≠ invalidPageId) :
    ids.length < 2 ^ 32 := by
  have hnodup : (ids.map UInt32.toNat).Nodup := hnd.map fun x y hxy => UInt32.toNat_inj.mp hxy
  have hsub : ids.map UInt32.toNat ⊆ List.range (2 ^ 32 - 1) := by
    intro x hx
    obtain ⟨id, hid, rfl⟩ := List.mem_map.mp hx
    have hinvalid : id.toNat ≠ 2 ^ 32 - 1 := fun he => hne id hid (UInt32.toNat_inj.mp he)
    have hlt := id.toNat_lt
    exact List.mem_range.mpr (by omega)
  have hle := (List.subperm_of_subset hnodup hsub).length_le
  rw [List.length_map, List.length_range] at hle
  omega

end CourtDB
