/-
# Programs beside the pins of others

The rules of heap files and trees are about a client that is alone in the pool: it starts in a
`quiet` view.  In a database other clients have pages pinned meanwhile.  `View.beside` adds their
pins to a view, and `wp_beside` is the frame rule: a program ends beside these pins as it ends
without them, provided that it gives back only pins of its own and that no count of pins overflows
(`View.KeepsTo`).

That it does can be read off a program that is `Tidy`: whatever it is answered and whatever it
reads, it unpins only ids that it fetched.
-/
import CourtDB.Buffer.HeldPins

namespace CourtDB

/-! ## 1. The pins of others -/

namespace View

variable {v : View} {base : PageId → Nat}

/-- The view `v`, where others have the pins `base` besides. -/
def beside (v : View) (base : PageId → Nat) : View :=
  { v with pins := fun id => v.pins id + base id }

theorem pin_beside (id : PageId) : (v.pin id).beside base = (v.beside base).pin id := by
  refine congrArg (fun pins => View.mk v.frames v.pages pins v.changed) (funext fun x => ?_)
  simp only [pin, beside, Function.update_apply]
  split
  · rename_i hx
    rw [hx, Nat.add_right_comm]
  · rfl

theorem add_beside {id : PageId} (hid : base id = 0) :
    (v.add id).beside base = (v.beside base).add id := by
  refine congrArg (fun pins => View.mk v.frames _ pins v.changed) (funext fun x => ?_)
  simp only [add, beside, Function.update_apply]
  split
  · rename_i hx
    rw [hx, hid]
  · rfl

theorem unpin_beside {id : PageId} {isDirty : Bool} (hpos : 0 < v.pins id) :
    (v.unpin id isDirty).beside base = (v.beside base).unpin id isDirty := by
  refine congrArg (fun pins => View.mk v.frames v.pages pins _) (funext fun x => ?_)
  simp only [unpin, beside, Function.update_apply]
  split
  · rename_i hx
    rw [hx]
    omega
  · rfl

end View

/-- A pool of this mode serves a client with this view. -/
def PoolMode.Willing (mode : PoolMode) (v : View) : Prop :=
  mode.canFetch v ∧ mode.canNew v ∧ ¬ mode.mayFail v

theorem PoolMode.willing_succeeds (v : View) : PoolMode.succeeds.Willing v := ⟨trivial, trivial, id⟩

/-- With a frame that is not pinned. -/
theorem PoolMode.willing_frames {v : View} (h : ¬ v.Exhausted) : PoolMode.frames.Willing v :=
  ⟨trivial, trivial, h⟩

/-- A client beside the pins `base` asks for a page only where it is served and the count of pins
has room, and unpins only what it has pinned itself. -/
def View.KeepsTo (mode : PoolMode) (base : PageId → Nat) (v : View) : PoolCall → Prop
  | .fetch id => (v.pages id).isSome → mode.Willing (v.beside base) ∧
      v.pins id + base id + 1 < 2 ^ 32
  | .new => mode.Willing (v.beside base)
  | .unpin id _ => 0 < v.pins id
  | .read _ | .write _ _ | .flushAll => True

/-! ## 2. The frame rule -/

namespace PoolM

variable {α : Type} {m : PoolM α} {Q : α → View → Prop} {v : View} {mode : PoolMode}
  {base : PageId → Nat}

/-- The views from which the program ends in `Q` and keeps to its own pins. -/
abbrev wpk (mode : PoolMode) (base : PageId → Nat) (m : PoolM α) (Q : α → View → Prop) (v : View) :
    Prop :=
  Program.wp ((poolSpec .succeeds).guard (View.KeepsTo mode base)) m Q v

/-- **The frame rule.**  A program that keeps to its own pins ends beside the pins of others as it
ends without them. -/
theorem wp_beside (h : m.wpk mode base Q v) :
    m.wp mode (fun a w => ∃ v', Q a v' ∧ w = v'.beside base) (v.beside base) := by
  induction m generalizing v with
  | pure a => exact ⟨v, h, rfl⟩
  | call o k ih =>
    obtain ⟨hkeeps, hspec⟩ := h
    cases o with
    | fetch id =>
      obtain ⟨h0, hnone, hsome⟩ := hspec
      refine ⟨h0, fun hn => ih _ (hnone hn), fun hs => ?_⟩
      obtain ⟨-, -, htrue, -⟩ := hsome hs
      -- a page that exists is served, because the view of all clients has a frame left
      obtain ⟨⟨hcan, -, hserved⟩, hpins⟩ := hkeeps hs
      refine ⟨hcan, hpins, ?_, fun hf => absurd hf hserved⟩
      rw [← View.pin_beside]
      exact ih _ htrue
    | new =>
      obtain ⟨-, hnew, -⟩ := hspec
      obtain ⟨-, hcan, hserved⟩ := hkeeps
      refine ⟨hcan, fun id h0 hne hfresh hpins => ?_, fun hf => absurd hf hserved⟩
      obtain ⟨hown, hothers⟩ : v.pins id = 0 ∧ base id = 0 := Nat.add_eq_zero_iff.mp hpins
      rw [← View.add_beside hothers]
      exact ih _ (hnew id h0 hne hfresh hown)
    | unpin id isDirty =>
      have hpos : 0 < v.pins id := hkeeps
      obtain ⟨hlast, hQ⟩ := hspec.2 (Nat.ne_of_gt hpos)
      -- the last pin of the client need not be the last one of the page
      refine ⟨fun h0 => absurd h0 ?_, fun _ => ⟨fun h1 hc => hlast ?_ hc, ?_⟩⟩
      · exact Nat.ne_of_gt (Nat.add_pos_left hpos _)
      · have hone : v.pins id + base id = 1 := h1
        omega
      · rw [← View.unpin_beside hpos]
        exact ih _ hQ
    | read id =>
      obtain ⟨hpos, q, hq, hread⟩ := hspec
      exact ⟨Nat.add_pos_left hpos _, q, hq, fun p hp => ih _ (hread p hp)⟩
    | write id p =>
      obtain ⟨hpos, hs, hfits, hQ⟩ := hspec
      exact ⟨Nat.add_pos_left hpos _, hs, hfits, ih _ hQ⟩
    | flushAll => exact ih _ hspec

/-- On the pool: the pins of others are there at the end. -/
theorem exec_beside {b : BufferPoolManager} (hb : b.Shows (v.beside base))
    (hok : m.CallsOk BufferPoolManager.handle BufferPoolManager.Succeeds b)
    (h : m.wpk .succeeds base Q v) :
    ∃ v', Q (m.exec b).1 v' ∧ (m.exec b).2.Shows (v'.beside base) := by
  obtain ⟨_, ⟨v', hQ, rfl⟩, hshows⟩ := hb.exec_succeeds hok (wp_beside h)
  exact ⟨v', hQ, hshows⟩

end PoolM

/-! ## 3. Tidy programs -/

/-- What a tidy client is allowed: with the pages `held` it may fetch while it holds fewer than `k`
pages, whatever it is answered, and it unpins only a page that it holds. -/
def tidySpec (k : Nat) : Program.Spec PoolCall PoolCall.Result (List PageId) where
  call
    | .fetch id, Q, held => Q false held ∧ held.length < k ∧ Q true (id :: held)
    | .new, Q, held => Q none held ∧ held.length < k ∧ ∀ id, Q (some id) (id :: held)
    | .unpin id _, Q, held => id ∈ held ∧ ∀ r, Q r (held.erase id)
    | .read _, Q, held => ∀ p, Q p held
    | .write _ _, Q, held => Q () held
    | .flushAll, Q, held => Q () held
  mono {o Q Q' held} hQ h := by
    cases o with
    | fetch id => exact ⟨hQ _ _ h.1, h.2.1, hQ _ _ h.2.2⟩
    | new => exact ⟨hQ _ _ h.1, h.2.1, fun id => hQ _ _ (h.2.2 id)⟩
    | unpin id isDirty => exact ⟨h.1, fun r => hQ _ _ (h.2 r)⟩
    | read id => exact fun p => hQ _ _ (h p)
    | write id p => exact hQ _ _ h
    | flushAll => exact hQ _ _ h

namespace PoolM

variable {α β : Type} {m : PoolM α} {k : Nat} {held : List PageId} {id : PageId}

/-- From a client that holds the pages `held` the program is tidy and ends in `T`. -/
abbrev Tidy (k : Nat) (m : PoolM α) (T : α → List PageId → Prop) (held : List PageId) : Prop :=
  Program.wp (tidySpec k) m T held

/-- The program is tidy, never holds more than `d` pages besides, and gives all of them back. -/
def Balanced (d : Nat) (m : PoolM α) : Prop :=
  ∀ k held, held.length + d ≤ k → m.Tidy k (fun _ held' => held' = held) held

theorem tidy_fetchPage {T : Bool → List PageId → Prop} (hroom : held.length < k)
    (hnull : T false held) (hT : T true (id :: held)) : Tidy k (fetchPage id) T held :=
  ⟨hnull, hroom, hT⟩

theorem tidy_newPage {T : Option PageId → List PageId → Prop} (hroom : held.length < k)
    (hnull : T none held) (hT : ∀ id, T (some id) (id :: held)) : Tidy k newPage T held :=
  ⟨hnull, hroom, hT⟩

/-- Giving back the page that was pinned last. -/
theorem tidy_unpinPage {isDirty : Bool} {T : Bool → List PageId → Prop} (hT : ∀ r, T r held) :
    Tidy k (unpinPage id isDirty) T (id :: held) := by
  refine ⟨List.mem_cons_self, fun r => ?_⟩
  rw [List.erase_cons_head]
  exact hT r

theorem tidy_readPage {T : Page → List PageId → Prop} (hT : ∀ p, T p held) :
    Tidy k (readPage id) T held := hT

theorem tidy_writePage {p : Page} {T : Unit → List PageId → Prop} (hT : T () held) :
    Tidy k (writePage id p) T held := hT

/-- What a balanced program is followed by starts with the pages that were held before. -/
theorem Balanced.tidy {d : Nat} (h : m.Balanced d) (hroom : held.length + d ≤ k)
    {T : α → List PageId → Prop} (hT : ∀ a, T a held) : m.Tidy k T held :=
  Program.wp_mono (h k held hroom) fun a _ hheld => hheld ▸ hT a

/-- **A tidy program keeps to its own pins**, on a pool that serves a client with fewer than `k` of
them, and at the end it has pinned what it holds. -/
theorem wp_keepsTo_of_tidy {Q : α → View → Prop} {T : α → List PageId → Prop} {v : View}
    {mode : PoolMode} {base : PageId → Nat} (hT : m.Tidy k T held) (h : m.wp .succeeds Q v)
    (hpins : ∀ id, v.pins id = held.count id) (hbase : ∀ id, base id + k < 2 ^ 32)
    (hserve : ∀ own : List PageId, own.length < k → ∀ w : View, w.frames = v.frames →
      (∀ id, w.pins id = own.count id) → mode.Willing (w.beside base)) :
    m.wpk mode base (fun a v' => Q a v' ∧ ∃ held', T a held' ∧ ∀ id, v'.pins id = held'.count id)
      v := by
  induction m generalizing v held with
  | pure a => exact ⟨h, held, hT, hpins⟩
  | call o k' ih =>
    -- one pin more on the view is one page more in the list
    have hcons : ∀ id x, Function.update v.pins id (v.pins id + 1) x = (id :: held).count x := by
      intro id x
      by_cases hx : x = id
      · rw [hx, Function.update_self, List.count_cons_self, hpins]
      · rw [Function.update_of_ne hx, List.count_cons_of_ne (Ne.symm hx), hpins]
    cases o with
    | fetch id =>
      obtain ⟨h0, hnone, hsome⟩ := h
      obtain ⟨hT0, hroom, hT1⟩ := hT
      refine ⟨fun _ => ⟨hserve held hroom v rfl hpins, ?_⟩, h0,
        fun hn => ih _ hT0 (hnone hn) hpins hserve, fun hs => ?_⟩
      · have hle := List.count_le_length (a := id) (l := held)
        have hb := hbase id
        rw [hpins]
        omega
      · obtain ⟨-, hpin, htrue, -⟩ := hsome hs
        exact ⟨trivial, hpin, ih _ hT1 htrue (hcons id) hserve, False.elim⟩
    | new =>
      obtain ⟨-, hnew, -⟩ := h
      obtain ⟨-, hroom, hT1⟩ := hT
      refine ⟨hserve held hroom v rfl hpins, trivial, fun id h0 hne hfresh hown => ?_, False.elim⟩
      refine ih _ (hT1 id) (hnew id h0 hne hfresh hown) (fun x => ?_) hserve
      have hx := hcons id x
      rwa [hown] at hx
    | unpin id isDirty =>
      obtain ⟨hmem, hT1⟩ := hT
      have hpos : 0 < v.pins id := by
        rw [hpins]
        exact List.count_pos_iff.mpr hmem
      have hne := Nat.ne_of_gt hpos
      obtain ⟨hlast, hQ⟩ := h.2 hne
      refine ⟨hpos, fun h0 => absurd h0 hne,
        fun _ => ⟨hlast, ih _ (hT1 true) hQ (fun x => ?_) hserve⟩⟩
      change Function.update v.pins id (v.pins id - 1) x = _
      by_cases hx : x = id
      · rw [hx, Function.update_self, List.count_erase_self, hpins]
      · rw [Function.update_of_ne hx, List.count_erase_of_ne hx, hpins]
    | read id =>
      obtain ⟨hpos, q, hq, hread⟩ := h
      exact ⟨trivial, hpos, q, hq, fun p hp => ih _ (hT p) (hread p hp) hpins hserve⟩
    | write id p =>
      obtain ⟨hpos, hs, hfits, hQ⟩ := h
      exact ⟨trivial, hpos, hs, hfits, ih _ hT hQ hpins hserve⟩
    | flushAll => exact ⟨trivial, ih _ hT h hpins hserve⟩

end PoolM

/-! ## 4. Clients that hold pages -/

namespace View

variable {n : Nat} {m : PageId → Option Page} {held : List PageId} {id : PageId}

/-- The clients hold the pages of the list, each as often as it is there, and nothing is left
undeclared. -/
def among (n : Nat) (m : PageId → Option Page) (held : List PageId) : View :=
  ⟨n, m, fun id => held.count id, fun _ => false⟩

theorem among_nil : among n m [] = quiet n m := rfl

theorem among_beside (own : List PageId) :
    ((among n m own).beside fun id => held.count id) = among n m (own ++ held) := by
  simp only [among, beside, List.count_append]

theorem among_singleton : among n m [id] = (quiet n m).pin id := by
  refine congrArg (fun pins => View.mk n m pins fun _ => false) (funext fun x => ?_)
  by_cases hx : x = id
  · rw [hx, Function.update_self, List.count_singleton_self]
    rfl
  · rw [Function.update_of_ne hx, List.count_singleton, if_neg (by simpa using Ne.symm hx)]
    rfl

theorem among_pin : (among n m held).pin id = among n m (id :: held) := by
  refine congrArg (fun pins => View.mk n m pins fun _ => false) (funext fun x => ?_)
  by_cases hx : x = id
  · rw [hx, Function.update_self, List.count_cons_self]
    rfl
  · rw [Function.update_of_ne hx, List.count_cons_of_ne (Ne.symm hx)]
    rfl

theorem among_unpin : (among n m held).unpin id false = among n m (held.erase id) := by
  refine congrArg (fun pins => View.mk n m pins fun _ => false) (funext fun x => ?_)
  by_cases hx : x = id
  · rw [hx, Function.update_self, List.count_erase_self]
    rfl
  · rw [Function.update_of_ne hx, List.count_erase_of_ne hx]
    rfl

end View

namespace BufferPoolManager

/-- **A tidy program among clients that hold pages** does what it does in a quiet view, and leaves
them their pages. -/
theorem Shows.exec_among {α : Type} {p : PoolM α} {n k : Nat} {m : PageId → Option Page}
    {held : List PageId} {b : BufferPoolManager} {T : α → List PageId → Prop}
    {P : α → (PageId → Option Page) → List PageId → Prop} (hb : b.Shows (View.among n m held))
    (hok : p.CallsOk BufferPoolManager.handle Succeeds b) (hT : p.Tidy k T [])
    (hk : held.length + k < 2 ^ 32)
    (hwp : p.wp .succeeds (fun a v => ∃ m' own, v = View.among n m' own ∧ P a m' own)
      (View.quiet n m)) :
    ∃ m' own, P (p.exec b).1 m' own ∧ (p.exec b).2.Shows (View.among n m' (own ++ held)) := by
  have hbase : ∀ id, held.count id + k < 2 ^ 32 := fun id =>
    Nat.lt_of_le_of_lt (Nat.add_le_add_right (List.count_le_length (a := id)) k) hk
  have hkeeps := PoolM.wp_keepsTo_of_tidy hT hwp (fun _ => rfl) hbase
    fun _ _ _ _ _ => PoolMode.willing_succeeds _
  have hb' : b.Shows ((View.quiet n m).beside fun id => held.count id) := by
    rw [← View.among_nil, View.among_beside, List.nil_append]
    exact hb
  obtain ⟨v', ⟨⟨m', own, rfl, hP⟩, -⟩, hshows⟩ := PoolM.exec_beside hb' hok hkeeps
  rw [View.among_beside] at hshows
  exact ⟨m', own, hP, hshows⟩

end BufferPoolManager

end CourtDB
