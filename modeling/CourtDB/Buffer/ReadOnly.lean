/-
# Clients that only read

A scan fetches pages, reads them and gives them back, and makes no other call.  What it finds in the
pool stays as it is, and the ids of pages cannot run out, so such a program runs on any pool as it
does on views, whether its fetches are served or not (`Shows.exec_reads`).
-/
import CourtDB.Buffer.HeldPins

namespace CourtDB

/-- The calls of a client that only reads. -/
def PoolCall.Reads : PoolCall → Prop
  | .fetch _ => True
  | .unpin _ isDirty => isDirty = false
  | .read _ => True
  | .new | .write _ _ | .flushAll => False

namespace PoolM

variable {α : Type} {mode : PoolMode} {m : PoolM α} {Q : α → View → Prop} {v : View}

theorem reads_fetchPage (id : PageId) : (fetchPage id).Only PoolCall.Reads :=
  ⟨trivial, fun _ => trivial⟩

theorem reads_unpinPage (id : PageId) : (unpinPage id false).Only PoolCall.Reads :=
  ⟨rfl, fun _ => trivial⟩

theorem reads_readPage (id : PageId) : (readPage id).Only PoolCall.Reads :=
  ⟨trivial, fun _ => trivial⟩

/-- The pages stay as they are. -/
theorem wp_reads (h : m.Only PoolCall.Reads) (hm : m.wp mode Q v) :
    m.wp mode (fun a v' => Q a v' ∧ v'.pages = v.pages) v := by
  refine Program.Only.wp (fun o Q t ho ht hspec => ?_) h rfl hm
  cases o with
  | fetch id =>
    obtain ⟨h0, hnone, hsome⟩ := hspec
    refine ⟨h0, fun hn => ⟨hnone hn, ht⟩, fun hs => ?_⟩
    obtain ⟨hcan, hpin, htrue, hfalse⟩ := hsome hs
    exact ⟨hcan, hpin, ⟨htrue, ht⟩, fun hfail => ⟨hfalse hfail, ht⟩⟩
  | unpin id isDirty =>
    exact ⟨fun h0 => ⟨hspec.1 h0, ht⟩, fun h0 => ⟨(hspec.2 h0).1, (hspec.2 h0).2, ht⟩⟩
  | read id =>
    obtain ⟨hpin, q, hq, hp⟩ := hspec
    exact ⟨hpin, q, hq, fun p hsame => ⟨hp p hsame, ht⟩⟩
  | new => exact ho.elim
  | write id p => exact ho.elim
  | flushAll => exact ho.elim

end PoolM

namespace BufferPoolManager

variable {b : BufferPoolManager} {v : View} {mode : PoolMode}

/-- **A program that only reads** runs on the pool as on views, and leaves the pages alone. -/
theorem Shows.exec_reads (hmode : ∀ v : View, v.Exhausted → mode.mayFail v) {α : Type} {m : PoolM α}
    {Q : α → View → Prop} (h : b.Shows v) (honly : m.Only PoolCall.Reads) (hm : m.wp mode Q v) :
    ∃ v', Q (m.exec b).1 v' ∧ (m.exec b).2.Shows v' ∧ v'.pages = v.pages := by
  have hids : ∀ (b : BufferPoolManager) (o : PoolCall), o.Reads → b.IdsLeft o := by
    intro b o ho
    cases o with
    | new => exact ho.elim
    | fetch id => trivial
    | unpin id isDirty => trivial
    | read id => trivial
    | write id p => trivial
    | flushAll => trivial
  obtain ⟨v', ⟨hQ, hpages⟩, hshows⟩ := Program.wp_sound
    (fun o s t Q hs ho hspec => Shows.handle o hs ho (fun _ hex => hmode t hex) hspec) h
    (honly.callsOk hids b) (PoolM.wp_reads honly hm)
  exact ⟨v', hQ, hshows, hpages⟩

end BufferPoolManager

/-! ## The account -/

namespace Holding

variable {base : PageId → Nat} {held : List PageId} {v : View} {id : PageId} {mode : PoolMode}

/-- A page is fetched, if the pool serves it. -/
theorem wp_fetchPage {Q : Bool → View → Prop} (h : Holding base held [] v) (h0 : id ≠ 0)
    (hs : (v.pages id).isSome) (hroom : base id + held.count id + 1 < 2 ^ 32)
    (hcan : mode.canFetch v) (hnull : mode.mayFail v → Q false v)
    (hQ : Holding base (id :: held) [] (v.pin id) → Q true (v.pin id)) :
    (fetchPage id).wp mode Q v := by
  refine ⟨h0, fun hn => absurd (hn ▸ hs) (by simp), fun _ => ⟨hcan, ?_, hQ (h.pin id), hnull⟩⟩
  rw [h.pins id]
  exact hroom

theorem wp_readPage {q : Page} {Q : Page → View → Prop} (h : Holding base held [] v)
    (hid : id ∈ held) (hq : v.pages id = some q) (hQ : ∀ p : Page, p.SameContent q → Q p v) :
    (readPage id).wp mode Q v :=
  PoolM.wp_readPage (h.pos hid) hq hQ

/-- Nothing was changed, so a page may be given back as it is. -/
theorem wp_unpinPage {Q : Bool → View → Prop} (h : Holding base (id :: held) [] v)
    (hQ : Holding base held [] (v.unpin id false) → Q true (v.unpin id false)) :
    (unpinPage id false).wp mode Q v := by
  have hpos : 0 < v.pins id := h.pos List.mem_cons_self
  refine ⟨fun h0 => absurd h0 (Nat.ne_of_gt hpos), fun _ => ⟨fun h1 hc => ?_, hQ h.unpin_clean⟩⟩
  have hbase := (h.clean id hc).resolve_right List.not_mem_nil
  have hpins := h.pins id
  rw [List.count_cons_self] at hpins
  omega

/-- From here on the pins that are held are those of somebody else. -/
theorem rebase (h : Holding base held [] v) :
    Holding (fun id => base id + held.count id) [] [] v := by
  refine ⟨fun id => (h.pins id).trans rfl, fun id hc => Or.inl ?_⟩
  have hbase := (h.clean id hc).resolve_right List.not_mem_nil
  exact Nat.ne_of_gt (Nat.add_pos_left (Nat.pos_of_ne_zero hbase) _)

end Holding

end CourtDB
