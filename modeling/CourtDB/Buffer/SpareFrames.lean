/-
# Frames to spare

A tidy program holds at most `k` pages at a time.  If the clients of the pool leave `k` frames,
there is one for each page that it asks for, so none of its calls fails, whatever the other frames
hold (`PoolM.wpk_spare`, `Shows.callsOk_of_spare`).

The count is of the different pages that clients hold: pins on one page share its frame.
-/
import CourtDB.Buffer.OwnPins
import Mathlib.Data.List.Dedup

namespace CourtDB

/-- The program asks for a page only where a frame is not pinned. -/
def PoolMode.spare : PoolMode := ⟨fun _ => False, fun v => ¬ v.Exhausted, fun v => ¬ v.Exhausted⟩

theorem PoolMode.willing_spare {v : View} (h : ¬ v.Exhausted) :
    PoolMode.spare.Willing v := ⟨h, h, id⟩

namespace View

variable {v : View}

/-- With fewer pages in use than frames, one is not pinned. -/
theorem not_exhausted (own held : List PageId) (hpins : ∀ id, 0 < v.pins id → id ∈ own ∨ id ∈ held)
    (hfree : own.length + held.dedup.length < v.frames) : ¬ v.Exhausted := by
  rintro ⟨ids, hnodup, hframes, hpinned⟩
  have hsub : ids ⊆ own ++ held.dedup := by
    intro id hid
    rcases hpins id (hpinned id hid) with hown | hheld
    · exact List.mem_append_left _ hown
    · exact List.mem_append_right _ (List.mem_dedup.mpr hheld)
  have hle := (List.subperm_of_subset hnodup hsub).length_le
  rw [List.length_append] at hle
  omega

end View

namespace BufferPoolManager

variable {b : BufferPoolManager} {v : View}

/-- A call that asks for a page only where a frame is not pinned does not fail. -/
theorem Shows.succeeds_of_spare (h : b.Shows v) {o : PoolCall} {Q : o.Result → View → Prop}
    (hids : b.IdsLeft o) (hspec : (poolSpec .spare).call o Q v) : b.Succeeds o := by
  refine ⟨hids, fun hfail => ?_⟩
  cases o with
  | fetch id =>
    obtain ⟨hlt, hnull⟩ := hfail
    obtain ⟨h0, -, hsome⟩ := hspec
    have hs := h.covers id h0 hlt
    obtain ⟨hcan, hpin, -⟩ := hsome hs
    exact hcan (((h.fetchPage h0 hpin).1 hnull).2 hs)
  | new => exact hspec.1 ((h.newPage hids).1 hfail).2
  | _ => exact hfail

/-- **A program that keeps to its own pins**, and asks for pages only where a frame is not pinned,
makes no call that fails. -/
theorem Shows.callsOk_of_spare {α : Type} {p : PoolM α} {n : Nat} {m : PageId → Option Page}
    {held : List PageId} {Q : α → View → Prop} (hb : b.Shows (View.among n m held))
    (hids : p.CallsOk BufferPoolManager.handle IdsLeft b)
    (hkeeps : p.wpk .spare (fun id => held.count id) Q (View.quiet n m)) :
    p.CallsOk BufferPoolManager.handle Succeeds b := by
  have hb' : b.Shows ((View.quiet n m).beside fun id => held.count id) := by
    rw [← View.among_nil, View.among_beside, List.nil_append]
    exact hb
  refine Program.wp_callsOk_of (fun o b v Q hs ho hspec => hs.succeeds_of_spare ho hspec)
    (fun o b v Q hs ho hspec => ?_) hb' hids (PoolM.wp_beside hkeeps)
  exact hs.handle o ho (fun hf _ => (hs.succeeds_of_spare ho hspec).2 hf) hspec

end BufferPoolManager

/-- **A tidy program that finds `k` frames** which the clients have not pinned asks for pages only
where there is one. -/
theorem PoolM.wpk_spare {α : Type} {p : PoolM α} {n k : Nat} {m : PageId → Option Page}
    {held : List PageId} {T : α → List PageId → Prop} {Q : α → View → Prop} (hT : p.Tidy k T [])
    (hwp : p.wp .succeeds Q (View.quiet n m)) (hk : held.length + k < 2 ^ 32)
    (hfree : held.dedup.length + k ≤ n) :
    p.wpk .spare (fun id => held.count id) Q (View.quiet n m) := by
  have hbase : ∀ id, held.count id + k < 2 ^ 32 := fun id =>
    Nat.lt_of_le_of_lt (Nat.add_le_add_right (List.count_le_length (a := id)) k) hk
  have hserve : ∀ own : List PageId, own.length < k → ∀ w : View, w.frames = n →
      (∀ id, w.pins id = own.count id) → PoolMode.spare.Willing
        (w.beside fun id => held.count id) := by
    intro own hown w hframes hpins
    refine PoolMode.willing_spare (View.not_exhausted own held (fun id hid => ?_) ?_)
    · have hpos : 0 < own.count id + held.count id := hpins id ▸ hid
      rcases Nat.add_pos_iff_pos_or_pos.mp hpos with hpos | hpos
      · exact .inl (List.count_pos_iff.mp hpos)
      · exact .inr (List.count_pos_iff.mp hpos)
    · have hn : (w.beside fun id => held.count id).frames = n := hframes
      rw [hn]
      omega
  exact Program.wp_mono (PoolM.wp_keepsTo_of_tidy hT hwp (fun _ => rfl) hbase hserve)
    fun _ _ h => h.1

end CourtDB
