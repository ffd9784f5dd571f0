/-
# Recovering an up-to-date database

Recovery of a database whose pages are all up to date starts from the pages it should end with.
While it replays the log from the beginning it takes the pages through states that the run
never had, and it ends where it started as long as every redo finds room (`recover_again`).

It does not always: a delete gives no space back, so a page that was filled, emptied and filled
again has no room for the second record while the first one's space is still taken
(`recover_loses_record`).
-/
import CourtDB.Recovery.CrashRecovery

namespace CourtDB

namespace Database

open BufferPoolManager (RoomFor)

variable {d : Database} {m : PageId → Option Page} {b : BufferPoolManager}
  {start : PageId → RedoLog.Store (List UInt8)}

/-- Pages that are up to date are images that have seen the whole log. -/
theorem Restored.images (hr : d.Restored start b m) :
    d.Images start (fun id => pageOps id d.log) b m where
  idle := hr.idle
  layout := hr.layout
  records := hr.records
  older _ _ _ := List.prefix_refl _

/-- The pages of a run are up to date when the database is closed and opened again. -/
theorem Upholds.restored_reopen (h : d.Upholds (Past start) m) {n : Nat} (hn : 0 < n) :
    d.Restored start (d.reopen n).pool m where
  idle := h.idle.reopen hn
  layout id q hq := (h.page id q hq).layout
  records id q hq := (h.page id q hq).records

@[simp] theorem recover_log (d : Database) : d.recover.log = d.log := rfl

theorem iterate_recover_log (d : Database) (k : Nat) : (recover^[k] d).log = d.log := by
  induction k with
  | zero => rfl
  | succ k ih => rw [Function.iterate_succ_apply', recover_log, ih]

/-- **Recovery with room keeps up-to-date pages up to date**, however often it runs. -/
theorem Upholds.restored_iterate (h : d.Upholds (Past fun _ _ => none) m) {n : Nat} (hn : 0 < n)
    (k : Nat) (room : ∀ j < k, Run.StepsOk BufferPoolManager.redoStep RoomFor
      (recover^[j] (d.reopen n)).pool d.log) :
    ∃ m', d.Restored (fun _ _ => none) (recover^[k] (d.reopen n)).pool m' ∧
      ∀ id, (m' id).isSome = (m id).isSome := by
  induction k with
  | zero => exact ⟨m, h.restored_reopen hn, fun _ => rfl⟩
  | succ k ih =>
    obtain ⟨m₁, h₁, hsome₁⟩ := ih fun j hj => room j (Nat.lt_succ_of_lt hj)
    have hiff : ∀ id, (m id).isSome ↔ (m₁ id).isSome := fun id => by rw [hsome₁ id]
    obtain ⟨m₂, h₂, hsome₂⟩ :=
      h₁.images.restored h hiff (h.noneStray _) (room k (Nat.lt_succ_self k))
    rw [Function.iterate_succ_apply', Database.recover, iterate_recover_log]
    exact ⟨m₂, h₂, fun id => (hsome₂ id).trans (hsome₁ id)⟩

/-- **Recovery of an up-to-date database is a no-op on its records**, any number of times, for
every run of logged operations: as long as no update of the run places its record below the
free-space offset, and every insert and update that a recovery repeats finds room. -/
theorem recover_again {n n' : Nat} (hn : 0 < n) (hn' : 0 < n') (ops : List LoggedOp)
    (ok : Run.StepsOk step (Allowed Page.UpdateInBounds) (create n) ops) (k : Nat)
    (room : ∀ j < k, Run.StepsOk BufferPoolManager.redoStep RoomFor
      (recover^[j] (((create n).run ops).reopen n')).pool ((create n).run ops).log)
    (id : PageId) (hid : ((create n).run ops).OnPage id) (slotId : UInt16) :
    (recover^[k] (((create n).run ops).reopen n')).pool.recordOf id slotId
      = ((create n).run ops).pool.recordOf id slotId := by
  obtain ⟨m, h, -⟩ := (past_create hn).run stands_past ok
  obtain ⟨m', hr, hsome⟩ := h.restored_iterate hn' k room
  exact hr.recordOf h (fun id => by rw [hsome id]) hid slotId

/-- A record is inserted and deleted, a longer one takes its slot, and the database is recovered
twice: each time the replay deletes what it finds in the slot and inserts both records again. -/
theorem recover_again_reinsert :
    let ops := [.newPage, .insert 1 ⟨[7], by decide⟩, .delete 1 0, .insert 1 ⟨[8, 9], by decide⟩]
    (recover^[2] (((create 1).run ops).reopen 1)).pool.recordOf 1 0
      = ((create 1).run ops).pool.recordOf 1 0 := by
  intro ops
  have hnew : (create 1).pool.disk.header.pageCount ≠ invalidPageId := by decide
  have hpage : ∀ k ∈ [1, 2, 3], ((create 1).run (ops.take k)).OnPage 1 := by decide +kernel
  have hroom : ∀ j < 2, Run.StepsOk BufferPoolManager.redoStep RoomFor
      (recover^[j] (((create 1).run ops).reopen 1)).pool ((create 1).run ops).log := by
    decide +kernel
  exact recover_again Nat.one_pos Nat.one_pos ops
    ⟨hnew, hpage 1 (by decide), hpage 2 (by decide), hpage 3 (by decide), trivial⟩ 2 hroom 1
    (by decide +kernel) 0

/-- A byte is inserted and deleted, and the record that then takes its slot fills more than half
of the page: recovery deletes it and finds no room to insert it again. -/
theorem recover_loses_record :
    let ops := [.newPage, .insert 1 ⟨[7], by decide⟩, .delete 1 0,
      .insert 1 ⟨List.replicate 2050 8, by rw [List.length_replicate]; decide⟩]
    let d := (create 1).run ops
    Run.StepsOk step (Allowed Page.UpdateInBounds) (create 1) ops ∧ d.OnPage 1 ∧
      (d.pool.recordOf 1 0).isSome ∧ (d.reopen 1).recover.pool.recordOf 1 0 = none := by
  intro ops d
  have hnew : (create 1).pool.disk.header.pageCount ≠ invalidPageId := by decide
  have hpage : ∀ k ∈ [1, 2, 3], ((create 1).run (ops.take k)).OnPage 1 := by decide +kernel
  refine ⟨⟨hnew, hpage 1 (by decide), hpage 2 (by decide), hpage 3 (by decide), trivial⟩, ?_⟩
  decide +kernel

end Database

end CourtDB
