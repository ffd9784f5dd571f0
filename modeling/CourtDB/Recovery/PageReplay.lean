/-
# Redo on one page

A page with the slotted layout is a slot store, and a log record of it an operation of that store
(`LogRecord.op`): an insert takes the first slot that holds nothing.  This file shows both
directions at a page: a logged operation performs the record's operation (`LoggedStep`), and `redo`
repeats it, as long as there is room (`Layout.redo`).

`RedoRecord` looks at the slots of the page and at nothing else.  It inserts whenever the slot that
the record names is empty, or is past the directory, and does not ask for that slot: the record goes
where `InsertRecord` puts it.  A delete empties the slot, an update replaces the record.  So `redo`
is `op` on the page's slot store, whatever the page is a state of; whether that is the state it
should be is a question about the whole log, which the library of redo logs treats for slot stores
(`Recovery.Replay`).

Room is the one thing that pages have and slot stores do not.  `RedoFits` asks for it.
-/
import CourtDB.Lib.RedoLog
import CourtDB.Recovery.RecoveryManager
import CourtDB.Buffer.PoolAccess
import CourtDB.Storage.PageStore

namespace CourtDB

open RedoLog

/-! ## 1. Log records as operations of a slot store

Records of other kinds, and records about other pages, are no operation of this page. -/

/-- The operation that a log record describes. -/
def LogRecord.op (r : LogRecord) : Option (Op (List UInt8)) :=
  match r.getType with
  | .insert =>
    match r.getInsertData with
    | .data d => if d.length = 0 then none else some (.insert r.getSlotId.toNat d.bytes)
    | .null _ => none
  | .delete => some (.delete r.getSlotId.toNat)
  | .update => some (.update r.getSlotId.toNat r.getUpdateData.2.bytes)
  | .newPage | .checkpointBegin | .checkpointEnd | .invalid | .other _ => none

/-- The operations on page `id` in a log. -/
def pageOps (id : PageId) (log : List LogRecord) : List (Op (List UInt8)) :=
  log.filterMap fun r => if r.getPageId = id then r.op else none

theorem pageOps_append (id : PageId) (l l' : List LogRecord) :
    pageOps id (l ++ l') = pageOps id l ++ pageOps id l' := List.filterMap_append

theorem pageOps_singleton (id : PageId) (r : LogRecord) :
    pageOps id [r] = if r.getPageId = id then r.op.toList else [] := by
  by_cases hid : r.getPageId = id
  · cases hop : r.op <;> simp [pageOps, hid, hop]
  · simp [pageOps, hid]

@[simp] theorem op_makeInsert (id : PageId) (slotId : UInt16) {data : RecordData}
    (h : data.length ≠ 0) :
    (LogRecord.makeInsert 0 id slotId data).op = some (.insert slotId.toNat data.bytes) := by
  have hdata := LogRecord.getInsertData_makeInsert 0 id slotId h
  simp only [LogRecord.op, hdata, h, if_false]
  rfl

@[simp] theorem op_makeDelete (id : PageId) (slotId : UInt16) (data : RecordData) :
    (LogRecord.makeDelete 0 id slotId data).op = some (.delete slotId.toNat) := rfl

theorem op_makeUpdate (id : PageId) (slotId : UInt16) {oldData newData : RecordData}
    (h : 4 + oldData.bytes.length + newData.bytes.length < 2 ^ 16) :
    (LogRecord.makeUpdate 0 id slotId oldData newData).op
      = some (.update slotId.toNat newData.bytes) := by
  have hdata := LogRecord.getUpdateData_makeUpdate 0 id slotId h
  simp only [LogRecord.op]
  change some (Op.update slotId.toNat _) = _
  rw [hdata]

namespace Page

variable {p q : Page}

/-! ## 2. What a logged operation does

A client logs what it did, with the slot that `InsertRecord` returned and the bytes that were there
before.  An operation that the page refuses is not logged. -/

theorem firstFree_insertSlot (h : p.Layout) : FirstFree p.recordAt p.insertSlot.toNat := by
  obtain ⟨hnot, hbefore, -⟩ := insertSlot_spec h.slots_length
  exact ⟨recordAt_eq_none_iff.mpr hnot, fun t ht => recordAt_isSome_iff.mpr (hbefore t ht)⟩

/-- The page did one logged operation, or refused it. -/
def LoggedStep (p : Page) (res : List LogRecord × Page) : Prop :=
  res = ([], p) ∨ ∃ r op, res.1 = [r] ∧ r.op = some op ∧
    op.Enabled p.recordAt ∧ res.2.Layout ∧ res.2.recordAt = op.apply p.recordAt

/-- A logged operation on page `id` logs records of that page only. -/
theorem pageId_of_mem_loggedInsert {id : PageId} {data : RecordData} {r : LogRecord}
    (hr : r ∈ (p.loggedInsert id data).1) : r.getPageId = id := by
  rw [Page.loggedInsert] at hr
  split at hr
  · exact List.mem_singleton.mp hr ▸ rfl
  · exact absurd hr List.not_mem_nil

theorem pageId_of_mem_loggedDelete {id : PageId} {slotId : UInt16} {r : LogRecord}
    (hr : r ∈ (p.loggedDelete id slotId).1) : r.getPageId = id := by
  rw [Page.loggedDelete] at hr
  split at hr
  · exact List.mem_singleton.mp hr ▸ rfl
  · exact absurd hr List.not_mem_nil

theorem pageId_of_mem_loggedUpdate {id : PageId} {slotId : UInt16} {data : RecordData}
    {r : LogRecord} (hr : r ∈ (p.loggedUpdate id slotId data).1) : r.getPageId = id := by
  rw [Page.loggedUpdate] at hr
  split at hr
  · exact List.mem_singleton.mp hr ▸ rfl
  · exact absurd hr List.not_mem_nil

theorem Layout.loggedInsert (h : p.Layout) (id : PageId) (data : RecordData) :
    LoggedStep p (p.loggedInsert id data) := by
  rcases insertRecord_cases p (.data data) with hno | ⟨r, hr, h0, hf, heq⟩
  · exact .inl (by rw [Page.loggedInsert, hno])
  · obtain rfl := RecordArg.data.inj hr
    refine .inr ⟨_, _, by rw [Page.loggedInsert, heq], op_makeInsert id _ h0,
      firstFree_insertSlot h, ?_, ?_⟩
    · rw [Page.loggedInsert, heq]; exact h.placeRecord h0 hf
    · rw [Page.loggedInsert, heq]
      funext j
      rw [h.placeRecord_recordAt h0 hf, Op.apply, Function.update_apply]

theorem Layout.loggedDelete (h : p.Layout) (id : PageId) (slotId : UInt16) :
    LoggedStep p (p.loggedDelete id slotId) := by
  rcases deleteRecord_cases h.slots_length slotId with ⟨-, heq⟩ | ⟨s, hs, heq⟩
  · exact .inl (by rw [Page.loggedDelete, heq])
  · refine .inr ⟨_, _, by rw [Page.loggedDelete, heq], op_makeDelete id _ _, ?_, ?_, ?_⟩
    · exact recordAt_isSome_iff.mpr ⟨s, hs⟩
    · rw [Page.loggedDelete, heq]; exact h.tombstone hs
    · rw [Page.loggedDelete, heq]
      funext j
      rw [tombstone_recordAt hs, Op.apply, Function.update_apply]

/-- An update that succeeds finds room for the whole new record. -/
def UpdateInBounds (p : Page) (slotId : UInt16) (data : RecordData) : Prop :=
  (p.updateRecord slotId data).1 = true → p.HasRoomFor slotId data

theorem Layout.loggedUpdate (h : p.Layout) (id : PageId) {slotId : UInt16} {data : RecordData}
    (hroom : p.UpdateInBounds slotId data) :
    LoggedStep p (p.loggedUpdate id slotId data) := by
  cases hres : p.updateRecord slotId data with
  | mk ok p' =>
    cases ok with
    | false =>
      have hsame : p' = p := by
        rcases updateRecord_cases h.slots_length slotId data with
          ⟨-, heq⟩ | ⟨-, -, -, heq⟩ | ⟨-, -, -, heq⟩ | ⟨-, -, -, -, heq⟩ <;>
          rw [hres] at heq <;> simp_all
      exact .inl (by rw [Page.loggedUpdate, hres, hsame])
    | true =>
      have hin := hroom (by rw [hres])
      obtain ⟨s, hs⟩ : ∃ s, p.LiveAt slotId.toNat s := by
        rcases updateRecord_cases h.slots_length slotId data with
          ⟨-, heq⟩ | ⟨s, hs, -⟩ | ⟨s, hs, -⟩ | ⟨s, hs, -⟩
        · rw [hres] at heq; simp at heq
        all_goals exact ⟨s, hs⟩
      obtain ⟨-, hlay, hrec⟩ := h.updateRecord hs hin
      rw [hres] at hlay hrec
      have hsize : 4 + (p.oldData slotId).bytes.length + data.bytes.length < 2 ^ 16 := by
        have h1 : (p.oldData slotId).bytes.length ≤ s.length.toNat := by
          rw [← hs.slot_eq]; exact List.length_take_le _ _
        have h2 := h.mem_range _ _ hs
        have h3 := h.end_le
        simp only [pageSize] at h2 h3
        unfold HasRoomFor at hin
        rw [hs.slot_eq] at hin
        omega
      refine .inr ⟨_, _, by rw [Page.loggedUpdate, hres], op_makeUpdate id _ hsize, ?_, ?_, ?_⟩
      · exact recordAt_isSome_iff.mpr ⟨s, hs⟩
      · rw [Page.loggedUpdate, hres]; exact hlay
      · rw [Page.loggedUpdate, hres]
        funext j
        rw [hrec, Op.apply, Function.update_apply]

/-! ## 3. What redo does

The answers of the page are not looked at by the source.  With room they are all yes. -/

/-- `InsertRecord` finds room for the record it is given, if it is given one. -/
def ArgFits (p : Page) : RecordArg → Prop
  | .data d => p.fits d.length = true
  | .null _ => True

instance (p : Page) : DecidablePred p.ArgFits
  | .data d => inferInstanceAs (Decidable (p.fits d.length = true))
  | .null _ => inferInstanceAs (Decidable True)

/-- A redo of the record finds room on the page: a repeated insert fits, and a repeated update
finds room for the whole new record. -/
def RedoFits (p : Page) (r : LogRecord) : Prop :=
  (r.getType = .insert → p.getRecord r.getSlotId = none → p.ArgFits r.getInsertData) ∧
    (r.getType = .update → (p.getRecord r.getSlotId).isSome →
      p.HasRoomFor r.getSlotId r.getUpdateData.2)

instance (p : Page) (r : LogRecord) : Decidable (p.RedoFits r) :=
  inferInstanceAs (Decidable (_ ∧ _))

/-- **Redo with room repeats the record's operation** on the page as a slot store. -/
theorem Layout.redo (h : p.Layout) {r : LogRecord} {op : Op (List UInt8)} (hop : r.op = some op)
    (hfit : p.RedoFits r) :
    (p.redo r).2.Layout ∧ op.Redo p.recordAt (p.redo r).2.recordAt := by
  have hget := getRecord_eq h.slots_length r.getSlotId
  unfold LogRecord.op at hop
  obtain ⟨hins, hupd⟩ := hfit
  unfold Page.redo
  rw [hget] at hins hupd ⊢
  cases htype : r.getType with
  | insert =>
    simp only [htype] at hop ⊢
    cases hdata : r.getInsertData with
    -- a record without data is not an operation
    | null n => simp [hdata] at hop
    | data d =>
      simp only [hdata] at hop ⊢
      by_cases h0 : d.length = 0
      · simp [h0] at hop
      · rw [if_neg h0, Option.some.injEq] at hop
        subst hop
        -- the slot is taken: the redo skips the insert
        cases hrec : p.recordAt r.getSlotId.toNat with
        | some v => simpa [Op.Redo, hrec] using h
        -- the slot is free: the insert takes the first free slot of the page
        | none =>
          have hf : p.fits d.length = true := by simpa [hdata, ArgFits] using hins htype hrec
          have hplace : (p.insertRecord (.data d)).2 = p.placeRecord d := by
            simp [Page.insertRecord, h0, hf]
          simp only [Option.isSome_none, Bool.false_eq_true, if_false, Op.Redo, hrec, hplace]
          refine ⟨h.placeRecord h0 hf, _, firstFree_insertSlot h, ?_⟩
          funext j
          rw [h.placeRecord_recordAt h0 hf, Function.update_apply]
  | delete =>
    simp only [htype, Option.some.injEq] at hop ⊢
    subst hop
    -- there is no record to delete, which is what the operation would leave
    cases hrec : p.recordAt r.getSlotId.toNat with
    | none =>
      simp only [Option.isSome_none, Bool.false_eq_true, if_false, Op.Redo]
      exact ⟨h, (Function.update_eq_self_iff.mpr hrec.symm).symm⟩
    -- the record is deleted again
    | some v =>
      obtain ⟨s, hs⟩ := recordAt_isSome_iff.mp (by rw [hrec]; rfl)
      rcases deleteRecord_cases h.slots_length r.getSlotId with ⟨hno, -⟩ | ⟨s', hs', heq⟩
      · exact absurd hs (hno s)
      · simp only [Option.isSome_some, if_true, heq, Op.Redo]
        refine ⟨h.tombstone hs', ?_⟩
        funext j
        rw [tombstone_recordAt hs', Function.update_apply]
  | update =>
    simp only [htype, Option.some.injEq] at hop ⊢
    subst hop
    cases hrec : p.recordAt r.getSlotId.toNat with
    -- there is no record to update
    | none => simpa [Op.Redo, hrec] using h
    -- the update has room, so it writes the whole new record
    | some v =>
      obtain ⟨s, hs⟩ := recordAt_isSome_iff.mp (by rw [hrec]; rfl)
      obtain ⟨-, hlay, hupd⟩ := h.updateRecord hs (hupd htype (by rw [hrec]; rfl))
      simp only [Option.isSome_some, if_true, Op.Redo, hrec]
      refine ⟨hlay, ?_⟩
      funext j
      rw [hupd, Function.update_apply]
  -- the other types are not operations on a page
  | newPage => simp [htype] at hop
  | checkpointBegin => simp [htype] at hop
  | checkpointEnd => simp [htype] at hop
  | invalid => simp [htype] at hop
  | other code => simp [htype] at hop

end Page

end CourtDB
