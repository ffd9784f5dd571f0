/-
# The page as a record store

What a slotted page is for: a store of byte strings addressed by slot ids.  `RecordStore` is
that abstract view, and `StoreRun` runs it next to the page: the only thing it learns from the
page is which slot an insert was given and whether a delete was accepted.

`faithful_store` says the page never disagrees with the store, whatever the sequence of
inserts, deletes, compactions and passages through the raw bytes: it keeps the slotted layout,
every slot reads back exactly what the store has there, and a refused call changes nothing.
-/
import CourtDB.Lib.Run
import CourtDB.Storage.PageImage
import Mathlib.Logic.Function.Basic

namespace CourtDB

namespace Page

/-! ## 1. The abstract view -/

/-- Records by slot id. -/
abbrev RecordStore := UInt16 → Option (List UInt8)

/-- Two slot ids are one when they address the same directory entry. -/
theorem update_apply_toNat (m : RecordStore) (slotId : UInt16) (v : Option (List UInt8))
    (s : UInt16) :
    Function.update m slotId v s = if s.toNat = slotId.toNat then v else m s := by
  simp only [Function.update_apply, UInt16.toNat_inj]

/-- The store that a page holds. -/
def store (p : Page) : RecordStore := fun s => p.getRecord s

theorem Layout.store_apply {p : Page} (h : p.Layout) (s : UInt16) :
    p.store s = p.recordAt s.toNat := getRecord_eq h.slots_length s

/-! ## 2. The calls, as operations of the store -/

section Spec

variable {p : Page}

/-- **InsertRecord** refuses and changes nothing, or puts the record under a slot id that held
none. -/
theorem Layout.insertRecord_store (h : p.Layout) (a : RecordArg) :
    p.insertRecord a = (none, p) ∨
      ∃ r slotId, a = .data r ∧ (p.insertRecord a).1 = some slotId ∧ p.store slotId = none ∧
        (p.insertRecord a).2.Layout ∧
        (p.insertRecord a).2.store = Function.update p.store slotId (some r.bytes) := by
  rcases insertRecord_cases p a with hno | ⟨r, rfl, h0, hf, heq⟩
  · exact .inl hno
  · refine .inr ⟨r, p.insertSlot, rfl, ?_⟩
    rw [heq]
    refine ⟨rfl, ?_, h.placeRecord h0 hf, ?_⟩
    · rw [h.store_apply, recordAt_eq_none_iff]
      exact (insertSlot_spec h.slots_length).1
    · funext s
      rw [(h.placeRecord h0 hf).store_apply, h.placeRecord_recordAt h0 hf, update_apply_toNat,
        h.store_apply]

/-- **DeleteRecord** succeeds exactly on the slots that hold a record, and erases it. -/
theorem Layout.deleteRecord_store (h : p.Layout) (slotId : UInt16) :
    (p.deleteRecord slotId).1 = (p.store slotId).isSome ∧
      ((p.deleteRecord slotId).1 = false → (p.deleteRecord slotId).2 = p) ∧
      (p.deleteRecord slotId).2.Layout ∧
      (p.deleteRecord slotId).2.store = Function.update p.store slotId none := by
  rw [h.store_apply]
  rcases deleteRecord_cases h.slots_length slotId with ⟨hno, heq⟩ | ⟨s, hs, heq⟩
  · have hnone : p.recordAt slotId.toNat = none := recordAt_eq_none_iff.mpr hno
    rw [heq, hnone]
    refine ⟨rfl, fun _ => rfl, h, ?_⟩
    rw [eq_comm, Function.update_eq_self_iff, h.store_apply, hnone]
  · rw [heq, recordAt_of_liveAt hs]
    refine ⟨rfl, fun hf => absurd hf Bool.noConfusion, h.tombstone hs, ?_⟩
    funext t
    rw [(h.tombstone hs).store_apply, tombstone_recordAt hs, update_apply_toNat, h.store_apply]

theorem Layout.compact_store (h : p.Layout) : p.compact.store = p.store := by
  funext s
  rw [h.compact.store_apply, h.slotted.compact_recordAt, h.store_apply]

/-- The passage through the raw bytes, into whatever page object. -/
theorem Layout.reload_store (h : p.Layout) (frame : Page) :
    (frame.loadFrom p.serializeToBuffer.data).Layout ∧
      (frame.loadFrom p.serializeToBuffer.data).store = p.store := by
  have hsame := (sameContent_loadFrom_serialize frame h.directoryFits).symm
  exact ⟨hsame.layout h, funext fun s => (hsame.getRecord h s).symm⟩

end Spec

/-! ## 3. Runs -/

/-- A call on a page.  `reload` is `SerializeToBuffer` followed by `DeserializeFromBuffer` on
the raw 4096 bytes in the page object `frame`. -/
inductive Call
  | insert (a : RecordArg)
  | delete (slotId : UInt16)
  | compact
  | reload (frame : Page)

/-- A page, and the store its calls have built up. -/
structure StoreRun where
  page : Page
  store : RecordStore

/-- One call: the page runs it, the store records what was accepted. -/
def StoreRun.step (st : StoreRun) : Call → StoreRun
  | .insert a =>
    match (st.page.insertRecord a).1, a with
    | some slotId, .data r =>
      ⟨(st.page.insertRecord a).2, Function.update st.store slotId (some r.bytes)⟩
    | _, _ => ⟨(st.page.insertRecord a).2, st.store⟩
  | .delete slotId =>
    if (st.page.deleteRecord slotId).1 then
      ⟨(st.page.deleteRecord slotId).2, Function.update st.store slotId none⟩
    else ⟨(st.page.deleteRecord slotId).2, st.store⟩
  | .compact => ⟨st.page.compact, st.store⟩
  | .reload frame => ⟨frame.loadFrom st.page.serializeToBuffer.data, st.store⟩

/-- The calls of `ops` in turn, on a fresh page. -/
def StoreRun.run (id : PageId) (ops : List Call) : StoreRun :=
  ops.foldl StoreRun.step ⟨Page.ofId id, fun _ => none⟩

/-- The page has the layout and holds the store. -/
def StoreRun.Inv (st : StoreRun) : Prop := st.page.Layout ∧ st.page.store = st.store

theorem StoreRun.inv_step (st : StoreRun) (op : Call) (h : st.Inv) : (st.step op).Inv := by
  obtain ⟨hp, hs⟩ := h
  cases op with
  | insert a =>
    simp only [StoreRun.step]
    rcases hp.insertRecord_store a with heq | ⟨r, slotId, rfl, heq, -, hlay, hst⟩
    · rw [heq]; exact ⟨hp, hs⟩
    · simp only [heq]
      exact ⟨hlay, hs ▸ hst⟩
  | delete slotId =>
    obtain ⟨-, hfalse, hlay, hst⟩ := hp.deleteRecord_store slotId
    simp only [StoreRun.step]
    split
    · exact ⟨hlay, hs ▸ hst⟩
    · rename_i hres
      have hsame := hfalse (by simpa using hres)
      exact ⟨hlay, by rw [hsame]; exact hs⟩
  | compact => exact ⟨hp.compact, hp.compact_store.trans hs⟩
  | reload frame => exact ⟨(hp.reload_store frame).1, (hp.reload_store frame).2.trans hs⟩

theorem StoreRun.inv_run (id : PageId) (ops : List Call) : (StoreRun.run id ops).Inv := by
  refine Run.invariant (I := StoreRun.Inv) StoreRun.inv_step ⟨layout_ofId id, ?_⟩ ops
  funext s
  rw [(layout_ofId id).store_apply]
  rfl

/-- **The slotted page is a faithful slot-indexed record store.**  After any sequence of calls
the page has the slotted layout, each slot id reads back the bytes last inserted under it or
nothing if it is not live, a delete succeeds exactly on a live slot, and an insert or a delete
that fails changes nothing. -/
theorem faithful_store (id : PageId) (ops : List Call) :
    let st := StoreRun.run id ops
    st.page.Layout ∧
      (∀ slotId, st.page.getRecord slotId = st.store slotId) ∧
      (∀ a, (st.page.insertRecord a).1 = none → (st.page.insertRecord a).2 = st.page) ∧
      (∀ slotId, (st.page.deleteRecord slotId).1 = (st.store slotId).isSome) ∧
      ∀ slotId, (st.page.deleteRecord slotId).1 = false →
        (st.page.deleteRecord slotId).2 = st.page := by
  intro st
  obtain ⟨hp, hs⟩ := StoreRun.inv_run id ops
  refine ⟨hp, fun slotId => congrFun hs slotId, fun a ha => ?_, fun slotId => ?_, fun slotId => ?_⟩
  · rcases insertRecord_cases st.page a with heq | ⟨r, -, -, -, heq⟩
    · rw [heq]
    · rw [heq] at ha
      exact absurd ha (by simp)
  · rw [(hp.deleteRecord_store slotId).1, hs]
  · exact (hp.deleteRecord_store slotId).2.1

end Page

end CourtDB
