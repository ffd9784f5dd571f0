/-
# Compaction

`Page.compact` repacks the live records, in descending order of their offsets, against the end of
the page.  `repack_spec` is what the loop does from any write position that leaves room for the
records still to come: each of them ends up, with its bytes, in its own range below that position. 
Room there is, because live records are disjoint: their lengths add up to at most the data region
(`sum_length_le`).

The order matters.  The records are moved within the page, and the record with the highest offset
goes first: it moves up, or stays, and the bytes it is written over are its own or lie above all
records that are still to be moved.  In another order a record could be overwritten before it was
read.  So the invariant says of the records to come that they lie below the write position, and that
what they will be read from has not been touched.

Records of length zero take no room, and where one lies says nothing; they are moved like the
others.
-/
import CourtDB.Storage.PageLayout

namespace CourtDB

open Bytes

namespace Page

/-! ## 1. The live records of a directory

The list that `Compact` sorts: slot, offset and length of each slot that is not empty. -/

theorem mem_liveRecords {p : Page} (hlen : p.slots.length = p.header.numSlots.toNat)
    {r : LiveRecord} :
    r ∈ p.liveRecords ↔ p.LiveAt r.slotId ⟨r.originalOffset, r.length⟩ := by
  simp only [liveRecords, List.mem_filterMap, List.mem_range, LiveAt]
  constructor
  · rintro ⟨i, hi, heq⟩
    rw [← hlen] at hi
    rw [List.getD_eq_getElem?_getD, List.getElem?_eq_getElem hi, Option.getD_some] at heq
    split at heq
    · exact absurd heq (by simp)
    · rename_i hemp
      obtain rfl := Option.some.inj heq
      exact ⟨List.getElem?_eq_getElem hi, by simpa using hemp⟩
  · rintro ⟨hget, hemp⟩
    have hlt := (List.getElem?_eq_some_iff.mp hget).1
    refine ⟨r.slotId, hlen ▸ hlt, ?_⟩
    rw [List.getD_eq_getElem?_getD, hget, Option.getD_some, if_neg (by simp [hemp])]

theorem liveRecords_nodup (p : Page) : (p.liveRecords.map LiveRecord.slotId).Nodup := by
  unfold liveRecords
  rw [List.Nodup, List.pairwise_map, List.pairwise_filterMap]
  have hid : ∀ (i : Nat) (s : SlotEntry) (r : LiveRecord),
      (if s.isEmpty then none else some ⟨i, s.offset, s.length⟩) = some r → r.slotId = i := by
    intro i s r hr
    split at hr
    · exact absurd hr (by simp)
    · exact (congrArg LiveRecord.slotId (Option.some.inj hr)).symm
  refine List.nodup_range.imp fun {i j} hij a ha b hb => ?_
  rw [hid i _ a ha, hid j _ b hb]
  exact hij

/-- Live records of a page with the layout, in the order `Compact` takes them: each one ends
where the ones before it start, unless it lies with an empty record. -/
theorem sum_length_le (lo : Nat) : ∀ (l : List LiveRecord) (hi : Nat), lo ≤ hi →
    l.Pairwise LiveRecord.before →
    (∀ r ∈ l, lo ≤ r.originalOffset.toNat ∧ r.originalOffset.toNat + r.length.toNat ≤ hi) →
    l.Pairwise (fun a b => a.originalOffset.toNat + a.length.toNat ≤ b.originalOffset.toNat ∨
      b.originalOffset.toNat + b.length.toNat ≤ a.originalOffset.toNat) →
    (l.map fun r => r.length.toNat).sum + lo ≤ hi
  | [], hi, hle, _, _, _ => by simpa using hle
  | r :: l, hi, hle, hsort, hmem, hdis => by
    obtain ⟨hbefore, hsort⟩ := List.pairwise_cons.mp hsort
    obtain ⟨hhead, hdis⟩ := List.pairwise_cons.mp hdis
    have hr := hmem r List.mem_cons_self
    rw [List.map_cons, List.sum_cons]
    by_cases h0 : r.length.toNat = 0
    · -- an empty record bounds nothing, the rest still ends at `hi`
      have := sum_length_le lo l hi hle hsort (fun b hb => hmem b (List.mem_cons_of_mem _ hb)) hdis
      omega
    · have := sum_length_le lo l r.originalOffset.toNat hr.1 hsort
        (fun b hb => ⟨(hmem b (List.mem_cons_of_mem _ hb)).1, by
          have hb1 := hhead b hb
          have hb2 := UInt16.le_iff_toNat_le.mp (hbefore b hb)
          omega⟩) hdis
      omega

/-! ## 2. The repacking loop

The induction is on the records still to come, and the write position is any that leaves room. -/

/-- What a record of the loop looks like once it is repacked between `lo` and `hi`. -/
def Packed (temp data : Buf) (slots : List SlotEntry) (lo hi : Nat) (r : LiveRecord) : Prop :=
  ∃ o : UInt16, slots[r.slotId]? = some ⟨o, r.length⟩ ∧ lo ≤ o.toNat ∧
    o.toNat + r.length.toNat ≤ hi ∧
    data.read o.toNat r.length.toNat = temp.read r.originalOffset.toNat r.length.toNat

/-- **The loop invariant of `Compact`, solved.** -/
theorem repack_spec (temp : Buf) : ∀ (l : List LiveRecord) (data : Buf) (slots : List SlotEntry)
    (w : UInt16), (l.map fun r => r.length.toNat).sum ≤ w.toNat →
    (l.map LiveRecord.slotId).Nodup →
    (∀ r ∈ l, ∃ o, slots[r.slotId]? = some ⟨o, r.length⟩) →
    ∀ {data' slots' w'}, repack temp l data slots w = (data', slots', w') →
      w'.toNat + (l.map fun r => r.length.toNat).sum = w.toNat ∧
      (∀ i, w.toNat ≤ i → data' i = data i) ∧ slots'.length = slots.length ∧
      (∀ j, (∀ r ∈ l, r.slotId ≠ j) → slots'[j]? = slots[j]?) ∧
      (∀ r ∈ l, Packed temp data' slots' w'.toNat w.toNat r) ∧
      ∀ r ∈ l, ∀ t ∈ l, r.slotId ≠ t.slotId → ∀ o u : UInt16,
        slots'[r.slotId]? = some ⟨o, r.length⟩ → slots'[t.slotId]? = some ⟨u, t.length⟩ →
        o.toNat + r.length.toNat ≤ u.toNat ∨ u.toNat + t.length.toNat ≤ o.toNat
  | [], data, slots, w, _, _, _, _, _, _, h => by
    simp only [repack, Prod.mk.injEq] at h
    obtain ⟨rfl, rfl, rfl⟩ := h
    simp
  | r :: l, data, slots, w, hsum, hnd, hslots, data', slots', w', h => by
    rw [List.map_cons, List.sum_cons] at hsum
    obtain ⟨hnotin, hnd⟩ := List.nodup_cons.mp hnd
    have hw : (w - r.length).toNat = w.toNat - r.length.toNat := toNat_sub16 (by omega)
    obtain ⟨o₀, ho₀⟩ := hslots r List.mem_cons_self
    have hneq : ∀ t ∈ l, t.slotId ≠ r.slotId := fun t ht he =>
      hnotin (List.mem_map.mpr ⟨t, ht, he⟩)
    -- the directory after this record's offset is set
    have hmod : ∀ j, (slots.modify r.slotId fun s => { s with offset := w - r.length })[j]?
        = if r.slotId = j then some ⟨w - r.length, r.length⟩ else slots[j]? := by
      intro j
      rw [List.getElem?_modify]
      by_cases hj : r.slotId = j
      · subst hj; simp [ho₀]
      · simp [hj]
    obtain ⟨ih1, ih2, ih3, ih4, ih5, ih6⟩ := repack_spec temp l
      (data.write (w - r.length).toNat (temp.read r.originalOffset.toNat r.length.toNat)) _
      (w - r.length) (by rw [hw]; omega) hnd
      (fun t ht => by
        obtain ⟨o, ho⟩ := hslots t (List.mem_cons_of_mem _ ht)
        exact ⟨o, by rw [hmod, if_neg (Ne.symm (hneq t ht))]; exact ho⟩) h
    have hhead : slots'[r.slotId]? = some ⟨w - r.length, r.length⟩ := by
      rw [ih4 r.slotId hneq, hmod, if_pos rfl]
    refine ⟨?_, ?_, ?_, ?_, ?_, ?_⟩
    · rw [List.map_cons, List.sum_cons]; omega
    · intro i hi
      rw [ih2 i (by omega), Buf.write_apply_of_ge (by simp; omega)]
    · rw [ih3, List.length_modify]
    · intro j hj
      rw [ih4 j fun t ht => hj t (List.mem_cons_of_mem _ ht), hmod,
        if_neg (hj r List.mem_cons_self)]
    · intro t ht
      rcases List.mem_cons.mp ht with rfl | ht
      · refine ⟨w - t.length, hhead, by omega, by omega, ?_⟩
        -- later records are written below this one
        have hself := Buf.read_write_self data (w - t.length).toNat
          (temp.read t.originalOffset.toNat t.length.toNat)
        rw [Buf.length_read] at hself
        rw [Buf.read_congr fun i h1 _ => ih2 i h1, hself]
      · obtain ⟨o, h1, h2, h3, h4⟩ := ih5 t ht
        exact ⟨o, h1, h2, by omega, h4⟩
    · -- the records still to come end where this one starts
      have hbelow : ∀ t ∈ l, ∀ u : UInt16, slots'[t.slotId]? = some ⟨u, t.length⟩ →
          u.toNat + t.length.toNat ≤ (w - r.length).toNat := by
        intro t ht u hu
        obtain ⟨o, h1, -, h3, -⟩ := ih5 t ht
        have : o = u := by simpa [hu] using h1.symm
        exact this ▸ h3
      intro t ht v hv hne o u ho hu
      rcases List.mem_cons.mp ht with rfl | ht' <;> rcases List.mem_cons.mp hv with rfl | hv'
      · exact absurd rfl hne
      · have : w - t.length = o := by simpa [hhead] using ho
        exact .inr (this ▸ hbelow v hv' u hu)
      · have : w - v.length = u := by simpa [hhead] using hu
        exact .inl (this ▸ hbelow t ht' o ho)
      · exact ih6 t ht' v hv' hne o u ho hu

/-! ## 3. Compacting a page

The directory keeps its slots, so record ids stay valid: only offsets change. -/

instance : Std.Total LiveRecord.before :=
  ⟨fun a b => by
    unfold LiveRecord.before
    rw [UInt16.le_iff_toNat_le, UInt16.le_iff_toNat_le]
    omega⟩

instance : IsTrans LiveRecord LiveRecord.before :=
  ⟨fun a b c h1 h2 => by
    unfold LiveRecord.before at *
    rw [UInt16.le_iff_toNat_le] at *
    omega⟩

/-- The slotted layout without the record counter: `Compact` does not read it. -/
structure Slotted (p : Page) : Prop where
  slots_length : p.slots.length = p.header.numSlots.toNat
  offset_eq : p.header.freeSpaceOffset.toNat = 20 + 4 * p.header.numSlots.toNat
  offset_le : p.header.freeSpaceOffset.toNat ≤ p.header.freeSpaceEnd.toNat
  end_le : p.header.freeSpaceEnd.toNat ≤ pageSize
  mem_range : ∀ i s, p.LiveAt i s →
    p.header.freeSpaceEnd.toNat ≤ s.offset.toNat ∧ s.offset.toNat + s.length.toNat ≤ pageSize
  disjoint : ∀ i j s t, i ≠ j → p.LiveAt i s → p.LiveAt j t →
    s.offset.toNat + s.length.toNat ≤ t.offset.toNat ∨
      t.offset.toNat + t.length.toNat ≤ s.offset.toNat

theorem Layout.slotted {p : Page} (h : p.Layout) : p.Slotted where
  slots_length := h.slots_length
  offset_eq := h.offset_eq
  offset_le := h.offset_le
  end_le := h.end_le
  mem_range := h.mem_range
  disjoint := h.disjoint

/-- What `Compact` establishes about the directory, the free-space boundary and the bytes. -/
theorem Slotted.compact_spec {p : Page} (h : p.Slotted) :
    p.header.freeSpaceEnd.toNat ≤ p.compact.header.freeSpaceEnd.toNat ∧
      p.compact.header.freeSpaceEnd.toNat
        + (p.liveRecords.map fun r => r.length.toNat).sum = pageSize ∧
      p.compact.slots.length = p.slots.length ∧
      (∀ j, (∀ s, ¬ p.LiveAt j s) → p.compact.slots[j]? = p.slots[j]?) ∧
      (∀ j s, p.LiveAt j s → ∃ o : UInt16, p.compact.slots[j]? = some ⟨o, s.length⟩ ∧
        p.compact.header.freeSpaceEnd.toNat ≤ o.toNat ∧ o.toNat + s.length.toNat ≤ pageSize ∧
        p.compact.data.read o.toNat s.length.toNat
          = p.data.read s.offset.toNat s.length.toNat) ∧
      ∀ i j s t, i ≠ j → p.LiveAt i s → p.LiveAt j t → ∀ o u : UInt16,
        p.compact.slots[i]? = some ⟨o, s.length⟩ → p.compact.slots[j]? = some ⟨u, t.length⟩ →
        o.toNat + s.length.toNat ≤ u.toNat ∨ u.toNat + t.length.toNat ≤ o.toNat := by
  -- the live records, sorted by their offset, from the highest down
  have hperm := List.perm_insertionSort LiveRecord.before p.liveRecords
  have hmem : ∀ r, r ∈ p.liveRecords.insertionSort LiveRecord.before ↔
      p.LiveAt r.slotId ⟨r.originalOffset, r.length⟩ := fun r => by
    rw [hperm.mem_iff, mem_liveRecords h.slots_length]
  have hnd : ((p.liveRecords.insertionSort LiveRecord.before).map LiveRecord.slotId).Nodup :=
    (hperm.map _).nodup_iff.mpr p.liveRecords_nodup
  have hsum : ((p.liveRecords.insertionSort LiveRecord.before).map fun r => r.length.toNat).sum
      = (p.liveRecords.map fun r => r.length.toNat).sum := (hperm.map _).sum_nat
  -- the records are disjoint, so their lengths fit into the data region
  have hroom := sum_length_le p.header.freeSpaceEnd.toNat _ pageSize h.end_le
    (List.pairwise_insertionSort LiveRecord.before p.liveRecords)
    (fun r hr => h.mem_range _ _ ((hmem r).mp hr))
    ((List.pairwise_map.mp hnd).imp_of_mem fun {a b} ha hb hab =>
      h.disjoint _ _ _ _ hab ((hmem a).mp ha) ((hmem b).mp hb))
  -- they are moved one after the other, against the end of the page
  have hpage : (UInt16.ofNat pageSize).toNat = pageSize := rfl
  obtain ⟨h1, -, h3, h4, h5, h6⟩ := repack_spec p.data
    (p.liveRecords.insertionSort LiveRecord.before) p.data p.slots (UInt16.ofNat pageSize)
    (by omega) hnd (fun r hr => ⟨_, ((hmem r).mp hr).1⟩)
    (show _ = (p.compact.data, p.compact.slots, p.compact.header.freeSpaceEnd) from rfl)
  rw [hpage] at h1
  -- the free space, the directory, the dead slots and the records
  refine ⟨by omega, hsum ▸ h1, h3, ?_, ?_, ?_⟩
  · exact fun j hj => h4 j fun r hr he => hj _ (he ▸ (hmem r).mp hr)
  · intro j s hs
    exact h5 ⟨j, s.offset, s.length⟩ ((hmem _).mpr hs)
  · intro i j s t hij hs ht
    exact h6 ⟨i, s.offset, s.length⟩ ((hmem _).mpr hs) ⟨j, t.offset, t.length⟩ ((hmem _).mpr ht)
      hij

/-- A slot is live after compaction exactly when it was, with a record of the same length. -/
theorem Slotted.compact_liveAt {p : Page} (h : p.Slotted) (j : Nat) (e : SlotEntry) :
    p.compact.LiveAt j e ↔
      p.compact.slots[j]? = some e ∧ ∃ s, p.LiveAt j s ∧ e.length = s.length := by
  obtain ⟨hge, -, -, hdead, hlive, -⟩ := h.compact_spec
  have h1 := h.offset_eq
  have h2 := h.offset_le
  constructor
  · intro he
    by_cases hj : ∃ s, p.LiveAt j s
    · obtain ⟨s, hs⟩ := hj
      obtain ⟨o, ho, -⟩ := hlive j s hs
      obtain rfl := Option.some.inj (he.1.symm.trans ho)
      exact ⟨he.1, s, hs, rfl⟩
    · rw [not_exists] at hj
      exact absurd ⟨(hdead j hj).symm.trans he.1, he.2⟩ (hj e)
  · rintro ⟨he, s, hs, -⟩
    obtain ⟨o, ho, hlo, -⟩ := hlive j s hs
    obtain rfl := Option.some.inj (he.symm.trans ho)
    exact ⟨he, SlotEntry_isEmpty_of_offset (by omega)⟩

/-- Compaction changes no slot between live and empty. -/
theorem Slotted.compact_isEmpty {p : Page} (h : p.Slotted) :
    p.compact.slots.map SlotEntry.isEmpty = p.slots.map SlotEntry.isEmpty := by
  obtain ⟨-, -, hlen, hdead, hlive, -⟩ := h.compact_spec
  refine List.ext_getElem (by simp [hlen]) fun j h1 h2 => ?_
  simp only [List.length_map] at h1 h2
  rw [List.getElem_map, List.getElem_map]
  cases hs : (p.slots[j]).isEmpty with
  | false =>
    have hl : p.LiveAt j p.slots[j] := ⟨List.getElem?_eq_getElem h2, hs⟩
    obtain ⟨o, ho, -⟩ := hlive j _ hl
    have he : p.compact.LiveAt j _ := (h.compact_liveAt j _).mpr ⟨ho, _, hl, rfl⟩
    rw [List.getElem?_eq_getElem h1, Option.some.injEq] at ho
    rw [ho]
    exact he.2
  | true =>
    have hno : ∀ s, ¬ p.LiveAt j s := fun s hl => by
      have : p.slots[j] = s :=
        Option.some.inj ((List.getElem?_eq_getElem h2).symm.trans hl.1)
      exact absurd hl.2 (by rw [← this, hs]; decide)
    have := hdead j hno
    rw [List.getElem?_eq_getElem h1, List.getElem?_eq_getElem h2] at this
    rw [Option.some.inj this, hs]

theorem Slotted.compact {p : Page} (h : p.Slotted) : p.compact.Slotted := by
  obtain ⟨hge, hend, hlen, hdead, hlive, hdis⟩ := h.compact_spec
  constructor
  · exact hlen.trans h.slots_length
  · exact h.offset_eq
  · exact h.offset_le.trans hge
  · omega
  · intro i e he
    obtain ⟨hget, s, hs, hl⟩ := (h.compact_liveAt i e).mp he
    obtain ⟨o, ho, hlo, hhi, -⟩ := hlive i s hs
    obtain rfl := Option.some.inj (hget.symm.trans ho)
    exact ⟨hlo, hhi⟩
  · intro i j e f hij he hf
    obtain ⟨hget, s, hs, hl⟩ := (h.compact_liveAt i e).mp he
    obtain ⟨hget', t, ht, hl'⟩ := (h.compact_liveAt j f).mp hf
    have := hdis i j s t hij hs ht e.offset f.offset (by rw [hget, ← hl]) (by rw [hget', ← hl'])
    rwa [← hl, ← hl'] at this

/-- **Compaction keeps the layout.** -/
theorem Layout.compact {p : Page} (h : p.Layout) : p.compact.Layout := by
  have hs := h.slotted.compact
  refine ⟨hs.slots_length, hs.offset_eq, hs.offset_le, hs.end_le, hs.mem_range, hs.disjoint, ?_⟩
  change p.header.numRecords.toNat = _
  have hc : ∀ l : List SlotEntry, l.countP (fun s => !s.isEmpty)
      = (l.map SlotEntry.isEmpty).countP not := fun l => by
    rw [List.countP_map]
    rfl
  rw [h.count, hc, hc, h.slotted.compact_isEmpty]

/-- **Compaction changes no record.** -/
theorem Slotted.compact_recordAt {p : Page} (h : p.Slotted) (j : Nat) :
    p.compact.recordAt j = p.recordAt j := by
  obtain ⟨-, -, -, -, hlive, -⟩ := h.compact_spec
  by_cases hj : ∃ s, p.LiveAt j s
  · obtain ⟨s, hs⟩ := hj
    obtain ⟨o, ho, -, -, hread⟩ := hlive j s hs
    have hl : p.compact.LiveAt j ⟨o, s.length⟩ := (h.compact_liveAt j _).mpr ⟨ho, s, hs, rfl⟩
    rw [recordAt_of_liveAt hl, recordAt_of_liveAt hs, hread]
  · rw [not_exists] at hj
    rw [recordAt_eq_none_iff.mpr hj, recordAt_eq_none_iff]
    intro e he
    obtain ⟨-, s, hs, -⟩ := (h.compact_liveAt j e).mp he
    exact hj s hs

end Page

end CourtDB
