/-
# Bounds-checked access to byte strings

A byte string as an allocated block of memory: a read or a write of a range has a result only when
the range lies inside the block, so a program over these accesses that has a result made none
outside.  Programs fill and consume a block from the front, so the rules speak of a block that is
split where the access starts.
-/
import CourtDB.Lib.Bytes

namespace Bytes

variable {α : Type} [FixedRepr α] {pre bs src rest : List UInt8} {off len n : Nat}

/-! ## 1. The accesses -/

/-- The `len` bytes at offset `off`. -/
def read? (bs : List UInt8) (off len : Nat) : Option (List UInt8) :=
  if off + len ≤ bs.length then some ((bs.drop off).take len) else none

/-- The block with the bytes `src` copied to offset `off`. -/
def write? (bs : List UInt8) (off : Nat) (src : List UInt8) : Option (List UInt8) :=
  if off + src.length ≤ bs.length then some (bs.take off ++ src ++ bs.drop (off + src.length))
  else none

/-- The value of type `α` at offset `off`. -/
def get? (α : Type) [FixedRepr α] (bs : List UInt8) (off : Nat) : Option α :=
  (read? bs off (FixedRepr.size α)).map FixedRepr.decode

/-- The block with `a` stored at offset `off`. -/
def put? (bs : List UInt8) (off : Nat) (a : α) : Option (List UInt8) :=
  write? bs off (FixedRepr.encode a)

/-! ## 2. Accesses outside -/

theorem write?_eq_none (h : bs.length < off + src.length) : write? bs off src = none :=
  if_neg (Nat.not_le.mpr h)

theorem isSome_read? : (read? bs off len).isSome ↔ off + len ≤ bs.length := by
  unfold read?
  split <;> simp [*]

theorem isSome_get? : (get? α bs off).isSome ↔ off + FixedRepr.size α ≤ bs.length := by
  rw [get?, Option.isSome_map, isSome_read?]

/-- A write does not move the end of the block. -/
theorem length_write? {out : List UInt8} (h : write? bs off src = some out) :
    out.length = bs.length := by
  unfold write? at h
  split at h
  · obtain rfl := Option.some.inj h
    simp only [List.length_append, List.length_take, List.length_drop]
    omega
  · exact absurd h (by simp)

theorem length_put? {a : α} {out : List UInt8} (h : put? bs off a = some out) :
    out.length = bs.length := length_write? h

theorem isSome_put? {a : α} : (put? bs off a).isSome ↔ off + FixedRepr.size α ≤ bs.length := by
  unfold put? write?
  rw [FixedRepr.length_encode]
  split <;> simp [*]

theorem le_of_write? {out : List UInt8} (h : write? bs off src = some out) :
    off + src.length ≤ bs.length := by
  by_contra hlt
  rw [write?_eq_none (Nat.not_le.mp hlt)] at h
  exact absurd h (by simp)

theorem le_of_put? {a : α} {out : List UInt8} (h : put? bs off a = some out) :
    off + FixedRepr.size α ≤ bs.length := isSome_put?.mp (Option.isSome_of_eq_some h)

/-! ## 3. Consuming a block from the front -/

theorem read?_append (hoff : off = pre.length) (hlen : len = bs.length) :
    read? (pre ++ (bs ++ rest)) off len = some bs := by
  subst hoff hlen
  rw [read?, if_pos (by simp), List.drop_left, List.take_left]

theorem get?_append {a : α} (hoff : off = pre.length) :
    get? α (pre ++ (FixedRepr.encode a ++ rest)) off = some a := by
  rw [get?, read?_append hoff (FixedRepr.length_encode a).symm, Option.map_some,
    FixedRepr.decode_encode]

/-! ## 4. Filling a block from the front -/

/-- A block of which the first part is filled, and `n` zeros are left. -/
abbrev filled (pre : List UInt8) (n : Nat) : List UInt8 := pre ++ List.replicate n 0

theorem write?_filled (hoff : off = pre.length) (hn : src.length ≤ n) :
    write? (filled pre n) off src = some (filled (pre ++ src) (n - src.length)) := by
  subst hoff
  rw [write?, if_pos (by simpa using hn), List.take_left, List.drop_append, List.drop_eq_nil_of_le
    (Nat.le_add_right _ _), Nat.add_sub_cancel_left, List.drop_replicate, List.nil_append]

theorem put?_filled {a : α} (hoff : off = pre.length) (hn : FixedRepr.size α ≤ n) :
    put? (filled pre n) off a
      = some (filled (pre ++ FixedRepr.encode a) (n - FixedRepr.size α)) := by
  rw [put?, write?_filled hoff (by rwa [FixedRepr.length_encode]), FixedRepr.length_encode]

/-! ## 5. Blocks in a buffer -/

/-- A read of a block is a read of any memory that starts with it. -/
theorem read?_eq_read (memory : Buf) (h : off + len ≤ bs.length) :
    read? bs off len = some ((memory.write 0 bs).read off len) := by
  have hread : (memory.write 0 bs).read (0 + off) len = (bs.drop off).take len :=
    Buf.read_write_of_sub h
  rw [Nat.zero_add] at hread
  rw [read?, if_pos h, hread]

theorem get?_eq_get (memory : Buf) (h : off + FixedRepr.size α ≤ bs.length) :
    get? α bs off = some ((memory.write 0 bs).get α off) := by
  rw [get?, read?_eq_read memory h]
  rfl

/-- A write to a block is a write to the memory that it is the start of. -/
theorem write?_read (b : Buf) (h : off + src.length ≤ n) :
    write? (b.read 0 n) off src = some ((b.write off src).read 0 n) := by
  rw [write?, if_pos (by rwa [Buf.length_read])]
  congr 1
  have hlen : ((b.read 0 n).take off).length = off := by
    rw [List.length_take, Buf.length_read]
    omega
  refine List.ext_getElem ?_ fun i h1 h2 => ?_
  · simp only [List.length_append, hlen, List.length_drop, Buf.length_read]
    omega
  · rw [Buf.length_read] at h2
    rw [Buf.getElem_read, Nat.zero_add]
    by_cases hlt : i < off
    · rw [Buf.write_apply_of_lt hlt, List.getElem_append_left (by rw [List.length_append]; omega),
        List.getElem_append_left (by omega), List.getElem_take, Buf.getElem_read, Nat.zero_add]
    · by_cases hmem : i < off + src.length
      · obtain ⟨k, rfl⟩ := Nat.exists_eq_add_of_le (Nat.not_lt.mp hlt)
        rw [Buf.write_apply_of_mem (by omega),
          List.getElem_append_left (by rw [List.length_append]; omega),
          List.getElem_append_right (by omega)]
        simp only [hlen, Nat.add_sub_cancel_left]
      · rw [Buf.write_apply_of_ge (by omega),
          List.getElem_append_right (by rw [List.length_append]; omega), List.getElem_drop,
          Buf.getElem_read, Nat.zero_add]
        congr 1
        rw [List.length_append]
        omega

theorem put?_read (b : Buf) {a : α} (h : off + FixedRepr.size α ≤ n) :
    put? (b.read 0 n) off a = some ((b.put off a).read 0 n) :=
  write?_read b (by rwa [FixedRepr.length_encode])

end Bytes
