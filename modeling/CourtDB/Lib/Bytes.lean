/-
# Byte buffers and fixed-width little-endian values

A buffer is the memory behind a byte pointer: a total map from offsets to bytes.  The two
operations are the ones `memcpy` gives: `write` a run of bytes at an offset, `read` a run
back.  A read sees the last write when the two ranges coincide, and does not see it when they
are disjoint; every layout argument over a buffer is an instance of these two facts
(`read_write_self`, `read_write_of_disjoint`).

On top of that sit the types of a fixed encoded size (`FixedRepr`): the unsigned integers in
little-endian order, and pairs of such types.  `get` and `put` move one value, `getAll` and
`putAll` an array of them laid out back to back.
-/
import Mathlib.Algebra.Ring.Nat
import Mathlib.Data.List.Basic

namespace Bytes

/-! ## 1. Buffers -/

/-- The memory behind a byte pointer. -/
abbrev Buf := Nat → UInt8

namespace Buf

/-- The buffer with the bytes `bs` copied to offset `off`. -/
def write (b : Buf) (off : Nat) (bs : List UInt8) : Buf := fun i =>
  if off ≤ i then (bs[i - off]?).getD (b i) else b i

/-- The `len` bytes at offset `off`. -/
def read (b : Buf) (off len : Nat) : List UInt8 := (List.range len).map fun i => b (off + i)

/-- The buffer whose bytes below `n` come from `src`, as a read of `n` bytes into it. -/
def fill (b : Buf) (n : Nat) (src : Buf) : Buf := fun i => if i < n then src i else b i

theorem write_apply_of_lt {b : Buf} {off i : Nat} {bs : List UInt8} (h : i < off) :
    b.write off bs i = b i := if_neg (Nat.not_le.mpr h)

theorem write_apply_of_ge {b : Buf} {off i : Nat} {bs : List UInt8} (h : off + bs.length ≤ i) :
    b.write off bs i = b i := by
  have hi : bs[i - off]? = none := List.getElem?_eq_none (by omega)
  simp [write, hi]

/-- Outside the range it covers, a write is invisible. -/
theorem write_apply_of_not_mem {b : Buf} {off i : Nat} {bs : List UInt8}
    (h : i < off ∨ off + bs.length ≤ i) : b.write off bs i = b i := by
  rcases h with h | h
  · exact write_apply_of_lt h
  · exact write_apply_of_ge h

theorem write_apply_of_mem {b : Buf} {off i : Nat} {bs : List UInt8} (h : i < bs.length) :
    b.write off bs (off + i) = bs[i] := by
  simp [write, List.getElem?_eq_getElem h]

@[simp] theorem write_nil (b : Buf) (off : Nat) : b.write off [] = b := by
  funext i; simp [write]

@[simp] theorem length_read (b : Buf) (off len : Nat) : (b.read off len).length = len := by
  simp [read]

theorem getElem_read {b : Buf} {off len i : Nat} (h : i < (b.read off len).length) :
    (b.read off len)[i] = b (off + i) := by simp [read]

theorem take_read {b : Buf} {off n k : Nat} (h : k ≤ n) :
    (b.read off n).take k = b.read off k := by
  rw [read, ← List.map_take, List.take_range, Nat.min_eq_left h, read]

/-- A read depends only on the bytes of its range. -/
theorem read_congr {b b' : Buf} {off len : Nat}
    (h : ∀ i, off ≤ i → i < off + len → b i = b' i) : b.read off len = b'.read off len :=
  List.map_congr_left fun i hi =>
    h (off + i) (Nat.le_add_right _ _) (Nat.add_lt_add_left (List.mem_range.mp hi) _)

theorem read_write_self (b : Buf) (off : Nat) (bs : List UInt8) :
    (b.write off bs).read off bs.length = bs := by
  refine List.ext_getElem (by simp) fun i _ h => ?_
  rw [getElem_read, write_apply_of_mem h]

theorem read_write_of_disjoint {b : Buf} {off len off' : Nat} {bs : List UInt8}
    (h : off + len ≤ off' ∨ off' + bs.length ≤ off) :
    (b.write off' bs).read off len = b.read off len :=
  read_congr fun i h1 h2 => write_apply_of_not_mem (by omega)

/-- A read that falls inside a write sees the matching part of what was written. -/
theorem read_write_of_sub {b : Buf} {off k len : Nat} {bs : List UInt8}
    (h : k + len ≤ bs.length) :
    (b.write off bs).read (off + k) len = (bs.drop k).take len := by
  refine List.ext_getElem (by simp; omega) fun i h1 _ => ?_
  rw [length_read] at h1
  rw [getElem_read, Nat.add_assoc, write_apply_of_mem (by omega), List.getElem_take,
    List.getElem_drop]

/-- Copying a run of bytes from one buffer to the start of another. -/
theorem write_read_apply {b src : Buf} {n i : Nat} (h : i < n) :
    b.write 0 (src.read 0 n) i = src i := by
  have hi : i < (src.read 0 n).length := by rwa [length_read]
  have hcopy : b.write 0 (src.read 0 n) (0 + i) = (src.read 0 n)[i] := write_apply_of_mem hi
  rwa [getElem_read, Nat.zero_add] at hcopy

@[simp] theorem fill_apply_of_lt {b src : Buf} {n i : Nat} (h : i < n) :
    b.fill n src i = src i := if_pos h

theorem read_fill {b src : Buf} {n off len : Nat} (h : off + len ≤ n) :
    (b.fill n src).read off len = src.read off len :=
  read_congr fun _ _ h2 => fill_apply_of_lt (by omega)

end Buf

/-! ## 2. Little-endian numbers -/

/-- The `k` low bytes of `v`, least significant first. -/
def leBytes : Nat → Nat → List UInt8
  | 0, _ => []
  | k + 1, v => UInt8.ofNat v :: leBytes k (v / 256)

/-- The number a little-endian byte string denotes. -/
def leNat : List UInt8 → Nat
  | [] => 0
  | b :: bs => b.toNat + 256 * leNat bs

@[simp] theorem length_leBytes (k v : Nat) : (leBytes k v).length = k := by
  induction k generalizing v <;> simp [leBytes, *]

theorem leNat_leBytes (k v : Nat) : leNat (leBytes k v) = v % 256 ^ k := by
  induction k generalizing v with
  | zero => simp [leBytes, leNat, Nat.mod_one]
  | succ k ih =>
    rw [leBytes, leNat, ih, Nat.pow_succ, Nat.mul_comm _ 256, Nat.mod_mul]
    simp

/-! ## 3. Types of a fixed encoded size -/

/-- A type whose values are stored in exactly `size` bytes and read back from them. -/
class FixedRepr (α : Type) where
  size : Nat
  encode : α → List UInt8
  decode : List UInt8 → α
  length_encode : ∀ a, (encode a).length = size
  decode_encode : ∀ a, decode (encode a) = a

attribute [simp] FixedRepr.length_encode FixedRepr.decode_encode

instance : FixedRepr UInt8 where
  size := 1
  encode v := leBytes 1 v.toNat
  decode bs := UInt8.ofNat (leNat bs)
  length_encode _ := length_leBytes _ _
  decode_encode v := by
    have h : v.toNat < 256 ^ 1 := lt_of_lt_of_eq v.toNat_lt (by decide)
    rw [leNat_leBytes, Nat.mod_eq_of_lt h, UInt8.ofNat_toNat]

instance : FixedRepr UInt16 where
  size := 2
  encode v := leBytes 2 v.toNat
  decode bs := UInt16.ofNat (leNat bs)
  length_encode _ := length_leBytes _ _
  decode_encode v := by
    have h : v.toNat < 256 ^ 2 := lt_of_lt_of_eq v.toNat_lt (by decide)
    rw [leNat_leBytes, Nat.mod_eq_of_lt h, UInt16.ofNat_toNat]

instance : FixedRepr UInt32 where
  size := 4
  encode v := leBytes 4 v.toNat
  decode bs := UInt32.ofNat (leNat bs)
  length_encode _ := length_leBytes _ _
  decode_encode v := by
    have h : v.toNat < 256 ^ 4 := lt_of_lt_of_eq v.toNat_lt (by decide)
    rw [leNat_leBytes, Nat.mod_eq_of_lt h, UInt32.ofNat_toNat]

instance : FixedRepr UInt64 where
  size := 8
  encode v := leBytes 8 v.toNat
  decode bs := UInt64.ofNat (leNat bs)
  length_encode _ := length_leBytes _ _
  decode_encode v := by
    have h : v.toNat < 256 ^ 8 := lt_of_lt_of_eq v.toNat_lt (by decide)
    rw [leNat_leBytes, Nat.mod_eq_of_lt h, UInt64.ofNat_toNat]

instance {α β : Type} [FixedRepr α] [FixedRepr β] : FixedRepr (α × β) where
  size := FixedRepr.size α + FixedRepr.size β
  encode p := FixedRepr.encode p.1 ++ FixedRepr.encode p.2
  decode bs := (FixedRepr.decode (bs.take (FixedRepr.size α)),
    FixedRepr.decode (bs.drop (FixedRepr.size α)))
  length_encode p := by simp
  decode_encode p := by
    rw [List.take_left' (FixedRepr.length_encode _), List.drop_left' (FixedRepr.length_encode _),
      FixedRepr.decode_encode, FixedRepr.decode_encode]

@[simp] theorem size_uint8 : FixedRepr.size UInt8 = 1 := rfl
@[simp] theorem size_uint16 : FixedRepr.size UInt16 = 2 := rfl
@[simp] theorem size_uint32 : FixedRepr.size UInt32 = 4 := rfl
@[simp] theorem size_uint64 : FixedRepr.size UInt64 = 8 := rfl
@[simp] theorem size_prod {α β : Type} [FixedRepr α] [FixedRepr β] :
    FixedRepr.size (α × β) = FixedRepr.size α + FixedRepr.size β := rfl

namespace Buf

variable {α β : Type} [FixedRepr α] [FixedRepr β]

/-- The value of type `α` stored at offset `off`. -/
def get (α : Type) [FixedRepr α] (b : Buf) (off : Nat) : α :=
  FixedRepr.decode (b.read off (FixedRepr.size α))

/-- The buffer with `a` stored at offset `off`. -/
def put (b : Buf) (off : Nat) (a : α) : Buf := b.write off (FixedRepr.encode a)

theorem get_congr {b b' : Buf} {off : Nat}
    (h : ∀ i, off ≤ i → i < off + FixedRepr.size α → b i = b' i) :
    b.get α off = b'.get α off := by
  rw [get, get, read_congr h]

@[simp] theorem get_put_self (b : Buf) (off : Nat) (a : α) : (b.put off a).get α off = a := by
  have h := read_write_self b off (FixedRepr.encode a)
  rw [FixedRepr.length_encode] at h
  rw [get, put, h, FixedRepr.decode_encode]

theorem get_write_of_disjoint {b : Buf} {off off' : Nat} {bs : List UInt8}
    (h : off + FixedRepr.size α ≤ off' ∨ off' + bs.length ≤ off) :
    (b.write off' bs).get α off = b.get α off := by
  rw [get, get, read_write_of_disjoint h]

theorem get_put_of_disjoint {b : Buf} {off off' : Nat} {a : β}
    (h : off + FixedRepr.size α ≤ off' ∨ off' + FixedRepr.size β ≤ off) :
    (b.put off' a).get α off = b.get α off :=
  get_write_of_disjoint (by rwa [FixedRepr.length_encode])

theorem put_apply_of_not_mem {b : Buf} {off i : Nat} {a : β}
    (h : i < off ∨ off + FixedRepr.size β ≤ i) : b.put off a i = b i :=
  write_apply_of_not_mem (by rwa [FixedRepr.length_encode])

theorem get_fill {b src : Buf} {n off : Nat} (h : off + FixedRepr.size α ≤ n) :
    (b.fill n src).get α off = src.get α off := by
  rw [get, get, read_fill h]

/-! ### Arrays of fixed-size values -/

/-- The buffer with the values of `l` stored back to back from offset `off`. -/
def putAll (b : Buf) (off : Nat) (l : List α) : Buf := b.write off (l.flatMap FixedRepr.encode)

/-- The `n` values stored back to back from offset `off`. -/
def getAll (α : Type) [FixedRepr α] (b : Buf) (off n : Nat) : List α :=
  (List.range n).map fun i => b.get α (off + FixedRepr.size α * i)

@[simp] theorem length_getAll (b : Buf) (off n : Nat) : (b.getAll α off n).length = n := by
  simp [getAll]

theorem length_flatMap_encode (l : List α) :
    (l.flatMap FixedRepr.encode).length = FixedRepr.size α * l.length := by
  induction l with
  | nil => rfl
  | cons a l ih => simp [ih, Nat.mul_succ, Nat.add_comm]

theorem flatMap_encode_slice (l : List α) (i : Nat) (h : i < l.length) :
    ((l.flatMap FixedRepr.encode).drop (FixedRepr.size α * i)).take (FixedRepr.size α)
      = FixedRepr.encode l[i] := by
  induction l generalizing i with
  | nil => exact absurd h (Nat.not_lt_zero i)
  | cons a l ih =>
    cases i with
    | zero => simp [List.take_left' (FixedRepr.length_encode a)]
    | succ i =>
      rw [List.flatMap_cons, Nat.mul_succ, Nat.add_comm, ← List.drop_drop,
        List.drop_left' (FixedRepr.length_encode a)]
      exact ih i (Nat.lt_of_succ_lt_succ h)

/-- The value at index `i` of a stored array. -/
theorem get_putAll {b : Buf} {off i : Nat} {l : List α} (h : i < l.length) :
    (b.putAll off l).get α (off + FixedRepr.size α * i) = l[i] := by
  have hlen : FixedRepr.size α * i + FixedRepr.size α ≤ (l.flatMap FixedRepr.encode).length := by
    rw [length_flatMap_encode, ← Nat.mul_succ]
    exact Nat.mul_le_mul_left _ h
  rw [get, putAll, read_write_of_sub hlen, flatMap_encode_slice l i h, FixedRepr.decode_encode]

theorem getAll_putAll {b : Buf} {off n : Nat} {l : List α} (h : l.length = n) :
    (b.putAll off l).getAll α off n = l := by
  refine List.ext_getElem (by simp [h]) fun i h1 h2 => ?_
  simp [getAll, get_putAll h2]

theorem getAll_congr {b b' : Buf} {off n : Nat}
    (h : ∀ i, off ≤ i → i < off + FixedRepr.size α * n → b i = b' i) :
    b.getAll α off n = b'.getAll α off n := by
  refine List.map_congr_left fun i hi => get_congr fun j h1 h2 => h j (by omega) ?_
  have hle : FixedRepr.size α * (i + 1) ≤ FixedRepr.size α * n :=
    Nat.mul_le_mul_left _ (List.mem_range.mp hi)
  rw [Nat.mul_succ] at hle
  omega

theorem putAll_apply_of_not_mem {b : Buf} {off i : Nat} {l : List β}
    (h : i < off ∨ off + FixedRepr.size β * l.length ≤ i) : b.putAll off l i = b i :=
  write_apply_of_not_mem (by rwa [length_flatMap_encode])

end Buf

end Bytes
