/-
# Records

`NBARecord` is the one schema of the database, and `RecordSerializer` its binary format
(`storage/record.h`, `storage/record.cpp`): strings behind a 16-bit length, the other fields as they
lie in memory.  The reader goes through the bytes with a 16-bit offset; a read outside the bytes it
is given has no result.

A record whose serialized form is not longer than that offset can say is read back exactly
(`serialization_lossless`), and nothing behind it is looked at.  A longer one is not: the length of
a string is cut to 16 bits while its bytes are not, and the offset wraps.

The serialized form is the concatenation of the fields (`serialize_eq`), and the reader takes one
field after the other off its front.  `At` says where it stands: what is behind it, what is to come,
and that the end is still in reach of the offset.
-/
import CourtDB.Lib.CheckedBytes

namespace CourtDB

open Bytes

/-! ## 1. The schema -/

/-- A single play-by-play event.  A string is its bytes. -/
structure NBARecord where
  gameId : List UInt8 := []
  season : UInt16 := 0
  quarter : UInt8 := 0
  clock : List UInt8 := []
  team : List UInt8 := []
  player : List UInt8 := []
  eventType : UInt8 := 0
  description : List UInt8 := []
  points : UInt8 := 0
  shotDistance : UInt16 := 0
  homeScore : UInt16 := 0
  awayScore : UInt16 := 0
deriving DecidableEq, Repr

namespace RecordSerializer

/-! ## 2. Writing -/

/-- `WriteString`: the length is cut to 16 bits, the bytes are not. -/
def writeString (buf s : List UInt8) : List UInt8 :=
  let len := UInt16.ofNat s.length
  buf ++ [(len &&& 0xFF).toUInt8] ++ [((len >>> 8) &&& 0xFF).toUInt8] ++ s

/-- `WriteFixed`. -/
def writeFixed {α : Type} [FixedRepr α] (buf : List UInt8) (value : α) : List UInt8 :=
  buf ++ FixedRepr.encode value

/-- `Serialize`. -/
def serialize (record : NBARecord) : List UInt8 :=
  let buf := []
  let buf := writeString buf record.gameId
  let buf := writeFixed buf record.season
  let buf := writeFixed buf record.quarter
  let buf := writeString buf record.clock
  let buf := writeString buf record.team
  let buf := writeString buf record.player
  let buf := writeFixed buf record.eventType
  let buf := writeString buf record.description
  let buf := writeFixed buf record.points
  let buf := writeFixed buf record.shotDistance
  let buf := writeFixed buf record.homeScore
  writeFixed buf record.awayScore

/-- `ComputeSerializedSize`, in 16 bits. -/
def computeSerializedSize (record : NBARecord) : UInt16 :=
  let size : UInt16 := 0
  let size := size + (2 + UInt16.ofNat record.gameId.length)
  let size := size + (2 + UInt16.ofNat record.clock.length)
  let size := size + (2 + UInt16.ofNat record.team.length)
  let size := size + (2 + UInt16.ofNat record.player.length)
  let size := size + (2 + UInt16.ofNat record.description.length)
  size + 11

/-! ## 3. Reading -/

/-- `ReadString`: the string and the offset behind it. -/
def readString (data : List UInt8) (offset : UInt16) : Option (List UInt8 × UInt16) := do
  let low ← get? UInt8 data offset.toNat
  let high ← get? UInt8 data (offset.toNat + 1)
  let len := low.toUInt16 ||| (high.toUInt16 <<< 8)
  let offset := offset + 2
  let result ← read? data offset.toNat len.toNat
  return (result, offset + len)

/-- `ReadFixed`. -/
def readFixed (α : Type) [FixedRepr α] (data : List UInt8) (offset : UInt16) :
    Option (α × UInt16) := do
  let value ← get? α data offset.toNat
  return (value, offset + UInt16.ofNat (FixedRepr.size α))

/-- The reads of `Deserialize`: the record and the offset behind it. -/
def readRecord (data : List UInt8) : Option (NBARecord × UInt16) := do
  let offset : UInt16 := 0
  let (gameId, offset) ← readString data offset
  let (season, offset) ← readFixed UInt16 data offset
  let (quarter, offset) ← readFixed UInt8 data offset
  let (clock, offset) ← readString data offset
  let (team, offset) ← readString data offset
  let (player, offset) ← readString data offset
  let (eventType, offset) ← readFixed UInt8 data offset
  let (description, offset) ← readString data offset
  let (points, offset) ← readFixed UInt8 data offset
  let (shotDistance, offset) ← readFixed UInt16 data offset
  let (homeScore, offset) ← readFixed UInt16 data offset
  let (awayScore, offset) ← readFixed UInt16 data offset
  return ({ gameId, season, quarter, clock, team, player, eventType, description, points,
            shotDistance, homeScore, awayScore }, offset)

/-- `Deserialize`.  It has no result when a read falls outside `data`, or when the assertion on the
offset fails. -/
def deserialize (data : List UInt8) (length : UInt16) : Option NBARecord := do
  let (record, offset) ← readRecord data
  if offset ≤ length then return record else none

/-! ## 4. The format -/

/-- The bytes of a string in the format. -/
def stringBytes (s : List UInt8) : List UInt8 := writeString [] s

theorem writeString_eq (buf s : List UInt8) : writeString buf s = buf ++ stringBytes s := by
  simp only [writeString, stringBytes, List.append_assoc, List.nil_append]

@[simp] theorem length_stringBytes (s : List UInt8) : (stringBytes s).length = 2 + s.length := by
  simp only [stringBytes, writeString, List.length_append, List.length_singleton, List.length_nil]

/-- A serialized record is the bytes of its fields, one after the other. -/
theorem serialize_eq (r : NBARecord) :
    serialize r = stringBytes r.gameId ++ (FixedRepr.encode r.season ++ (FixedRepr.encode r.quarter
      ++ (stringBytes r.clock ++ (stringBytes r.team ++ (stringBytes r.player
      ++ (FixedRepr.encode r.eventType ++ (stringBytes r.description ++ (FixedRepr.encode r.points
      ++ (FixedRepr.encode r.shotDistance ++ (FixedRepr.encode r.homeScore
      ++ FixedRepr.encode r.awayScore)))))))))) := by
  simp only [serialize, writeString_eq, writeFixed, List.nil_append, List.append_assoc]

theorem length_serialize (r : NBARecord) :
    (serialize r).length = 21 + r.gameId.length + r.clock.length + r.team.length
      + r.player.length + r.description.length := by
  simp only [serialize_eq, List.length_append, length_stringBytes, FixedRepr.length_encode,
    size_uint8, size_uint16]
  omega

/-- The two bytes of a length give the length back. -/
theorem low_or_high (len : UInt16) :
    (len &&& 0xFF).toUInt8.toUInt16 ||| (((len >>> 8) &&& 0xFF).toUInt8.toUInt16 <<< 8) = len := by
  refine UInt16.toNat_inj.mp ?_
  have hlt := len.toNat_lt
  have hlow : (len &&& 0xFF).toUInt8.toUInt16.toNat = len.toNat % 2 ^ 8 := by
    rw [UInt8.toNat_toUInt16, UInt16.toNat_toUInt8, UInt16.toNat_and]
    rw [show (0xFF : UInt16).toNat = 2 ^ 8 - 1 from rfl, Nat.and_two_pow_sub_one_eq_mod]
    omega
  have hhigh : ((len >>> 8) &&& 0xFF).toUInt8.toUInt16.toNat = len.toNat / 2 ^ 8 := by
    rw [UInt8.toNat_toUInt16, UInt16.toNat_toUInt8, UInt16.toNat_and, UInt16.toNat_shiftRight]
    rw [show (0xFF : UInt16).toNat = 2 ^ 8 - 1 from rfl, Nat.and_two_pow_sub_one_eq_mod]
    rw [show (8 : UInt16).toNat % 16 = 8 from rfl, Nat.shiftRight_eq_div_pow]
    omega
  rw [UInt16.toNat_or, UInt16.toNat_shiftLeft, hlow, hhigh]
  rw [show (8 : UInt16).toNat % 16 = 8 from rfl, Nat.shiftLeft_eq, Nat.or_comm]
  rw [Nat.mod_eq_of_lt (by omega), Nat.mul_comm, ← Nat.two_pow_add_eq_or_of_lt (by omega)]
  exact Nat.div_add_mod _ _

/-! ## 5. The reader -/

/-- The reader stands in `data` before `todo`, which ends within the range of the offset. -/
def At (data : List UInt8) (offset : UInt16) (todo tail : List UInt8) : Prop :=
  ∃ pre, data = pre ++ (todo ++ tail) ∧ offset.toNat = pre.length ∧
    pre.length + todo.length ≤ 65535

variable {data todo tail : List UInt8} {offset : UInt16}

/-- The reader steps over the first part of what is to do. -/
theorem At.step {bs : List UInt8} (h : At data offset (bs ++ todo) tail) {n : UInt16}
    (hn : n.toNat = bs.length) : At data (offset + n) todo tail := by
  obtain ⟨pre, hdata, hoff, hle⟩ := h
  rw [List.length_append] at hle
  refine ⟨pre ++ bs, by rw [hdata]; simp only [List.append_assoc], ?_, ?_⟩
  · rw [UInt16.toNat_add, hoff, hn, List.length_append]
    exact Nat.mod_eq_of_lt (by omega)
  · rw [List.length_append]
    omega

theorem readFixed_at {α : Type} [FixedRepr α] {a : α} (hsize : FixedRepr.size α < 2 ^ 16)
    (h : At data offset (FixedRepr.encode a ++ todo) tail) :
    ∃ offset', readFixed α data offset = some (a, offset') ∧ At data offset' todo tail := by
  refine ⟨_, ?_, h.step (n := UInt16.ofNat (FixedRepr.size α)) ?_⟩
  · obtain ⟨pre, hdata, hoff, -⟩ := h
    rw [readFixed, hdata, List.append_assoc, get?_append hoff]
    rfl
  · rw [FixedRepr.length_encode, UInt16.toNat_ofNat_of_lt' hsize]

theorem readString_at {s : List UInt8} (h : At data offset (stringBytes s ++ todo) tail) :
    ∃ offset', readString data offset = some (s, offset') ∧ At data offset' todo tail := by
  -- the length was written as two bytes, the low one first
  obtain ⟨pre, hdata, hoff, hle⟩ := id h
  rw [List.length_append, length_stringBytes] at hle
  let len := UInt16.ofNat s.length
  have hs : s.length < 2 ^ 16 := by omega
  have hlen : len.toNat = s.length := UInt16.toNat_ofNat_of_lt' hs
  let low := (len &&& 0xFF).toUInt8
  let high := ((len >>> 8) &&& 0xFF).toUInt8
  have hbytes : stringBytes s = [low] ++ ([high] ++ s) := by
    simp only [stringBytes, writeString, List.nil_append, List.append_assoc]
    rfl
  have hencode : ∀ b : UInt8, FixedRepr.encode b = [b] := fun b => by
    simp [FixedRepr.encode, leBytes]
  -- both are read back, at the offset and behind it
  have hlow : get? UInt8 data offset.toNat = some low := by
    rw [hdata, hbytes, ← hencode]
    simp only [List.append_assoc]
    exact get?_append hoff
  have hhigh : get? UInt8 data (offset.toNat + 1) = some high := by
    rw [hdata, hbytes, ← List.append_assoc pre, ← hencode high]
    simp only [List.append_assoc]
    rw [← List.append_assoc pre]
    exact get?_append (by simp [hoff])
  -- then comes the string, as long as they say
  have hafter : At data (offset + 2) (s ++ todo) tail := by
    rw [hbytes] at h
    have h' : At data offset (([low] ++ [high]) ++ (s ++ todo)) tail := by
      simpa only [List.append_assoc] using h
    exact h'.step rfl
  have hread : read? data (offset + 2).toNat len.toNat = some s := by
    obtain ⟨pre', hdata', hoff', -⟩ := hafter
    rw [hdata', List.append_assoc]
    exact read?_append hoff' hlen
  refine ⟨offset + 2 + len, ?_, hafter.step hlen⟩
  unfold readString
  rw [hlow, hhigh]
  simp only [Option.bind_eq_bind, Option.bind_some]
  rw [show low.toUInt16 ||| high.toUInt16 <<< 8 = len from low_or_high len, hread]
  rfl

/-- One step of a reader. -/
theorem bind_of_eq {α β : Type} {o : Option α} {f : α → Option β} {a : α} {b : Option β}
    (h : o = some a) (hf : f a = b) : (o >>= f) = b := by
  rw [h]
  exact hf

/-- The reader reads the record and stops behind it. -/
theorem readRecord_serialize (r : NBARecord) (h : (serialize r).length ≤ 65535)
    (tail : List UInt8) :
    readRecord (serialize r ++ tail) = some (r, UInt16.ofNat (serialize r).length) := by
  have hat : At (serialize r ++ tail) 0 (serialize r) tail :=
    ⟨[], (List.nil_append _).symm, rfl, by rw [List.length_nil]; omega⟩
  generalize hlen : (serialize r).length = n at h ⊢
  generalize hdata : serialize r ++ tail = data at hat ⊢
  rw [serialize_eq] at hat
  obtain ⟨o₁, h₁, hat⟩ := readString_at hat
  obtain ⟨o₂, h₂, hat⟩ := readFixed_at (by decide) hat
  obtain ⟨o₃, h₃, hat⟩ := readFixed_at (by decide) hat
  obtain ⟨o₄, h₄, hat⟩ := readString_at hat
  obtain ⟨o₅, h₅, hat⟩ := readString_at hat
  obtain ⟨o₆, h₆, hat⟩ := readString_at hat
  obtain ⟨o₇, h₇, hat⟩ := readFixed_at (by decide) hat
  obtain ⟨o₈, h₈, hat⟩ := readString_at hat
  obtain ⟨o₉, h₉, hat⟩ := readFixed_at (by decide) hat
  obtain ⟨o₁₀, h₁₀, hat⟩ := readFixed_at (by decide) hat
  obtain ⟨o₁₁, h₁₁, hat⟩ := readFixed_at (by decide) hat
  rw [← List.append_nil (FixedRepr.encode r.awayScore)] at hat
  obtain ⟨o₁₂, h₁₂, hat⟩ := readFixed_at (by decide) hat
  obtain ⟨pre, hpre, hoff, -⟩ := hat
  have hlt : n < 2 ^ 16 := by omega
  have hend : o₁₂ = UInt16.ofNat n := by
    have hsame := congrArg List.length (hdata.trans hpre)
    simp only [List.length_append, hlen, List.length_nil] at hsame
    refine UInt16.toNat_inj.mp ?_
    rw [hoff, UInt16.toNat_ofNat_of_lt' hlt]
    omega
  unfold readRecord
  refine bind_of_eq h₁ (bind_of_eq h₂ (bind_of_eq h₃ (bind_of_eq h₄ ?_)))
  refine bind_of_eq h₅ (bind_of_eq h₆ (bind_of_eq h₇ (bind_of_eq h₈ ?_)))
  refine bind_of_eq h₉ (bind_of_eq h₁₀ (bind_of_eq h₁₁ (bind_of_eq h₁₂ ?_)))
  rw [hend]
  rfl

theorem toNat_computeSerializedSize (r : NBARecord) :
    (computeSerializedSize r).toNat = (serialize r).length % 2 ^ 16 := by
  rw [length_serialize]
  simp only [computeSerializedSize, UInt16.toNat_add, UInt16.toNat_ofNat', UInt16.reduceToNat]
  omega

/-! ## 6. Encoding is lossless -/

/-- **Record encoding is lossless** up to 65535 bytes.  The reader gives the record back, stops
right behind it and never leaves its bytes; more bytes behind them change nothing, as long as the
length that is passed covers the record; and the size is computed without serializing. -/
theorem serialization_lossless (r : NBARecord) (h : (serialize r).length ≤ 65535) :
    readRecord (serialize r) = some (r, UInt16.ofNat (serialize r).length) ∧
      (∀ (tail : List UInt8) (length : UInt16), (serialize r).length ≤ length.toNat →
        deserialize (serialize r ++ tail) length = some r) ∧
      (computeSerializedSize r).toNat = (serialize r).length := by
  refine ⟨?_, fun tail length hlength => ?_, ?_⟩
  · have hread := readRecord_serialize r h []
    rwa [List.append_nil] at hread
  · have hlt : (serialize r).length < 2 ^ 16 := by omega
    have hle : UInt16.ofNat (serialize r).length ≤ length := by
      rw [UInt16.le_iff_toNat_le, UInt16.toNat_ofNat_of_lt' hlt]
      exact hlength
    unfold deserialize
    rw [readRecord_serialize r h tail]
    simp only [Option.bind_eq_bind, Option.bind_some, if_pos hle]
    rfl
  · rw [toNat_computeSerializedSize, Nat.mod_eq_of_lt (by omega)]

/-- A record whose serialized form fills the 65535 bytes. -/
theorem serialization_lossless_longest :
    let r : NBARecord := { team := [76, 65, 76], description := List.replicate 65511 0 }
    readRecord (serialize r) = some (r, UInt16.ofNat (serialize r).length) ∧
      (∀ (tail : List UInt8) (length : UInt16), (serialize r).length ≤ length.toNat →
        deserialize (serialize r ++ tail) length = some r) ∧
      (computeSerializedSize r).toNat = (serialize r).length := by
  have hlen : ∀ description : List UInt8,
      (serialize { team := [76, 65, 76], description := description }).length
        = 24 + description.length := by
    intro description
    rw [length_serialize]
    simp only [List.length_nil, List.length_cons]
  have hmax : (serialize { team := [76, 65, 76], description := List.replicate 65511 0 }).length
      ≤ 65535 := by
    rw [hlen]
    exact Nat.le_of_eq (congrArg (24 + ·) List.length_replicate)
  exact serialization_lossless _ hmax

end RecordSerializer

end CourtDB
