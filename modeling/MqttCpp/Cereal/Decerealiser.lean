import MqttCpp.Cereal.Cereal

/-!
# Reading: the Decerealiser

`cereal/src/Decerealiser.hpp` and `Decerealiser.cpp`.  A Decerealiser copies the bytes it is given
and reads them through an iterator.  Nothing stops the iterator at the end of the copy: the model
says with `beyond` what the memory behind the copy holds, and a read behind that faults.
-/

namespace MqttCpp

/-- A `Decerealiser`. -/
structure Decerealiser where
  /-- `_bytes`; `_originalIterator` is its begin and `_end` its end. -/
  bytes : Bytes
  /-- What can be read behind `_bytes`. -/
  beyond : Bytes
  /-- `_iterator`, as the number of bytes it is past the begin. -/
  pos : ℕ := 0
  currentByte : UInt8 := 0
  bitIndex : ℕ := 0
  bitIndex_le : bitIndex ≤ 8 := by decide

namespace Decerealiser

/-- The constructor of `Decerealiser`, which copies the bytes. -/
def new (bytes beyond : Bytes) : Decerealiser where
  bytes := bytes
  beyond := beyond

@[simp] lemma pos_new (bytes beyond : Bytes) : (new bytes beyond).pos = 0 := rfl

/-- `*_iterator++`. -/
def next : CerealM Decerealiser UInt8 := fun d =>
  match (d.bytes ++ d.beyond)[d.pos]? with
  | some b => .ok (b, { d with pos := d.pos + 1 })
  | none => .error .badRead

/-- The bits of the current byte that `readBitsHelper` returns when they are all in it. -/
def takeBits (d : Decerealiser) (bits : ℕ) (h : d.bitIndex + bits ≤ 8) : UInt32 × Decerealiser :=
  let shift := d.currentByte.toNat >>> (8 - (d.bitIndex + bits))
  (UInt32.ofNat (shift &&& (0xff >>> (8 - bits))),
    { d with bitIndex := d.bitIndex + bits, bitIndex_le := h })

/-- `Decerealiser::readBitsHelper`. -/
def readBitsHelper (d : Decerealiser) (bits : ℕ) : Except Fault (UInt32 × Decerealiser) :=
  if h : 8 < d.bitIndex + bits then do -- have to carry on to the next byte
    let bits1stTime := 8 - d.bitIndex -- what's left of this byte
    let bits2ndTime := d.bitIndex + bits - 8 -- bits to read from next byte
    let (value1, d) ← readBitsHelper d bits1stTime
    let (byte, d) ← next { d with bitIndex := 0, bitIndex_le := Nat.zero_le 8 }
    let (value2, d) ← readBitsHelper { d with bitIndex := 0, currentByte := byte,
                                              bitIndex_le := Nat.zero_le 8 } bits2ndTime
    return ((value1 <<< UInt32.ofNat bits2ndTime) ||| value2, d)
  else
    return d.takeBits bits (Nat.not_lt.mp h)
termination_by d.bitIndex + bits
decreasing_by
  · have := d.bitIndex_le
    omega
  · omega

/-- `Decerealiser::readBits`. -/
def readBits (bits : ℕ) : CerealM Decerealiser UInt32 := fun d =>
  if d.bitIndex = 0 then do
    let (byte, d) ← next d
    readBitsHelper { d with currentByte := byte } bits
  else readBitsHelper d bits

/-- Bits that are all in the current byte are taken from it. -/
lemma readBitsHelper_of_le {d : Decerealiser} {bits : ℕ} (h : d.bitIndex + bits ≤ 8) :
    readBitsHelper d bits = .ok (d.takeBits bits h) := by
  rw [readBitsHelper, dif_neg (Nat.not_lt.mpr h)]
  rfl

/-- When a byte is current, its bits are taken. -/
lemma readBits_of_pos {d : Decerealiser} {bits : ℕ} (hpos : 0 < d.bitIndex)
    (h : d.bitIndex + bits ≤ 8) : readBits bits d = .ok (d.takeBits bits h) := by
  rw [readBits, if_neg (Nat.ne_of_gt hpos), readBitsHelper_of_le h]

/-- When no byte is current, the next byte is read first. -/
lemma readBits_of_zero {d : Decerealiser} {bits : ℕ} (hzero : d.bitIndex = 0) (h : bits ≤ 8)
    {b : UInt8} (hnext : (d.bytes ++ d.beyond)[d.pos]? = some b) :
    readBits bits d =
      .ok (takeBits { d with pos := d.pos + 1, currentByte := b } bits (by
        change d.bitIndex + bits ≤ 8
        rwa [hzero, Nat.zero_add])) := by
  rw [readBits, if_pos hzero, next, hnext]
  exact readBitsHelper_of_le _

/-- No bits are taken from a byte of which none are left. -/
lemma takeBits_zero {d : Decerealiser} (h : d.bitIndex + 0 ≤ 8) (height : d.bitIndex = 8) :
    d.takeBits 0 h = (0, d) := by
  obtain ⟨bytes, beyond, pos, currentByte, bitIndex, hle⟩ := d
  obtain rfl : bitIndex = 8 := height
  have hnone : currentByte.toNat >>> (8 - (8 + 0)) &&& (0xff >>> (8 - 0)) = 0 := Nat.and_zero _
  simp only [takeBits, hnone]
  rfl

/-- When no bits are left in the current byte, the next byte is read. -/
lemma readBits_of_eight {d : Decerealiser} {bits : ℕ} (height : d.bitIndex = 8) (hpos : 0 < bits)
    (h : bits ≤ 8) {b : UInt8} (hnext : (d.bytes ++ d.beyond)[d.pos]? = some b) :
    readBits bits d =
      .ok (takeBits { d with pos := d.pos + 1, currentByte := b, bitIndex := 0,
                             bitIndex_le := Nat.zero_le 8 } bits (by
        change 0 + bits ≤ 8
        rwa [Nat.zero_add])) := by
  obtain ⟨bytes, beyond, pos, currentByte, bitIndex, hle⟩ := d
  obtain rfl : bitIndex = 8 := height
  have hcarry : 8 < 8 + bits := Nat.lt_add_of_pos_right hpos
  have hfirst : readBitsHelper ⟨bytes, beyond, pos, currentByte, 8, hle⟩ (8 - 8) =
      .ok (0, ⟨bytes, beyond, pos, currentByte, 8, hle⟩) := by
    rw [readBitsHelper_of_le (Nat.le_refl 8), takeBits_zero (Nat.le_refl 8) rfl]
  have hread : next ⟨bytes, beyond, pos, currentByte, 0, Nat.zero_le 8⟩ =
      .ok (b, ⟨bytes, beyond, pos + 1, currentByte, 0, Nat.zero_le 8⟩) := by
    rw [next, hnext]
  have hbits : 8 + bits - 8 = bits := Nat.add_sub_cancel_left 8 bits
  have hzero : 0 + bits ≤ 8 := by rwa [Nat.zero_add]
  rw [readBits, if_neg (show (8 : ℕ) ≠ 0 by decide), readBitsHelper, dif_pos hcarry]
  simp only [hfirst, hbits]
  change (next ⟨bytes, beyond, pos, currentByte, 0, Nat.zero_le 8⟩ >>= _) = _
  rw [hread]
  change (readBitsHelper ⟨bytes, beyond, pos + 1, b, 0, Nat.zero_le 8⟩ bits >>= _) = _
  rw [readBitsHelper_of_le hzero]
  change Except.ok (_ ||| _, _) = _
  rw [UInt32.zero_shiftLeft, UInt32.zero_or]

/-- `Decerealiser::reset`: read from the beginning again. -/
def reset (d : Decerealiser) : Decerealiser :=
  { d with pos := 0, currentByte := 0, bitIndex := 0, bitIndex_le := Nat.zero_le 8 }

instance : Cereal Decerealiser where
  getType := .read
  grainByte _ := next
  grainBitsImpl _ bits := readBits bits
  -- the distance to the end becomes an `int`
  bytesLeft d := ((d.bytes.length : Int) - d.pos).bmod (2 ^ 32)
  readable d := (d.bytes ++ d.beyond).length - d.pos

end Decerealiser

end MqttCpp
