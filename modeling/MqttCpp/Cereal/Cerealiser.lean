import MqttCpp.Cereal.Cereal

/-!
# Writing: the Cerealiser

`cereal/src/Cerealiser.hpp` and `Cerealiser.cpp`.  Whole bytes go straight to the output; bits
are collected in a partial byte that is written when it is full.
-/

namespace MqttCpp

/-- A `Cerealiser`: the bytes written so far, and a partial byte. -/
structure Cerealiser where
  bytes : Bytes := []
  currentByte : UInt8 := 0
  bitIndex : ℕ := 0
  deriving DecidableEq, Repr

namespace Cerealiser

/-- `Cerealiser::grainByte`. -/
def push (c : Cerealiser) (val : UInt8) : Cerealiser := { c with bytes := c.bytes ++ [val] }

/-- `Cerealiser::writeBits`.  When the value just fills the byte, the last two lines run as well,
on the next byte. -/
def writeBits (c : Cerealiser) (value bits : ℕ) : Cerealiser :=
  if 8 ≤ c.bitIndex + bits then -- carries over to next byte
    let remainingBits := c.bitIndex + bits - 8
    let thisByteValue := value >>> remainingBits
    let c' : Cerealiser :=
      { (c.push (c.currentByte ||| UInt8.ofNat thisByteValue)) with
        currentByte := 0, bitIndex := 0 }
    if remainingBits > 0 then
      let remainingValue := value &&& (0xff >>> (8 - remainingBits))
      writeBits c' remainingValue remainingBits
    else
      { c' with
        currentByte := c'.currentByte ||| UInt8.ofNat (value <<< (8 - bits - c'.bitIndex))
        bitIndex := c'.bitIndex + bits }
  else
    { c with
      currentByte := c.currentByte ||| UInt8.ofNat (value <<< (8 - bits - c.bitIndex))
      bitIndex := c.bitIndex + bits }
termination_by c.bitIndex + bits
decreasing_by
  omega

/-- A value that does not fill the partial byte is put behind the bits that are in it. -/
lemma writeBits_of_lt {c : Cerealiser} (index : ℕ) {bits : ℕ} (hindex : c.bitIndex = index)
    (h : index + bits < 8) (value : ℕ) :
    c.writeBits value bits =
      { c with
        currentByte := c.currentByte ||| UInt8.ofNat (value <<< (8 - bits - index))
        bitIndex := index + bits } := by
  subst hindex
  rw [writeBits, if_neg (Nat.not_le.mpr h)]

/-- A value that just fills the partial byte completes it, and is also put into the next one. -/
lemma writeBits_of_eq {c : Cerealiser} (index : ℕ) {bits : ℕ} (hindex : c.bitIndex = index)
    (h : index + bits = 8) (value : ℕ) :
    c.writeBits value bits =
      { bytes := c.bytes ++ [c.currentByte ||| UInt8.ofNat value]
        currentByte := 0 ||| UInt8.ofNat (value <<< (8 - bits))
        bitIndex := bits } := by
  subst hindex
  rw [writeBits, if_pos (Nat.le_of_eq h.symm), h]
  change { bytes := c.bytes ++ [c.currentByte ||| UInt8.ofNat (value >>> 0)]
           currentByte := 0 ||| UInt8.ofNat (value <<< (8 - bits - 0))
           bitIndex := 0 + bits : Cerealiser } = _
  rw [Nat.shiftRight_zero, Nat.sub_zero, Nat.zero_add]

instance : Cereal Cerealiser where
  getType := .write
  grainByte val := do
    modify (·.push val)
    return val
  grainBitsImpl val bits := do
    modify (·.writeBits val.toNat bits)
    return val
  bytesLeft c := c.bytes.length
  readable _ := 0

/-- The bytes that a fresh cerealiser holds after writing. -/
def encode {α : Type} (m : CerealM Cerealiser α) : Except Fault Bytes := do
  let (_, c) ← m {}
  return c.bytes

end Cerealiser

end MqttCpp
