import MqttCpp.Library.BigEndian
import MqttCpp.Memory

/-!
# Cereals

`cereal/src/Cereal.hpp` and `Cereal.cpp`: one set of `grain` functions serves both writing and
reading.  A cereal is a class with virtual functions, here the class `Cereal`; its two
implementations are in `Cereal.Cerealiser` and `Cereal.Decerealiser`.

A `grain` function takes a reference, which reading changes; the model takes the old value and
returns the new one.
-/

namespace MqttCpp

/-- `Cereal::Type`. -/
inductive CerealType where
  | write
  | read
  deriving DecidableEq, Repr

/-- A computation that uses a cereal of type `C`. -/
abbrev CerealM (C : Type) := StateT C (Except Fault)

/-- The virtual functions of `Cereal`. -/
class Cereal (C : Type) where
  getType : CerealType
  grainByte : UInt8 → CerealM C UInt8
  grainBitsImpl : UInt32 → ℕ → CerealM C UInt32
  bytesLeft : C → Int
  /-- How many bytes can be grained at most before no memory is left.  Not in the source: it
  bounds a loop that only the bytes it reads can end. -/
  readable : C → ℕ

/-- The types `grainBits` is used at: `static_cast` to and from `uint32_t`. -/
class BitField (T : Type) where
  toUInt32 : T → UInt32
  ofUInt32 : UInt32 → T

instance : BitField Bool where
  toUInt32 b := if b then 1 else 0
  ofUInt32 v := decide (v ≠ 0)

instance : BitField UInt8 where
  toUInt32 := UInt8.toUInt32
  ofUInt32 := UInt32.toUInt8

/-- `std::vector::resize` and `std::string::resize`: cut off, or fill up with `default`. -/
def resize {α : Type} (n : ℕ) (default : α) (val : List α) : List α :=
  val.take n ++ List.replicate (n - val.length) default

namespace Cereal

variable {C : Type} [Cereal C]

/-- `Cereal::grainBits`. -/
def grainBits {T : Type} [BitField T] (val : T) (bits : ℕ) : CerealM C T := do
  let realVal ← grainBitsImpl (BitField.toUInt32 val) bits
  return BitField.ofUInt32 realVal

/-- `Cereal::grain(uint8_t&)`. -/
def grainUInt8 (val : UInt8) : CerealM C UInt8 := grainByte val

/-- `Cereal::grain(char&)`, which grains the character as a byte. -/
def grainChar (val : UInt8) : CerealM C UInt8 := grainUInt8 val

/-- `Cereal::grain(uint16_t&)`. -/
def grainUInt16 (val : UInt16) : CerealM C UInt16 := do
  let valh ← grainByte (val >>> 8).toUInt8
  let vall ← grainByte (val &&& 0xff).toUInt8
  return (valh.toUInt16 <<< 8) + vall.toUInt16

/-- `Cereal::grain(std::string&)`.  A string is taken to have room for the 65535 characters that
its length can say at most. -/
def grainString (val : Str) : CerealM C Str := do
  let num ← grainUInt16 (UInt16.ofNat val.length)
  -- writing to val, resize it
  let val := if val.length ≠ num.toNat then resize num.toNat 0 val else val
  val.mapM grainChar

/-- `Cereal::grainReinterpret`: a number is grained as the unsigned number with the same bits. -/
def grainReinterpret {T U : Type} (toUnsigned : T → U) (ofUnsigned : U → T)
    (grain : U → CerealM C U) (val : T) : CerealM C T := do
  let uval ← grain (toUnsigned val)
  return ofUnsigned uval

/-- `Cereal::grain(bool&)`, for the byte that the `bool` is stored in. -/
def grainBool (val : UInt8) : CerealM C UInt8 := grainReinterpret id id grainUInt8 val

/-- `Cereal::grain(int8_t&)`. -/
def grainInt8 (val : Int8) : CerealM C Int8 :=
  grainReinterpret Int8.toUInt8 UInt8.toInt8 grainUInt8 val

/-- `Cereal::grain(int16_t&)`. -/
def grainInt16 (val : Int16) : CerealM C Int16 :=
  grainReinterpret Int16.toUInt16 UInt16.toInt16 grainUInt16 val

/-- `Cereal::grain(uint32_t&)`. -/
def grainUInt32 (val : UInt32) : CerealM C UInt32 := do
  let val0 ← grainByte (val >>> 24).toUInt8
  let val1 ← grainByte (val >>> 16).toUInt8
  let val2 ← grainByte (val >>> 8).toUInt8
  let val3 ← grainByte (val &&& 0xff).toUInt8
  return (val0.toUInt32 <<< 24) + (val1.toUInt32 <<< 16) + (val2.toUInt32 <<< 8) + val3.toUInt32

/-- `Cereal::grain(int32_t&)`. -/
def grainInt32 (val : Int32) : CerealM C Int32 :=
  grainReinterpret Int32.toUInt32 UInt32.toInt32 grainUInt32 val

/-- `Cereal::grain(uint64_t&)`: the bytes of the number in memory, from the last to the first.  The
machine is taken to be little-endian, so that the last is the most significant.  The sum `newVal`
that is formed afterwards is not used. -/
def grainUInt64 (val : UInt64) : CerealM C UInt64 := do
  let ptr := (bigEndian 8 val.toNat).reverse
  let bytes ← ptr.reverse.mapM grainByte
  return UInt64.ofNat (ofBigEndian bytes)

/-- `Cereal::grain(int64_t&)`. -/
def grainInt64 (val : Int64) : CerealM C Int64 :=
  grainReinterpret Int64.toUInt64 UInt64.toInt64 grainUInt64 val

/-- `Cereal::grain(double&)`, for the 64 bits that the number is stored in. -/
def grainDouble (val : UInt64) : CerealM C UInt64 := grainReinterpret id id grainUInt64 val

/-- The types that a length may be written as: the template parameter `I` of `grain`. -/
inductive LengthType where
  | uint8
  | uint16
  | uint32
  | uint64
  deriving DecidableEq, Repr

/-- The number of bytes of a length. -/
def LengthType.size : LengthType → ℕ
  | .uint8 => 1
  | .uint16 => 2
  | .uint32 => 4
  | .uint64 => 8

/-- `I num = val.size(); grain(num)`: the length that is written is what the type can hold of it. -/
def grainLength (I : LengthType) (length : ℕ) : CerealM C ℕ :=
  match I with
  | .uint8 => do
    let num ← grainUInt8 (UInt8.ofNat length)
    return num.toNat
  | .uint16 => do
    let num ← grainUInt16 (UInt16.ofNat length)
    return num.toNat
  | .uint32 => do
    let num ← grainUInt32 (UInt32.ofNat length)
    return num.toNat
  | .uint64 => do
    let num ← grainUInt64 (UInt64.ofNat length)
    return num.toNat

/-- `if(val.size() != num) val.resize(num)`, where there is room for so many elements only: to grow
beyond that throws. -/
def maybeResize {T : Type} (room num : ℕ) (default : T) (val : List T) : CerealM C (List T) :=
  if val.length ≠ num then
    if val.length < num ∧ room < num then throw .lengthError else return resize num default val
  else return val

/-- `Cereal::grain<I>(std::vector&)`.  The room is that of `max_size()` or of the memory there
is. -/
def grainVector {T : Type} (room : ℕ) (I : LengthType) (grain : T → CerealM C T) (default : T)
    (val : List T) : CerealM C (List T) := do
  let num ← grainLength I val.length
  -- writing to val, resize it
  let val ← maybeResize room num default val
  val.mapM grain

/-- `Cereal::grain<I>(std::string&)`; `grainString` is the case of the default `I`. -/
def grainStringOf (room : ℕ) (I : LengthType) (val : Str) : CerealM C Str :=
  grainVector room I grainChar 0 val

/-- The loop of `grainRawArray` that reads elements for as long as there are bytes left.  Every
element takes at least one byte, so the bytes left at the start bound the number of rounds; the
array is taken to have room for so many elements. -/
def grainRawArrayLoop {T : Type} (grain : T → CerealM C T) (default : T) :
    ℕ → List T → CerealM C (List T)
  | 0, val => do
    if bytesLeft (← get) > 0 then throw .diverged else return val
  | fuel + 1, val => do
    if bytesLeft (← get) > 0 then
      let t ← grain default
      if bytesLeft (← get) < 0 then throw .assertFailed
      else grainRawArrayLoop grain default fuel (val ++ [t])
    else return val

/-- `Cereal::grainRawArray`: an array without a length, which ends where the bytes end. -/
def grainRawArray {T : Type} (grain : T → CerealM C T) (default : T) (val : List T) :
    CerealM C (List T) := do
  match getType C with
  | .read => grainRawArrayLoop grain default (bytesLeft (← get)).toNat []
  | .write => val.mapM grain

end Cereal

end MqttCpp
