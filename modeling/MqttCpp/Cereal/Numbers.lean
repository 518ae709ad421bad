import MqttCpp.Cereal.Codec

/-!
# The formats of the numbers

Every `grain` of a number, signed or not, writes the bytes of the number, the most significant
first, and reads just these (`Scalar.codes`).  The lengths of vectors and strings are numbers whose
type is chosen by the caller: what the type cannot hold of a length is lost when it is written.
-/

namespace MqttCpp

open Cereal

/-! ## What writes and reads a format -/

/-- Every value is written as its encoding and left as it is, and reading accepts the encodings
only; it fails where there is no memory only. -/
structure Codes {T : Type} (write : T → CerealM Cerealiser T) (read : T → CerealM Decerealiser T)
    (encode : T → Bytes) : Prop where
  prints : ∀ v, Prints (write v) v (encode v)
  parses : ∀ old, Parses (read old) fun v input => input = encode v
  failsWith : ∀ old, FailsWith (read old) (· = .badRead)

/-- A byte is its only digit. -/
lemma bigEndian_one (b : UInt8) : bigEndian 1 b.toNat = [b] := by
  rw [bigEndian, bigEndian, List.nil_append, UInt8.ofNat_toNat]

namespace Codes

/-- Bytes. -/
lemma uint8 : Codes grainUInt8 grainUInt8 fun v => bigEndian 1 v.toNat where
  prints v := by
    rw [bigEndian_one]
    exact prints_grainUInt8 v
  parses old := (parses_grainUInt8 old).congr fun v input => by rw [bigEndian_one]
  failsWith := failsWith_grainUInt8

/-- A number is written and read as the unsigned number with the same bits. -/
lemma reinterpret {T U : Type} {write : U → CerealM Cerealiser U}
    {read : U → CerealM Decerealiser U} {encode : U → Bytes} (h : Codes write read encode)
    {toUnsigned : T → U} {ofUnsigned : U → T} (hleft : ∀ t, ofUnsigned (toUnsigned t) = t)
    (hright : ∀ u, toUnsigned (ofUnsigned u) = u) :
    Codes (grainReinterpret toUnsigned ofUnsigned write)
      (grainReinterpret toUnsigned ofUnsigned read) fun v => encode (toUnsigned v) where
  prints v := by
    have hwrite := (h.prints (toUnsigned v)).bind_pure ofUnsigned
    rw [hleft] at hwrite
    exact hwrite
  parses old := by
    refine ((h.parses (toUnsigned old)).map ofUnsigned).congr fun v input => ?_
    constructor
    · rintro ⟨u, rfl, rfl⟩
      rw [hright]
    · rintro rfl
      exact ⟨toUnsigned v, rfl, (hleft v).symm⟩
  failsWith old := (h.failsWith (toUnsigned old)).bind fun u => .pure (ofUnsigned u)

end Codes

/-! ## Unsigned numbers -/

/-- The two bytes of a 16-bit number are its digits. -/
lemma be16_eq_bigEndian (w : UInt16) : be16 w = bigEndian 2 w.toNat := by
  have hw := w.toNat_lt
  rw [eq_bigEndian_iff hw]
  refine ⟨rfl, ?_⟩
  change (0 * 256 + (w >>> 8).toUInt8.toNat) * 256 + (w &&& 0xff).toUInt8.toNat = w.toNat
  rw [toNat_high, toNat_low]
  omega

/-- 16-bit numbers. -/
lemma Codes.uint16 : Codes grainUInt16 grainUInt16 fun v => bigEndian 2 v.toNat where
  prints v := by
    rw [← be16_eq_bigEndian]
    exact prints_grainUInt16 v
  parses old := (parses_grainUInt16 old).congr fun v input => by rw [be16_eq_bigEndian]
  failsWith := failsWith_grainUInt16

/-- The four bytes of a 32-bit number. -/
def be32 (w : UInt32) : Bytes :=
  [(w >>> 24).toUInt8, (w >>> 16).toUInt8, (w >>> 8).toUInt8, (w &&& 0xff).toUInt8]

/-- Four bytes put together. -/
def join32 (a b c d : UInt8) : UInt32 :=
  (a.toUInt32 <<< 24) + (b.toUInt32 <<< 16) + (c.toUInt32 <<< 8) + d.toUInt32

/-- The value of a byte that is shifted to its place. -/
lemma toNat_shift32 (b : UInt8) {n : ℕ} (h : n ≤ 24) :
    (b.toUInt32 <<< UInt32.ofNat n).toNat = b.toNat * 2 ^ n := by
  have hb := b.toNat_lt
  have hn : (UInt32.ofNat n).toNat % 32 = n := by
    rw [UInt32.toNat_ofNat_of_lt' (show n < 2 ^ 32 by omega)]
    omega
  have hle : 2 ^ n ≤ 2 ^ 24 := Nat.pow_le_pow_right (by decide) h
  have hlt : b.toNat * 2 ^ n < 2 ^ 32 := by
    calc b.toNat * 2 ^ n ≤ b.toNat * 2 ^ 24 := Nat.mul_le_mul_left _ hle
      _ < 2 ^ 32 := by omega
  rw [UInt32.toNat_shiftLeft, UInt8.toNat_toUInt32, hn, Nat.shiftLeft_eq, Nat.mod_eq_of_lt hlt]

/-- The value of four bytes put together. -/
lemma toNat_join32 (a b c d : UInt8) : (join32 a b c d).toNat = ofBigEndian [a, b, c, d] := by
  have ha := a.toNat_lt
  have hb := b.toNat_lt
  have hc := c.toNat_lt
  have hd := d.toNat_lt
  have h24 : (a.toUInt32 <<< (24 : UInt32)).toNat = a.toNat * 2 ^ 24 := toNat_shift32 a (by decide)
  have h16 : (b.toUInt32 <<< (16 : UInt32)).toNat = b.toNat * 2 ^ 16 := toNat_shift32 b (by decide)
  have h8 : (c.toUInt32 <<< (8 : UInt32)).toNat = c.toNat * 2 ^ 8 := toNat_shift32 c (by decide)
  have hdigits : ofBigEndian [a, b, c, d] =
      (((0 * 256 + a.toNat) * 256 + b.toNat) * 256 + c.toNat) * 256 + d.toNat := rfl
  rw [join32, UInt32.toNat_add, UInt32.toNat_add, UInt32.toNat_add, h24, h16, h8,
    UInt8.toNat_toUInt32, hdigits]
  omega

/-- The value of one of the four bytes. -/
lemma toNat_byte32 (w : UInt32) {n : ℕ} (h : n ≤ 24) :
    (w >>> UInt32.ofNat n).toUInt8.toNat = w.toNat / 2 ^ n % 256 := by
  have hn : (UInt32.ofNat n).toNat % 32 = n := by
    rw [UInt32.toNat_ofNat_of_lt' (show n < 2 ^ 32 by omega)]
    omega
  rw [UInt32.toNat_toUInt8, UInt32.toNat_shiftRight, hn, Nat.shiftRight_eq_div_pow]

/-- The four bytes of a 32-bit number are its digits. -/
lemma be32_eq_bigEndian (w : UInt32) : be32 w = bigEndian 4 w.toNat := by
  have hw := w.toNat_lt
  have h24 : (w >>> (24 : UInt32)).toUInt8.toNat = w.toNat / 2 ^ 24 % 256 :=
    toNat_byte32 w (by decide)
  have h16 : (w >>> (16 : UInt32)).toUInt8.toNat = w.toNat / 2 ^ 16 % 256 :=
    toNat_byte32 w (by decide)
  have h8 : (w >>> (8 : UInt32)).toUInt8.toNat = w.toNat / 2 ^ 8 % 256 :=
    toNat_byte32 w (by decide)
  have hlow : (w &&& 0xff).toUInt8.toNat = w.toNat % 256 := by
    have hmask : (0xff : UInt32).toNat = 2 ^ 8 - 1 := rfl
    rw [UInt32.toNat_toUInt8, UInt32.toNat_and, hmask, Nat.and_two_pow_sub_one_eq_mod]
    omega
  rw [eq_bigEndian_iff hw]
  refine ⟨rfl, ?_⟩
  change (((0 * 256 + (w >>> 24).toUInt8.toNat) * 256 + (w >>> 16).toUInt8.toNat) * 256 +
    (w >>> 8).toUInt8.toNat) * 256 + (w &&& 0xff).toUInt8.toNat = w.toNat
  rw [h24, h16, h8, hlow]
  omega

/-- The bytes of a number put together are the number. -/
lemma join32_eq_iff {a b c d : UInt8} {w : UInt32} :
    join32 a b c d = w ↔ [a, b, c, d] = bigEndian 4 w.toNat := by
  rw [eq_bigEndian_iff w.toNat_lt, ← toNat_join32]
  exact ⟨fun h => ⟨rfl, by rw [h]⟩, fun h => UInt32.toNat.inj h.2⟩

/-- 32-bit numbers. -/
lemma Codes.uint32 : Codes grainUInt32 grainUInt32 fun v => bigEndian 4 v.toNat where
  prints v := by
    have hbytes : Prints (grainUInt32 v : CerealM Cerealiser UInt32)
        (join32 (v >>> 24).toUInt8 (v >>> 16).toUInt8 (v >>> 8).toUInt8 (v &&& 0xff).toUInt8)
        ([(v >>> 24).toUInt8] ++ ([(v >>> 16).toUInt8] ++
          ([(v >>> 8).toUInt8] ++ [(v &&& 0xff).toUInt8]))) := by
      unfold grainUInt32
      exact (prints_grainUInt8 _).bind ((prints_grainUInt8 _).bind ((prints_grainUInt8 _).bind
        ((prints_grainUInt8 _).bind_pure (join32 _ _ _))))
    rw [join32_eq_iff.mpr (be32_eq_bigEndian v)] at hbytes
    rw [← be32_eq_bigEndian]
    exact hbytes
  parses old := by
    refine ((parses_grainUInt8 _).bind fun a => (parses_grainUInt8 _).bind fun b =>
      (parses_grainUInt8 _).bind fun c => (parses_grainUInt8 _).map (join32 a b c)).congr
        fun v input => ?_
    constructor
    · rintro ⟨a, _, _, rfl, ⟨b, _, _, rfl, ⟨c, _, _, rfl, ⟨d, rfl, rfl⟩, rfl⟩, rfl⟩, rfl⟩
      exact join32_eq_iff.mp rfl
    · rintro rfl
      rw [← be32_eq_bigEndian]
      exact ⟨_, _, _, rfl, ⟨_, _, _, rfl, ⟨_, _, _, rfl,
        ⟨_, rfl, (join32_eq_iff.mpr (be32_eq_bigEndian v)).symm⟩, rfl⟩, rfl⟩, rfl⟩
  failsWith old := by
    unfold grainUInt32
    exact (failsWith_grainUInt8 _).bind fun _ => (failsWith_grainUInt8 _).bind fun _ =>
      (failsWith_grainUInt8 _).bind fun _ => (failsWith_grainUInt8 _).bind fun _ => .pure _

/-- The bytes of a 64-bit number are grained from the most to the least significant. -/
lemma grainUInt64_eq {C : Type} [Cereal C] (v : UInt64) :
    (grainUInt64 v : CerealM C UInt64) =
      (bigEndian 8 v.toNat).mapM grainUInt8 >>= fun bytes =>
        pure (UInt64.ofNat (ofBigEndian bytes)) := by
  unfold grainUInt64
  simp only [List.reverse_reverse]
  rfl

/-- The number that its bytes make up. -/
lemma ofNat_ofBigEndian (v : UInt64) :
    UInt64.ofNat (ofBigEndian (bigEndian 8 v.toNat)) = v := by
  have hlt : v.toNat < 256 ^ 8 := v.toNat_lt
  rw [ofBigEndian_bigEndian, Nat.mod_eq_of_lt hlt, UInt64.ofNat_toNat]

/-- 64-bit numbers. -/
lemma Codes.uint64 : Codes grainUInt64 grainUInt64 fun v => bigEndian 8 v.toNat where
  prints v := by
    have hbytes := (prints_mapM_grainUInt8 (bigEndian 8 v.toNat)).bind_pure
      fun bytes => UInt64.ofNat (ofBigEndian bytes)
    rw [ofNat_ofBigEndian] at hbytes
    rw [grainUInt64_eq]
    exact hbytes
  parses old := by
    rw [grainUInt64_eq]
    refine ((Parses.mapM (fun b => parses_grainUInt8 b) _).map
      fun bytes => UInt64.ofNat (ofBigEndian bytes)).congr fun v input => ?_
    rw [length_bigEndian]
    constructor
    · rintro ⟨_, ⟨hlen, rfl⟩, rfl⟩
      have hlt : ofBigEndian input < 2 ^ 64 := by
        have hbytes := ofBigEndian_lt input
        rwa [hlen] at hbytes
      rw [UInt64.toNat_ofNat_of_lt' hlt, ← hlen, bigEndian_ofBigEndian]
    · rintro rfl
      exact ⟨_, ⟨length_bigEndian 8 _, rfl⟩, (ofNat_ofBigEndian v).symm⟩
  failsWith old := by
    rw [grainUInt64_eq]
    exact (FailsWith.mapM failsWith_grainUInt8 _).bind fun _ => .pure _

/-! ## All numbers -/

/-- The types of numbers that `grain` takes. -/
inductive Scalar where
  | bool
  | uint8
  | int8
  | char
  | uint16
  | int16
  | uint32
  | int32
  | uint64
  | int64
  | double
  deriving DecidableEq, Repr

namespace Scalar

/-- What a variable of the type holds; a `bool`, a `char` and a `double` are given by their bits. -/
abbrev Value : Scalar → Type
  | bool | uint8 | char => UInt8
  | int8 => Int8
  | uint16 => UInt16
  | int16 => Int16
  | uint32 => UInt32
  | int32 => Int32
  | uint64 | double => UInt64
  | int64 => Int64

/-- The overload of `Cereal::grain` for the type. -/
def grain {C : Type} [Cereal C] : (s : Scalar) → s.Value → CerealM C s.Value
  | bool => grainBool
  | uint8 => grainUInt8
  | int8 => grainInt8
  | char => grainChar
  | uint16 => grainUInt16
  | int16 => grainInt16
  | uint32 => grainUInt32
  | int32 => grainInt32
  | uint64 => grainUInt64
  | int64 => grainInt64
  | double => grainDouble

/-- A variable that has been value-initialised. -/
def default : (s : Scalar) → s.Value
  | bool | uint8 | char => (0 : UInt8)
  | int8 => (0 : Int8)
  | uint16 => (0 : UInt16)
  | int16 => (0 : Int16)
  | uint32 => (0 : UInt32)
  | int32 => (0 : Int32)
  | uint64 | double => (0 : UInt64)
  | int64 => (0 : Int64)

/-- The number of bytes. -/
def size : Scalar → ℕ
  | bool | uint8 | int8 | char => 1
  | uint16 | int16 => 2
  | uint32 | int32 => 4
  | uint64 | int64 | double => 8

/-- The number that the bits of a variable make up. -/
def bits : (s : Scalar) → s.Value → ℕ
  | bool, v => UInt8.toNat v
  | uint8, v => UInt8.toNat v
  | char, v => UInt8.toNat v
  | int8, v => (Int8.toUInt8 v).toNat
  | uint16, v => UInt16.toNat v
  | int16, v => (Int16.toUInt16 v).toNat
  | uint32, v => UInt32.toNat v
  | int32, v => (Int32.toUInt32 v).toNat
  | uint64, v => UInt64.toNat v
  | int64, v => (Int64.toUInt64 v).toNat
  | double, v => UInt64.toNat v

/-- The bytes of a number, the most significant first. -/
def encode (s : Scalar) (v : s.Value) : Bytes := bigEndian s.size (s.bits v)

/-- **The formats of the numbers.** -/
theorem codes (s : Scalar) : Codes s.grain s.grain s.encode := by
  cases s with
  | bool => exact Codes.uint8.reinterpret (fun _ => rfl) fun _ => rfl
  | uint8 => exact Codes.uint8
  | int8 => exact Codes.uint8.reinterpret (fun _ => rfl) fun _ => rfl
  | char => exact Codes.uint8
  | uint16 => exact Codes.uint16
  | int16 => exact Codes.uint16.reinterpret (fun _ => rfl) fun _ => rfl
  | uint32 => exact Codes.uint32
  | int32 => exact Codes.uint32.reinterpret (fun _ => rfl) fun _ => rfl
  | uint64 => exact Codes.uint64
  | int64 => exact Codes.uint64.reinterpret (fun _ => rfl) fun _ => rfl
  | double => exact Codes.uint64.reinterpret (fun _ => rfl) fun _ => rfl

/-- No number is written as nothing. -/
lemma length_encode_pos (s : Scalar) (v : s.Value) : 0 < (s.encode v).length := by
  rw [encode, length_bigEndian]
  cases s <;> decide

end Scalar

/-! ## Lengths -/

namespace Cereal.LengthType

/-- The lengths that the type can hold are those below this. -/
def bound (I : LengthType) : ℕ := 256 ^ I.size

/-- A type with the digits of its numbers holds a length in one of them. -/
lemma prints_of_codes {T : Type} {write : T → CerealM Cerealiser T}
    {read : T → CerealM Decerealiser T} {ofNat : ℕ → T} {toNat : T → ℕ} {size : ℕ}
    (h : Codes write read fun v => bigEndian size (toNat v))
    (hofNat : ∀ n, toNat (ofNat n) = n % 256 ^ size) (length : ℕ) :
    Prints (write (ofNat length) >>= fun num => pure (toNat num)) (length % 256 ^ size)
      (bigEndian size length) := by
  have hwrite := (h.prints (ofNat length)).bind_pure toNat
  rwa [hofNat, bigEndian_mod] at hwrite

/-- Reading it gives the length. -/
lemma parses_of_codes {T : Type} {write : T → CerealM Cerealiser T}
    {read : T → CerealM Decerealiser T} {ofNat : ℕ → T} {toNat : T → ℕ} {size : ℕ}
    (h : Codes write read fun v => bigEndian size (toNat v))
    (hofNat : ∀ n, toNat (ofNat n) = n % 256 ^ size) (hlt : ∀ v, toNat v < 256 ^ size)
    (old : ℕ) :
    Parses (read (ofNat old) >>= fun num => pure (toNat num)) fun num input =>
      num < 256 ^ size ∧ input = bigEndian size num := by
  refine ((h.parses (ofNat old)).map toNat).congr fun num input => ?_
  constructor
  · rintro ⟨v, rfl, rfl⟩
    exact ⟨hlt v, rfl⟩
  · rintro ⟨hnum, rfl⟩
    have hback : toNat (ofNat num) = num := by rw [hofNat, Nat.mod_eq_of_lt hnum]
    exact ⟨ofNat num, by rw [hback], hback.symm⟩

/-- Writing a length writes what the type can hold of it. -/
lemma prints_grainLength (I : LengthType) (length : ℕ) :
    Prints (grainLength I length : CerealM Cerealiser ℕ) (length % I.bound)
      (bigEndian I.size length) := by
  cases I with
  | uint8 => exact prints_of_codes Codes.uint8 (fun n => UInt8.toNat_ofNat') length
  | uint16 => exact prints_of_codes Codes.uint16 (fun n => UInt16.toNat_ofNat') length
  | uint32 => exact prints_of_codes Codes.uint32 (fun n => UInt32.toNat_ofNat') length
  | uint64 => exact prints_of_codes Codes.uint64 (fun n => UInt64.toNat_ofNat') length

/-- Reading a length. -/
lemma parses_grainLength (I : LengthType) (old : ℕ) :
    Parses (grainLength I old : CerealM Decerealiser ℕ) fun num input =>
      num < I.bound ∧ input = bigEndian I.size num := by
  cases I with
  | uint8 => exact parses_of_codes Codes.uint8 (fun n => UInt8.toNat_ofNat') UInt8.toNat_lt old
  | uint16 =>
    exact parses_of_codes Codes.uint16 (fun n => UInt16.toNat_ofNat') UInt16.toNat_lt old
  | uint32 =>
    exact parses_of_codes Codes.uint32 (fun n => UInt32.toNat_ofNat') UInt32.toNat_lt old
  | uint64 =>
    exact parses_of_codes Codes.uint64 (fun n => UInt64.toNat_ofNat') UInt64.toNat_lt old

/-- Reading a length fails as reading a byte does. -/
lemma failsWith_grainLength (I : LengthType) (old : ℕ) :
    FailsWith (grainLength I old : CerealM Decerealiser ℕ) (· = .badRead) := by
  cases I with
  | uint8 => exact (Codes.uint8.failsWith _).bind fun _ => .pure _
  | uint16 => exact (Codes.uint16.failsWith _).bind fun _ => .pure _
  | uint32 => exact (Codes.uint32.failsWith _).bind fun _ => .pure _
  | uint64 => exact (Codes.uint64.failsWith _).bind fun _ => .pure _

end Cereal.LengthType

end MqttCpp
