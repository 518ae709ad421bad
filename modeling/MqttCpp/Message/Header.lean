import MqttCpp.Cereal.Codec
import MqttCpp.Message.Message

/-!
# The format of the fixed header

A fixed header is a byte of flags and the remaining length in digits to the base 128, least
significant first, each but the last with its top bit set.  Writing and reading a header leave
a partial byte behind in the cereal, which whole bytes do not look at; so the header is described
by equations of its own, and what follows it by formats.
-/

namespace MqttCpp

open Cereal

namespace MqttFixedHeader

/-! ## The digits of the remaining length -/

/-- The digits of a length: the first digit below 128 is the last. -/
def IsDigits : Bytes → Prop
  | [] => False
  | b :: ds => if b &&& 128 ≠ 0 then IsDigits ds else ds = []

instance decidableIsDigits : (ds : Bytes) → Decidable (IsDigits ds)
  | [] => inferInstanceAs (Decidable False)
  | b :: ds =>
    let _ := decidableIsDigits ds
    inferInstanceAs (Decidable (if b &&& 128 ≠ 0 then IsDigits ds else ds = []))

/-- The value of digits of which the first counts `multiplier`, added to `value`. -/
def digitsValue : ℕ → UInt32 → Bytes → UInt32
  | _, value, [] => value
  | multiplier, value, b :: ds =>
    digitsValue (multiplier * 128) (value + UInt32.ofNat ((b &&& 127).toNat * multiplier)) ds

/-- The facts about a digit below 128 with and without its top bit. -/
lemma digit_facts {n : ℕ} (h : n < 128) :
    (UInt8.ofNat n ||| 0x80) &&& 128 ≠ 0 ∧ ((UInt8.ofNat n ||| 0x80) &&& 127).toNat = n ∧
      UInt8.ofNat n &&& 128 = 0 ∧ (UInt8.ofNat n &&& 127).toNat = n ∧
      (UInt8.ofNat n ||| 0x80).toNat = 128 + n := by
  have hall : ∀ n < 128, (UInt8.ofNat n ||| 0x80) &&& 128 ≠ 0 ∧
      ((UInt8.ofNat n ||| 0x80) &&& 127).toNat = n ∧ UInt8.ofNat n &&& 128 = 0 ∧
      (UInt8.ofNat n &&& 127).toNat = n ∧ (UInt8.ofNat n ||| 0x80).toNat = 128 + n := by
    decide +kernel
  exact hall n h

/-- The value of a digit. -/
lemma toUInt8_mod (x : UInt32) : (x % 128).toUInt8 = UInt8.ofNat (x.toNat % 128) := by
  apply UInt8.toNat.inj
  have h128 : (128 : UInt32).toNat = 128 := rfl
  rw [UInt32.toNat_toUInt8, UInt32.toNat_mod, h128, UInt8.toNat_ofNat']

lemma toNat_div (x : UInt32) : (x / 128).toNat = x.toNat / 128 := UInt32.toNat_div x 128

/-- The digits of a length below 128. -/
lemma remainingDigits_of_lt {x : UInt32} (h : x.toNat < 128) :
    remainingDigits x = [UInt8.ofNat x.toNat] := by
  have hzero : ¬x / 128 > 0 := by
    rw [gt_iff_lt, UInt32.lt_iff_toNat_lt, toNat_div]
    have h0 : (0 : UInt32).toNat = 0 := rfl
    omega
  rw [remainingDigits, if_neg hzero, toUInt8_mod, Nat.mod_eq_of_lt h]

/-- The digits of a larger length: the least significant one with its top bit set, then the digits
of the rest. -/
lemma remainingDigits_of_le {x : UInt32} (h : 128 ≤ x.toNat) :
    remainingDigits x =
      (UInt8.ofNat (x.toNat % 128) ||| 0x80) :: remainingDigits (x / 128) := by
  have hpos : x / 128 > 0 := by
    rw [gt_iff_lt, UInt32.lt_iff_toNat_lt, toNat_div]
    have h0 : (0 : UInt32).toNat = 0 := rfl
    omega
  rw [remainingDigits, if_pos hpos, toUInt8_mod]

/-- The induction over the digits of a length. -/
lemma remainingDigits_induction {motive : UInt32 → Prop}
    (last : ∀ x : UInt32, x.toNat < 128 → motive x)
    (more : ∀ x : UInt32, 128 ≤ x.toNat → motive (x / 128) → motive x) (x : UInt32) :
    motive x := by
  by_cases h : x.toNat < 128
  · exact last x h
  · exact more x (Nat.not_lt.mp h) (remainingDigits_induction last more (x / 128))
termination_by x.toNat
decreasing_by
  rw [toNat_div]
  omega

/-- There is at least one digit. -/
lemma length_remainingDigits_pos (x : UInt32) : 0 < (remainingDigits x).length := by
  by_cases h : x.toNat < 128
  · rw [remainingDigits_of_lt h]
    exact Nat.one_pos
  · rw [remainingDigits_of_le (Nat.not_lt.mp h)]
    exact Nat.succ_pos _

/-- The digits that are written are the digits of a length. -/
lemma isDigits_remainingDigits (x : UInt32) : IsDigits (remainingDigits x) := by
  induction x using remainingDigits_induction with
  | last x h =>
    rw [remainingDigits_of_lt h, IsDigits, if_neg (not_not_intro (digit_facts h).2.2.1)]
  | more x h ih =>
    have hdigit := digit_facts (Nat.mod_lt x.toNat (by decide : 0 < 128))
    rw [remainingDigits_of_le h, IsDigits, if_pos hdigit.1]
    exact ih

/-- The digits that are written have the value they were written for. -/
lemma digitsValue_remainingDigits (multiplier : ℕ) (value x : UInt32) :
    digitsValue multiplier value (remainingDigits x) =
      value + UInt32.ofNat (x.toNat * multiplier) := by
  induction x using remainingDigits_induction generalizing multiplier value with
  | last x h =>
    rw [remainingDigits_of_lt h, digitsValue, digitsValue, (digit_facts h).2.2.2.1]
  | more x h ih =>
    have hdigit := digit_facts (Nat.mod_lt x.toNat (by decide : 0 < 128))
    have hx : x.toNat % 128 * multiplier + x.toNat / 128 * (multiplier * 128) =
        x.toNat * multiplier := by
      rw [Nat.mul_comm multiplier 128, ← Nat.mul_assoc, ← Nat.add_mul, Nat.mod_add_div']
    rw [remainingDigits_of_le h, digitsValue, hdigit.2.1, ih, toNat_div, UInt32.add_assoc,
      ← UInt32.ofNat_add, hx]

/-- A round of the loop when there is a digit: two products, and a further round if its top bit is
set. -/
lemma getRemainingSizeLoop_of_cons {d : Decerealiser} {b : UInt8} {rest : Bytes}
    (h : Cursor.unread d = b :: rest) (mul : IntMul) (fuel : ℕ) (multiplier : Int32)
    (value : UInt32) :
    getRemainingSizeLoop mul (fuel + 1) multiplier value d = (do
      let product ← mul (Int32.ofNat (b &&& 127).toNat) multiplier
      let next ← mul multiplier 128
      if b &&& 128 ≠ 0 then
        getRemainingSizeLoop mul fuel next (value + product.toUInt32) (Cursor.advance 1 d)
      else .ok (value + product.toUInt32, Cursor.advance 1 d)) := by
  rw [getRemainingSizeLoop, StateT.bind_of_eq_ok (grainUInt8_of_unread_eq_cons h 0)]
  rw [StateT.lift_bind]
  congr 1
  funext product
  rw [StateT.lift_bind]
  congr 1
  funext next
  split <;> rfl

/-- A round of the loop when nothing is left. -/
lemma getRemainingSizeLoop_of_nil {d : Decerealiser} (h : Cursor.unread d = []) (mul : IntMul)
    (fuel : ℕ) (multiplier : Int32) (value : UInt32) :
    getRemainingSizeLoop mul (fuel + 1) multiplier value d = .error .badRead := by
  rw [getRemainingSizeLoop, StateT.bind_of_eq_error (grainUInt8_of_unread_eq_nil h 0)]

/-- A round of the loop in two's complement: what is added is exact up to the size of the result. -/
lemma getRemainingSizeLoop_wrapping {d : Decerealiser} {b : UInt8} {rest : Bytes}
    (h : Cursor.unread d = b :: rest) (fuel multiplier : ℕ) (value : UInt32) :
    getRemainingSizeLoop wrapping (fuel + 1) (Int32.ofNat multiplier) value d =
      if b &&& 128 ≠ 0 then
        getRemainingSizeLoop wrapping fuel (Int32.ofNat (multiplier * 128))
          (value + UInt32.ofNat ((b &&& 127).toNat * multiplier)) (Cursor.advance 1 d)
      else .ok (value + UInt32.ofNat ((b &&& 127).toNat * multiplier), Cursor.advance 1 d) := by
  have hproduct : (Int32.ofNat (b &&& 127).toNat * Int32.ofNat multiplier).toUInt32 =
      UInt32.ofNat ((b &&& 127).toNat * multiplier) := by
    rw [← Int32.ofNat_mul]
    rfl
  rw [getRemainingSizeLoop_of_cons h, ← hproduct, Int32.ofNat_mul]
  rfl

/-- What is left behind a digit. -/
lemma unread_advance_one {d : Decerealiser} {b : UInt8} {rest : Bytes}
    (h : Cursor.unread d = b :: rest) : Cursor.unread (Cursor.advance 1 d) = rest := by
  rw [Cursor.unread_advance, h, List.drop_one, List.tail_cons]

/-- Digits at the beginning of some bytes: either the first byte is the last digit, or digits
follow it. -/
lemma exists_isDigits_cons_iff {b : UInt8} {rest : Bytes} {P : Bytes → Prop} :
    (∃ ds, IsDigits ds ∧ ds <+: b :: rest ∧ P ds) ↔
      if b &&& 128 ≠ 0 then ∃ ds, IsDigits ds ∧ ds <+: rest ∧ P (b :: ds) else P [b] := by
  constructor
  · rintro ⟨ds, hds, hprefix, hP⟩
    cases ds with
    | nil => cases hds
    | cons b' ds =>
      obtain ⟨rfl, hrest⟩ := List.cons_prefix_cons.mp hprefix
      unfold IsDigits at hds
      split at hds
      · rename_i hb
        rw [if_pos hb]
        exact ⟨ds, hds, hrest, hP⟩
      · rename_i hb
        rw [if_neg hb]
        rwa [hds] at hP
  · split
    · rename_i hb
      rintro ⟨ds, hds, hrest, hP⟩
      exact ⟨b :: ds, by rwa [IsDigits, if_pos hb], List.cons_prefix_cons.mpr ⟨rfl, hrest⟩, hP⟩
    · rename_i hb
      intro hP
      exact ⟨[b], by rw [IsDigits, if_neg hb], List.prefix_append [b] rest, hP⟩

/-- The loop reads the digits of a length, if its bound is large enough. -/
lemma getRemainingSizeLoop_eq_ok_iff {fuel multiplier : ℕ} {value a : UInt32}
    {d d' : Decerealiser} (hfuel : (Cursor.unread d).length < fuel) :
    getRemainingSizeLoop wrapping fuel (Int32.ofNat multiplier) value d = .ok (a, d') ↔
      ∃ ds, IsDigits ds ∧ ds <+: Cursor.unread d ∧
        a = digitsValue multiplier value ds ∧ d' = Cursor.advance ds.length d := by
  induction fuel generalizing multiplier value d with
  | zero => exact absurd hfuel (Nat.not_lt_zero _)
  | succ fuel ih =>
    cases hunread : Cursor.unread d with
    | nil =>
      rw [getRemainingSizeLoop_of_nil hunread]
      constructor
      · intro h
        cases h
      · rintro ⟨ds, hds, hprefix, -⟩
        rw [List.prefix_nil.mp hprefix] at hds
        cases hds
    | cons b rest =>
      rw [hunread, List.length_cons] at hfuel
      have hrest := unread_advance_one hunread
      have hrestfuel : (Cursor.unread (Cursor.advance 1 d)).length < fuel := by
        rw [hrest]
        exact Nat.lt_of_succ_lt_succ hfuel
      rw [getRemainingSizeLoop_wrapping hunread, exists_isDigits_cons_iff]
      split
      · rw [ih hrestfuel, hrest]
        simp only [digitsValue, Cursor.advance_advance, List.length_cons, Nat.add_comm]
      · rw [Except.ok.injEq, Prod.mk.injEq, eq_comm (a := a), eq_comm (a := d')]
        rfl

/-- A byte is read in every round, so the bytes that can be read bound the rounds. -/
lemma length_unread_lt (d : Decerealiser) : (Cursor.unread d).length < readable d + 1 := by
  change ((d.bytes ++ d.beyond).drop d.pos).length < (d.bytes ++ d.beyond).length - d.pos + 1
  rw [List.length_drop]
  exact Nat.lt_succ_self _

/-- Reading a remaining length: its digits. -/
theorem parses_getRemainingSize :
    Parses (getRemainingSize : CerealM Decerealiser UInt32) fun a ds =>
      IsDigits ds ∧ a = digitsValue 1 0 ds := by
  intro d a d'
  apply (getRemainingSizeLoop_eq_ok_iff (length_unread_lt d)).trans
  simp only [and_assoc, and_left_comm]

/-- The loop does not end at its bound: it fails when there is no memory to read only. -/
lemma eq_of_getRemainingSizeLoop_eq_error {fuel multiplier : ℕ} {value : UInt32}
    {d : Decerealiser} (hfuel : (Cursor.unread d).length < fuel) {e : Fault}
    (h : getRemainingSizeLoop wrapping fuel (Int32.ofNat multiplier) value d = .error e) :
    e = .badRead := by
  induction fuel generalizing multiplier value d with
  | zero => exact absurd hfuel (Nat.not_lt_zero _)
  | succ fuel ih =>
    cases hunread : Cursor.unread d with
    | nil =>
      rw [getRemainingSizeLoop_of_nil hunread] at h
      exact (Except.error.inj h).symm
    | cons b rest =>
      rw [hunread, List.length_cons] at hfuel
      rw [getRemainingSizeLoop_wrapping hunread] at h
      split at h
      · refine ih ?_ h
        rw [unread_advance_one hunread]
        exact Nat.lt_of_succ_lt_succ hfuel
      · cases h

/-- How reading a remaining length fails. -/
lemma failsWith_getRemainingSize :
    FailsWith (getRemainingSize : CerealM Decerealiser UInt32) (· = .badRead) := by
  intro d e h
  exact eq_of_getRemainingSizeLoop_eq_error (length_unread_lt d) h

/-- Writing a remaining length: its digits. -/
lemma prints_setRemainingSize (h : MqttFixedHeader) :
    Prints (h.setRemainingSize : CerealM Cerealiser Unit) () (remainingDigits h.remaining) := by
  have hdigits := prints_mapM_grainUInt8 (remainingDigits h.remaining)
  exact hdigits.bind_pure fun _ => ()

/-! ## The byte of flags -/

/-- The byte of flags that is written for a header. -/
def flagByte (h : MqttFixedHeader) : UInt8 :=
  (0 : UInt8) ||| UInt8.ofNat ((BitField.toUInt32 h.type).toNat <<< 4) |||
    UInt8.ofNat ((BitField.toUInt32 h.dup).toNat <<< 3) |||
    UInt8.ofNat ((BitField.toUInt32 h.qos).toNat <<< 1) |||
    UInt8.ofNat (BitField.toUInt32 h.retain).toNat

/-- The bits of a byte, as they are read: `bits` of them behind the first `skip`. -/
def bitsAt (b : UInt8) (skip bits : ℕ) : UInt32 :=
  UInt32.ofNat ((b.toNat >>> (8 - (skip + bits))) &&& (0xff >>> (8 - bits)))

/-- The header that is read from a byte of flags and a remaining length. -/
def ofFlags (b : UInt8) (remaining : UInt32) : MqttFixedHeader where
  type := BitField.ofUInt32 (bitsAt b 0 4)
  dup := BitField.ofUInt32 (bitsAt b 4 1)
  qos := BitField.ofUInt32 (bitsAt b 5 2)
  retain := BitField.ofUInt32 (bitsAt b 7 1)
  remaining := remaining

/-- The fields of a byte of flags can be read back from it. -/
lemma bitsAt_flags {t d q r : ℕ} (ht : t < 16) (hd : d < 2) (hq : q < 4) (hr : r < 2) :
    let b := (0 : UInt8) ||| UInt8.ofNat (t <<< 4) ||| UInt8.ofNat (d <<< 3) |||
      UInt8.ofNat (q <<< 1) ||| UInt8.ofNat r
    bitsAt b 0 4 = UInt32.ofNat t ∧ bitsAt b 4 1 = UInt32.ofNat d ∧
      bitsAt b 5 2 = UInt32.ofNat q ∧ bitsAt b 7 1 = UInt32.ofNat r := by
  have hall : ∀ t < 16, ∀ d < 2, ∀ q < 4, ∀ r < 2,
      let b := (0 : UInt8) ||| UInt8.ofNat (t <<< 4) ||| UInt8.ofNat (d <<< 3) |||
        UInt8.ofNat (q <<< 1) ||| UInt8.ofNat r
      bitsAt b 0 4 = UInt32.ofNat t ∧ bitsAt b 4 1 = UInt32.ofNat d ∧
        bitsAt b 5 2 = UInt32.ofNat q ∧ bitsAt b 7 1 = UInt32.ofNat r := by
    decide +kernel
  exact hall t ht d hd q hq r hr

/-- A flag survives the conversion to a number and back. -/
lemma ofUInt32_toUInt32_bool (b : Bool) : BitField.ofUInt32 (BitField.toUInt32 b) = b := by
  cases b <;> rfl

/-- So does a byte. -/
lemma ofUInt32_toUInt32_uInt8 (b : UInt8) : BitField.ofUInt32 (BitField.toUInt32 b) = b :=
  UInt8.toUInt8_toUInt32 b

/-- So does a message type. -/
lemma ofUInt32_toUInt32_mqttType (t : MqttType) :
    BitField.ofUInt32 (BitField.toUInt32 t) = t := by
  change MqttType.ofCode (UInt32.ofNat t.code).toNat = t
  rw [UInt32.toNat_ofNat_of_lt' (Nat.lt_trans t.code_lt (by decide)), MqttType.ofCode_code]

/-- The flags that are read are those that were written, for a qos of two bits. -/
lemma ofFlags_flagByte {h : MqttFixedHeader} (hqos : h.qos ≤ 3) :
    ofFlags h.flagByte h.remaining = h := by
  have ht : (BitField.toUInt32 h.type).toNat < 16 := by
    change (UInt32.ofNat h.type.code).toNat < 16
    rw [UInt32.toNat_ofNat_of_lt' (Nat.lt_trans h.type.code_lt (by decide))]
    exact h.type.code_lt
  have hd : (BitField.toUInt32 h.dup).toNat < 2 := by
    cases h.dup <;> decide
  have hq : (BitField.toUInt32 h.qos).toNat < 4 := by
    change h.qos.toUInt32.toNat < 4
    rw [UInt8.toNat_toUInt32]
    exact Nat.lt_succ_of_le (UInt8.le_iff_toNat_le.mp hqos)
  have hr : (BitField.toUInt32 h.retain).toNat < 2 := by
    cases h.retain <;> decide
  obtain ⟨htype, hdup, hqos, hretain⟩ := bitsAt_flags ht hd hq hr
  rw [UInt32.ofNat_toNat] at htype hdup hqos hretain
  rw [ofFlags, flagByte, htype, hdup, hqos, hretain, ofUInt32_toUInt32_mqttType,
    ofUInt32_toUInt32_bool, ofUInt32_toUInt32_uInt8, ofUInt32_toUInt32_bool]

/-- The byte of flags that is written for what was read from it. -/
lemma flagByte_ofFlags (b : UInt8) (remaining : UInt32) : (ofFlags b remaining).flagByte = b := by
  have hall : ∀ n < 256, (ofFlags (UInt8.ofNat n) 0).flagByte = UInt8.ofNat n := by decide +kernel
  have hbyte := hall b.toNat b.toNat_lt
  rwa [UInt8.ofNat_toNat] at hbyte

/-- The upper half of a byte, as it is read. -/
lemma bitsAt_zero_four (b : UInt8) : (bitsAt b 0 4).toNat = (b >>> 4).toNat := by
  have hb := b.toNat_lt
  have h4 : (4 : UInt8).toNat % 8 = 4 := rfl
  have hmask : 0xff >>> (8 - 4) = 2 ^ 4 - 1 := rfl
  have hbits : bitsAt b 0 4 = UInt32.ofNat (b.toNat / 16 % 16) := by
    rw [bitsAt, hmask, Nat.and_two_pow_sub_one_eq_mod, Nat.shiftRight_eq_div_pow]
  rw [hbits, UInt32.toNat_ofNat_of_lt' (Nat.lt_trans (Nat.mod_lt _ (by decide)) (by decide)),
    UInt8.toNat_shiftRight, h4, Nat.shiftRight_eq_div_pow]
  omega

/-- The type that was written is in the upper half of the byte of flags. -/
lemma ofCode_flagByte {h : MqttFixedHeader} (hqos : h.qos ≤ 3) :
    MqttType.ofCode (h.flagByte >>> 4).toNat = h.type := by
  have htype : (ofFlags h.flagByte h.remaining).type = h.type :=
    congrArg MqttFixedHeader.type (ofFlags_flagByte hqos)
  change MqttType.ofCode (bitsAt h.flagByte 0 4).toNat = h.type at htype
  rw [← bitsAt_zero_four, htype]

/-! ## The header in whole -/

/-- Writing bits. -/
lemma grainBits_write {T : Type} [BitField T] (val : T) (bits : ℕ) (c : Cerealiser) :
    (grainBits val bits : CerealM Cerealiser T) c =
      .ok (BitField.ofUInt32 (BitField.toUInt32 val),
        c.writeBits (BitField.toUInt32 val).toNat bits) := rfl

/-- What is left in the partial byte when the byte of flags is full: the last flag once more. -/
def partialByte (h : MqttFixedHeader) : UInt8 :=
  (0 : UInt8) ||| UInt8.ofNat ((BitField.toUInt32 h.retain).toNat <<< 7)

/-- What a fresh cerealiser has written for a header: a byte of flags and the digits of the
remaining length, and a partial byte on top of that. -/
theorem cerealise_write (h : MqttFixedHeader) :
    (h.cerealise : CerealM Cerealiser MqttFixedHeader) {} =
      .ok (h, { bytes := h.flagByte :: remainingDigits h.remaining
                currentByte := h.partialByte
                bitIndex := 1 }) := by
  rw [cerealise, cerealiseWith, StateT.bind_of_eq_ok (grainBits_write h.type 4 {}),
    Cerealiser.writeBits_of_lt 0 rfl (by decide),
    StateT.bind_of_eq_ok (grainBits_write h.dup 1 _), Cerealiser.writeBits_of_lt 4 rfl (by decide),
    StateT.bind_of_eq_ok (grainBits_write h.qos 2 _), Cerealiser.writeBits_of_lt 5 rfl (by decide),
    StateT.bind_of_eq_ok (grainBits_write h.retain 1 _),
    Cerealiser.writeBits_of_eq 7 rfl (by decide),
    ofUInt32_toUInt32_mqttType, ofUInt32_toUInt32_bool, ofUInt32_toUInt32_uInt8,
    ofUInt32_toUInt32_bool]
  change ((h.setRemainingSize : CerealM Cerealiser Unit) >>= fun _ => pure h) _ = _
  rw [StateT.bind_of_eq_ok (h.prints_setRemainingSize _)]
  rfl

/-- The bytes of a header, as a fresh cerealiser writes them. -/
theorem encode_cerealise (h : MqttFixedHeader) :
    Cerealiser.encode h.cerealise = .ok (h.flagByte :: remainingDigits h.remaining) := by
  rw [Cerealiser.encode, h.cerealise_write]
  rfl

/-- The bytes of a message: the header, and the output of what is written behind it. -/
theorem encode_cerealise_bind (h : MqttFixedHeader) {α : Type}
    {f : MqttFixedHeader → CerealM Cerealiser α} {a : α} {output : Bytes}
    (hf : Prints (f h) a output) :
    Cerealiser.encode (h.cerealise >>= f) =
      .ok (h.flagByte :: remainingDigits h.remaining ++ output) := by
  rw [Cerealiser.encode, StateT.bind_of_eq_ok h.cerealise_write, hf]
  rfl

/-- Reading bits when no byte is current: the first bits of the next byte. -/
lemma grainBits_read_zero {T : Type} [BitField T] (old : T) {bits : ℕ} {d : Decerealiser}
    (hbit : d.bitIndex = 0) (h : bits ≤ 8) {b : UInt8}
    (hnext : (d.bytes ++ d.beyond)[d.pos]? = some b) :
    (grainBits old bits : CerealM Decerealiser T) d =
      .ok (BitField.ofUInt32 (bitsAt b 0 bits),
        { d with pos := d.pos + 1, currentByte := b, bitIndex := bits, bitIndex_le := h }) := by
  obtain ⟨bytes, beyond, pos, currentByte, bitIndex, hle⟩ := d
  obtain rfl : bitIndex = 0 := hbit
  change (Decerealiser.readBits bits >>= fun realVal => pure (BitField.ofUInt32 realVal)) _ = _
  rw [StateT.bind_of_eq_ok (Decerealiser.readBits_of_zero rfl h hnext)]
  simp only [Nat.zero_add, bitsAt]
  rfl

/-- Reading bits of the current byte. -/
lemma grainBits_read_pos {T : Type} [BitField T] (old : T) (index : ℕ) {bits : ℕ}
    {d : Decerealiser} (hindex : d.bitIndex = index) (hpos : 0 < index) (h : index + bits ≤ 8) :
    (grainBits old bits : CerealM Decerealiser T) d =
      .ok (BitField.ofUInt32 (bitsAt d.currentByte index bits),
        { d with bitIndex := index + bits, bitIndex_le := h }) := by
  subst hindex
  change (Decerealiser.readBits bits >>= fun realVal => pure (BitField.ofUInt32 realVal)) _ = _
  rw [StateT.bind_of_eq_ok (Decerealiser.readBits_of_pos hpos h)]
  rfl

/-- Reading bits when all bits of the current byte are taken: the first bits of the next byte. -/
lemma grainBits_read_eight {T : Type} [BitField T] (old : T) {bits : ℕ} {d : Decerealiser}
    (hbit : d.bitIndex = 8) (hpos : 0 < bits) (h : bits ≤ 8) {b : UInt8}
    (hnext : (d.bytes ++ d.beyond)[d.pos]? = some b) :
    (grainBits old bits : CerealM Decerealiser T) d =
      .ok (BitField.ofUInt32 (bitsAt b 0 bits),
        { d with pos := d.pos + 1, currentByte := b, bitIndex := bits, bitIndex_le := h }) := by
  change (Decerealiser.readBits bits >>= fun realVal => pure (BitField.ofUInt32 realVal)) _ = _
  rw [StateT.bind_of_eq_ok (Decerealiser.readBits_of_eight hbit hpos h hnext)]
  simp only [Nat.zero_add, bitsAt]
  rfl

/-- The state of a decerealiser that has read a byte of flags. -/
def afterFlags (b : UInt8) (d : Decerealiser) : Decerealiser :=
  { d with pos := d.pos + 1, currentByte := b, bitIndex := 8, bitIndex_le := Nat.le_refl 8 }

/-- When there is a byte, reading a header reads it as flags, and then the digits. -/
lemma cerealiseWith_read_of_some (mul : IntMul) (old : MqttFixedHeader) {d : Decerealiser}
    (hbit : d.bitIndex = 0) {b : UInt8} (hnext : (d.bytes ++ d.beyond)[d.pos]? = some b) :
    old.cerealiseWith mul d =
      ((getRemainingSizeWith mul : CerealM Decerealiser UInt32) >>= fun a => pure (ofFlags b a))
        (afterFlags b d) := by
  rw [cerealiseWith, StateT.bind_of_eq_ok (grainBits_read_zero old.type hbit (by decide) hnext),
    StateT.bind_of_eq_ok (grainBits_read_pos old.dup 4 rfl (by decide) (by decide)),
    StateT.bind_of_eq_ok (grainBits_read_pos old.qos 5 rfl (by decide) (by decide)),
    StateT.bind_of_eq_ok (grainBits_read_pos old.retain 7 rfl (by decide) (by decide))]
  rfl

/-- As the processor runs it, too. -/
lemma cerealise_read_of_some (old : MqttFixedHeader) {d : Decerealiser} (hbit : d.bitIndex = 0)
    {b : UInt8} (hnext : (d.bytes ++ d.beyond)[d.pos]? = some b) :
    old.cerealise d =
      ((getRemainingSize : CerealM Decerealiser UInt32) >>= fun a => pure (ofFlags b a))
        (afterFlags b d) :=
  cerealiseWith_read_of_some wrapping old hbit hnext

/-- When there is no byte, reading a header faults. -/
lemma cerealise_read_of_none (old : MqttFixedHeader) {d : Decerealiser} (hbit : d.bitIndex = 0)
    (hnext : (d.bytes ++ d.beyond)[d.pos]? = none) : old.cerealise d = .error .badRead := by
  have hbits : (grainBits old.type 4 : CerealM Decerealiser MqttType) d = .error .badRead := by
    have hread : Decerealiser.readBits 4 d = .error .badRead := by
      rw [Decerealiser.readBits, if_pos hbit, Decerealiser.next, hnext]
      rfl
    exact StateT.bind_of_eq_error hread
  exact StateT.bind_of_eq_error hbits

/-- How reading a header fails when no byte is current. -/
lemma eq_of_cerealise_eq_error {old : MqttFixedHeader} {d : Decerealiser} (hbit : d.bitIndex = 0)
    {e : Fault} (h : old.cerealise d = .error e) : e = .badRead := by
  cases hnext : (d.bytes ++ d.beyond)[d.pos]? with
  | none =>
    rw [cerealise_read_of_none old hbit hnext] at h
    exact (Except.error.inj h).symm
  | some b =>
    rw [cerealise_read_of_some old hbit hnext] at h
    exact failsWith_getRemainingSize.bind (fun a => .pure (ofFlags b a)) _ e h

/-- **What is read for a header** when no byte is current: a byte of flags and digits. -/
theorem cerealise_read_iff (old h : MqttFixedHeader) {d d' : Decerealiser}
    (hbit : d.bitIndex = 0) :
    old.cerealise d = .ok (h, d') ↔
      ∃ b ds, IsDigits ds ∧ h = ofFlags b (digitsValue 1 0 ds) ∧ b :: ds <+: Cursor.unread d ∧
        d' = Cursor.advance ds.length (afterFlags b d) := by
  have hunread := getElem?_pos_eq d
  cases hbytes : Cursor.unread d with
  | nil =>
    rw [hbytes] at hunread
    rw [cerealise_read_of_none old hbit hunread]
    constructor
    · intro hok
      cases hok
    · rintro ⟨b, ds, -, -, hprefix, -⟩
      cases List.prefix_nil.mp hprefix
  | cons b rest =>
    have hafter : Cursor.unread (afterFlags b d) = rest := by
      change (d.bytes ++ d.beyond).drop (d.pos + 1) = rest
      rw [← List.drop_drop]
      change (Cursor.unread d).drop 1 = rest
      rw [hbytes]
      rfl
    rw [hbytes] at hunread
    rw [cerealise_read_of_some old hbit hunread,
      parses_getRemainingSize.map (ofFlags b) (afterFlags b d) h d', hafter]
    constructor
    · rintro ⟨ds, ⟨_, ⟨hds, rfl⟩, rfl⟩, hprefix, rfl⟩
      exact ⟨b, ds, hds, rfl, List.cons_prefix_cons.mpr ⟨rfl, hprefix⟩, rfl⟩
    · rintro ⟨b', ds, hds, rfl, hprefix, rfl⟩
      obtain ⟨rfl, hprefix'⟩ := List.cons_prefix_cons.mp hprefix
      exact ⟨ds, ⟨_, ⟨hds, rfl⟩, rfl⟩, hprefix', rfl⟩

/-- **A header that stands at the front is read**, and what follows it remains to be read. -/
theorem cerealise_read_digits (old : MqttFixedHeader) {b : UInt8} {ds rest : Bytes}
    (hds : IsDigits ds) {d : Decerealiser} (hbit : d.bitIndex = 0)
    (hunread : Cursor.unread d = b :: ds ++ rest) :
    ∃ d', old.cerealise d = .ok (ofFlags b (digitsValue 1 0 ds), d') ∧ Cursor.unread d' = rest ∧
      d'.pos = d.pos + (b :: ds).length ∧ d'.bytes = d.bytes ∧ d'.beyond = d.beyond ∧
        d'.bitIndex = 8 := by
  have hread : old.cerealise d = .ok (ofFlags b (digitsValue 1 0 ds),
      Cursor.advance ds.length (afterFlags b d)) := by
    refine (old.cerealise_read_iff _ hbit).mpr ⟨b, ds, hds, rfl, ?_, rfl⟩
    rw [hunread]
    exact List.prefix_append _ _
  have hlen : (b :: ds).length = 1 + ds.length := Nat.add_comm _ _
  refine ⟨_, hread, ?_, ?_, rfl, rfl, rfl⟩
  · rw [Cursor.unread_advance]
    change ((d.bytes ++ d.beyond).drop (d.pos + 1)).drop _ = rest
    rw [List.drop_drop, Nat.add_assoc, ← List.drop_drop, ← hlen]
    change (Cursor.unread d).drop _ = rest
    rw [hunread, List.drop_left]
  · change d.pos + 1 + _ = _
    rw [hlen, Nat.add_assoc]

/-- The bytes of a header, as they are written. -/
def headerBytes (h : MqttFixedHeader) : Bytes := h.flagByte :: remainingDigits h.remaining

/-- The header that is read from these bytes. -/
lemma ofFlags_digitsValue {h : MqttFixedHeader} (hqos : h.qos ≤ 3) :
    ofFlags h.flagByte (digitsValue 1 0 (remainingDigits h.remaining)) = h := by
  have hzero : (0 : UInt32) + UInt32.ofNat (h.remaining.toNat * 1) = h.remaining := by
    rw [Nat.mul_one, UInt32.ofNat_toNat, UInt32.zero_add]
  rw [digitsValue_remainingDigits, hzero, ofFlags_flagByte hqos]

/-- **A header that was written is read back**, and what follows it remains to be read. -/
theorem cerealise_read_headerBytes (old : MqttFixedHeader) {h : MqttFixedHeader}
    (hqos : h.qos ≤ 3) {d : Decerealiser} (hbit : d.bitIndex = 0) {rest : Bytes}
    (hunread : Cursor.unread d = h.headerBytes ++ rest) :
    ∃ d', old.cerealise d = .ok (h, d') ∧ Cursor.unread d' = rest ∧
      d'.pos = d.pos + h.headerBytes.length ∧ d'.bytes = d.bytes ∧ d'.beyond = d.beyond ∧
        d'.bitIndex = 8 := by
  have hread := old.cerealise_read_digits (isDigits_remainingDigits h.remaining) hbit hunread
  rwa [ofFlags_digitsValue hqos] at hread

end MqttFixedHeader

end MqttCpp
