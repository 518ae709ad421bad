import MqttCpp.Message.Inverse
import MqttCpp.Message.Publish

/-!
# The length field of what is written

The constructors of PUBLISH, SUBACK, UNSUBACK and CONNACK compute the remaining length, and
`cerealise` writes the fields one by one.  The receiver knows only the length: it has to be that of
what is behind it.
-/

namespace MqttCpp

open MqttFixedHeader

/-- The bytes are a byte of flags, the digits of a length, and as many bytes as the digits and the
header say. -/
def TellsLength (h : MqttFixedHeader) (bytes : Bytes) : Prop :=
  ∃ b ds body, bytes = b :: ds ++ body ∧ IsDigits ds ∧ digitSum ds = body.length ∧
    h.remaining.toNat = body.length

/-- The message is written as bytes that tell their length. -/
def WritesLength {M : Type} [Cerealises M] (header : M → MqttFixedHeader) (m : M) : Prop :=
  ∃ bytes, written m = .ok bytes ∧ TellsLength (header m) bytes

/-- A header in front of as many bytes as it says tells the length. -/
lemma tellsLength_headerBytes {h : MqttFixedHeader} {body : Bytes}
    (hlen : h.remaining.toNat = body.length) (hmax : body.length ≤ 268435455) :
    TellsLength h (h.headerBytes ++ body) := by
  have hle : h.remaining ≤ 268435455 := by
    rw [UInt32.le_iff_toNat_le, hlen]
    exact hmax
  refine ⟨h.flagByte, remainingDigits h.remaining, body, rfl, isDigits_remainingDigits _, ?_, hlen⟩
  rw [digitSum_remainingDigits hle, hlen]

/-- The bytes of a PUBLISH behind the header are as many as the constructor computes. -/
lemma MqttPublish.writesLength_new (dup : Bool) (qos : UInt8) (retain : Bool) {topic : Str}
    {payload : Bytes} (msgId : UInt16) (htopic : topic.length ≤ 65535)
    (hlen : remainingLength qos topic payload ≤ 268435455) :
    WritesLength MqttPublish.header (new dup qos retain topic payload msgId) := by
  have hbody : (encodeString topic ++ (idBytes qos msgId ++ payload)).length =
      remainingLength qos topic payload := by
    rw [List.length_append, List.length_append, length_encodeString, remainingLength, idBytes]
    split <;> simp <;> omega
  refine ⟨_, encode_cerealise (Nat.lt_succ_of_le htopic), tellsLength_headerBytes ?_ ?_⟩
  · rw [toNat_remaining_new dup qos retain msgId hlen]
    exact hbody.symm
  · exact Nat.le_trans (Nat.le_of_eq hbody) hlen

/-- So are those of a SUBACK. -/
lemma MqttSuback.writesLength_new (m : UInt16) {q : List UInt8} (hlen : q.length + 2 ≤ 268435455) :
    WritesLength MqttSuback.header (new m q) := by
  have hbody : (be16 m ++ q.flatMap fun b => [b]).length = q.length + 2 := by
    simp [Nat.add_comm]
  refine ⟨_, written_eq _ _ _, tellsLength_headerBytes ?_ ?_⟩
  · rw [hbody]
    exact UInt32.toNat_ofNat_of_lt' (Nat.lt_of_le_of_lt hlen (by decide))
  · rwa [hbody]

/-- So are those of an UNSUBACK. -/
lemma MqttUnsuback.writesLength_new (m : UInt16) : WritesLength MqttUnsuback.header (new m) :=
  ⟨_, written_eq _, tellsLength_headerBytes rfl (by rw [length_be16]; decide)⟩

/-- So are those of a CONNACK, with any code. -/
lemma MqttConnack.writesLength_ofCode (c : UInt32) : WritesLength MqttConnack.header (ofCode c) :=
  ⟨_, written_eq _, tellsLength_headerBytes rfl (by simp)⟩

/-- **The length field tells the truth**: what a fresh cerealiser writes for a PUBLISH, SUBACK,
UNSUBACK or CONNACK that was made by its constructor is a byte of flags, the digits of a length, and
just as many bytes. -/
theorem constructors_writeLength :
    (∀ (dup : Bool) (qos : UInt8) (retain : Bool) (topic : Str) (payload : Bytes) (msgId : UInt16),
      qos ≤ 3 → topic.length ≤ 65535 →
        MqttPublish.remainingLength qos topic payload ≤ 268435455 →
          WritesLength MqttPublish.header (.new dup qos retain topic payload msgId)) ∧
      (∀ (m : UInt16) (q : List UInt8), q.length + 2 ≤ 268435455 →
        WritesLength MqttSuback.header (.new m q)) ∧
      (∀ m : UInt16, WritesLength MqttUnsuback.header (.new m)) ∧
      WritesLength MqttConnack.header .new ∧
      ∀ c : UInt32, WritesLength MqttConnack.header (.ofCode c) := by
  refine ⟨?_, ?_, MqttUnsuback.writesLength_new, MqttConnack.writesLength_ofCode 0,
    MqttConnack.writesLength_ofCode⟩
  · intro dup qos retain topic payload msgId _ htopic hlen
    exact MqttPublish.writesLength_new dup qos retain msgId htopic hlen
  · intro m q hlen
    exact MqttSuback.writesLength_new m hlen

/-- A PUBLISH of "b" to "a" with a qos of 1, and a SUBACK for two topics. -/
theorem constructors_writeLength_examples :
    WritesLength MqttPublish.header (.new false 1 false [97] [98] 7) ∧
      WritesLength MqttSuback.header (.new 7 [0, 1]) :=
  ⟨constructors_writeLength.1 false 1 false [97] [98] 7 (by decide) (by decide) (by decide),
    constructors_writeLength.2.1 7 [0, 1] (by decide)⟩

end MqttCpp
