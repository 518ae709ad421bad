import MqttCpp.Message.Publish

/-!
# The length of a payload

`MqttPublish::cerealise` computes the length of the payload by subtracting the topic and the
message id from the remaining length, in unsigned numbers.  A guard keeps it from looking for a
message id in a message that has none, but it compares the remaining length with a constant and
does not know how long the topic is.
-/

namespace MqttCpp

open Cereal MqttFixedHeader

/-- The bytes of one PUBLISH: a header whose remaining length is the number of bytes behind it, a
topic, and what is behind the topic. -/
structure PublishFrame where
  flags : UInt8
  digits : Bytes
  topic : Str
  behind : Bytes
  type_eq : MqttType.ofCode (flags >>> 4).toNat = .publish
  isDigits : IsDigits digits
  length_topic : topic.length < 65536
  remaining_eq : (digitsValue 1 0 digits).toNat = topic.length + 2 + behind.length
  remaining_le : digitsValue 1 0 digits ≤ 268435455

namespace PublishFrame

/-- The bytes. -/
def bytes (f : PublishFrame) : Bytes := f.flags :: f.digits ++ (encodeString f.topic ++ f.behind)

/-- The header that is read from them. -/
def header (f : PublishFrame) : MqttFixedHeader := .ofFlags f.flags (digitsValue 1 0 f.digits)

/-- A message without a qos, one that the guard takes for one without a message id, or one that
has room for a message id behind its topic. -/
def HasRoom (f : PublishFrame) : Prop :=
  f.header.qos = 0 ∨ f.header.remaining < 7 ∨ 2 ≤ f.behind.length

instance (f : PublishFrame) : Decidable f.HasRoom :=
  inferInstanceAs (Decidable (_ ∨ _ ∨ _))

end PublishFrame

namespace MqttPublish

/-- What `cerealise` subtracts from the remaining length when it reads, one after the other. -/
def subtracted (header : MqttFixedHeader) (topic : Str) : List UInt64 :=
  (UInt64.ofNat topic.length + UInt64.ofNat MqttFixedHeader.SIZE) ::
    if header.qos ≠ 0 ∧ ¬header.remaining < 7 then [2] else []

/-- Subtractions one after the other: what is subtracted stands behind what it is subtracted
from. -/
def subtractions : UInt64 → List UInt64 → List (UInt64 × UInt64)
  | _, [] => []
  | len, n :: ns => (len, n) :: subtractions (len - n) ns

/-- None of them wraps below zero. -/
def NoWrap (header : MqttFixedHeader) (topic : Str) : Prop :=
  ∀ p ∈ subtractions header.remaining.toUInt64 (subtracted header topic), p.2 ≤ p.1

/-- **These are the subtractions of `cerealise`**: the payload gets the length that they leave. -/
theorem cerealiseBody_read (m : MqttPublish) (header : MqttFixedHeader) :
    (m.cerealiseBody header : CerealM Decerealiser MqttPublish) = (do
      let topic ← grainString m.topic
      let msgId ←
        if header.qos ≠ 0 ∧ ¬header.remaining < 7 then grainUInt16 m.msgId else pure m.msgId
      let payloadLen := (subtracted header topic).foldl (· - ·) header.remaining.toUInt64
      let payload ← resizePayload m.payload payloadLen
      let payload ← payload.mapM grainUInt8
      return { header, topic, payload, msgId }) := by
  unfold cerealiseBody subtracted
  refine bind_congr fun topic => ?_
  simp only [grainMsgId_read]
  split
  · rw [bind_assoc]
    rfl
  · rfl

end MqttPublish

namespace PublishFrame

open MqttPublish

/-- Decoding comes to an end inside the message, whatever the memory behind it holds. -/
def StaysInside (f : PublishFrame) : Prop :=
  ∀ (old : MqttPublish) (beyond : Bytes), ∃ m d,
    old.cerealise (Decerealiser.new f.bytes beyond) = .ok (m, d) ∧ d.pos ≤ f.bytes.length

/-- The remaining length has room for the topic. -/
lemma le_remaining (f : PublishFrame) : f.topic.length + 2 ≤ f.header.remaining.toNat := by
  change _ ≤ (digitsValue 1 0 f.digits).toNat
  rw [f.remaining_eq]
  exact Nat.le_add_right _ _

/-- What is behind the topic is as long as the reader computes. -/
lemma toNat_payloadLen (f : PublishFrame) :
    (payloadLen f.header f.topic).toNat = f.behind.length := by
  rw [MqttPublish.toNat_payloadLen f.length_topic f.le_remaining]
  change (digitsValue 1 0 f.digits).toNat - _ = _
  rw [f.remaining_eq, Nat.add_sub_cancel_left]

/-- So it is not too large for a vector. -/
lemma payloadLen_le_maxSize (f : PublishFrame) : payloadLen f.header f.topic ≤ maxSize := by
  apply le_maxSize_of_toNat_lt
  have hle : (digitsValue 1 0 f.digits).toNat ≤ 268435455 :=
    UInt32.le_iff_toNat_le.mp f.remaining_le
  rw [toNat_payloadLen]
  have heq := f.remaining_eq
  omega

/-- A message id can be subtracted exactly when there is room for it. -/
lemma two_le_payloadLen_iff (f : PublishFrame) :
    2 ≤ payloadLen f.header f.topic ↔ 2 ≤ f.behind.length := by
  have htwo : (2 : UInt64).toNat = 2 := rfl
  rw [UInt64.le_iff_toNat_le, toNat_payloadLen, htwo]

/-- **The length of the payload does not wrap** exactly when there is room for what is
subtracted. -/
theorem noWrap_iff (f : PublishFrame) : NoWrap f.header f.topic ↔ f.HasRoom := by
  have htopic : UInt64.ofNat f.topic.length + UInt64.ofNat MqttFixedHeader.SIZE ≤
      f.header.remaining.toUInt64 := by
    rw [UInt64.le_iff_toNat_le, toNat_topicLen f.length_topic, UInt32.toNat_toUInt64]
    exact f.le_remaining
  unfold NoWrap subtracted HasRoom
  rw [subtractions, List.forall_mem_cons]
  change _ ∧ (∀ p ∈ subtractions (payloadLen f.header f.topic) _, p.2 ≤ p.1) ↔ _
  by_cases hid : f.header.qos ≠ 0 ∧ ¬f.header.remaining < 7
  · rw [if_pos hid, subtractions, subtractions, List.forall_mem_singleton,
      f.two_le_payloadLen_iff]
    constructor
    · intro h
      exact Or.inr (Or.inr h.2)
    · intro h
      exact ⟨htopic, (h.resolve_left hid.1).resolve_left hid.2⟩
  · rw [if_neg hid, subtractions]
    constructor
    · intro _
      by_cases hqos : f.header.qos = 0
      · exact Or.inl hqos
      · exact Or.inr (Or.inl (not_not.mp fun h => hid ⟨hqos, h⟩))
    · intro _
      exact ⟨htopic, fun p hp => nomatch hp⟩

/-- Behind the header a message with room is what the reader expects. -/
lemma exists_bodyFormat (f : PublishFrame) (h : f.HasRoom) (oldId : UInt16) :
    ∃ m, BodyFormat oldId f.header m (encodeString f.topic ++ f.behind) := by
  by_cases hid : f.header.qos ≠ 0 ∧ ¬f.header.remaining < 7
  · -- the message id is read from the first two bytes behind the topic
    have hroom : 2 ≤ f.behind.length := (h.resolve_left hid.1).resolve_left hid.2
    have hlen : (payloadLen f.header f.topic - 2).toNat = f.behind.length - 2 := by
      have htwo : (2 : UInt64).toNat = 2 := rfl
      rw [UInt64.toNat_sub_of_le _ _ (f.two_le_payloadLen_iff.mpr hroom), toNat_payloadLen, htwo]
    have hle : payloadLen f.header f.topic - 2 ≤ maxSize := by
      have hmax := UInt64.le_iff_toNat_le.mp f.payloadLen_le_maxSize
      rw [toNat_payloadLen] at hmax
      rw [UInt64.le_iff_toNat_le, hlen]
      exact (Nat.sub_le _ _).trans hmax
    cases hbehind : f.behind with
    | nil => simp [hbehind] at hroom
    | cons x rest =>
      cases hrest : rest with
      | nil => simp [hbehind, hrest] at hroom
      | cons y payload =>
        let m : MqttPublish := ⟨f.header, f.topic, payload, (x.toUInt16 <<< 8) + y.toUInt16⟩
        refine ⟨m, rfl, f.length_topic, payloadLen f.header f.topic - 2, [x, y], ?_, hle, ?_, rfl⟩
        · rw [IdFormat, if_pos hid]
          exact ⟨(be16_join x y).symm, rfl⟩
        · rw [hlen, hbehind, hrest]
          rfl
  · let m : MqttPublish := ⟨f.header, f.topic, f.behind, oldId⟩
    refine ⟨m, rfl, f.length_topic, payloadLen f.header f.topic, [], ?_, f.payloadLen_le_maxSize,
      f.toNat_payloadLen.symm, rfl⟩
    rw [IdFormat, if_neg hid]
    exact ⟨rfl, rfl⟩

/-- Two cannot be subtracted from less than two: what comes out is too large for a vector. -/
lemma maxSize_lt_sub_two {x : UInt64} (h : x.toNat < 2) : maxSize < x - 2 := by
  have hmax : maxSize.toNat = 9223372036854775807 := rfl
  have htwo : (2 : UInt64).toNat = 2 := rfl
  rw [UInt64.lt_iff_toNat_lt, UInt64.toNat_sub, hmax, htwo]
  omega

/-- **A message with room is decoded** and ends where its bytes end. -/
theorem cerealise_eq_ok_of_hasRoom (f : PublishFrame) (h : f.HasRoom) (old : MqttPublish)
    (beyond : Bytes) :
    ∃ m d, old.cerealise (Decerealiser.new f.bytes beyond) = .ok (m, d) ∧
      d.pos = f.bytes.length := by
  obtain ⟨m, hbody⟩ := f.exists_bodyFormat h old.msgId
  obtain ⟨d, hread, hpos⟩ := old.cerealise_read_digits f.isDigits hbody beyond
  exact ⟨m, d, hread, hpos⟩

/-- **A message without room is never decoded**, whatever the memory behind it holds: what is read
there as a message id is followed by a payload that is too large for a vector. -/
theorem cerealise_ne_ok_of_not_hasRoom (f : PublishFrame) (h : ¬f.HasRoom) (old : MqttPublish)
    (beyond : Bytes) (p : MqttPublish × Decerealiser) :
    old.cerealise (Decerealiser.new f.bytes beyond) ≠ .ok p := by
  intro hread
  simp only [HasRoom, not_or, Nat.not_le] at h
  obtain ⟨hqos, hseven, hroom⟩ := h
  have hunread : Cursor.unread (Decerealiser.new f.bytes beyond) =
      f.flags :: f.digits ++ (encodeString f.topic ++ (f.behind ++ beyond)) := by
    change f.bytes ++ beyond = _
    rw [bytes, List.append_assoc, List.append_assoc]
  obtain ⟨d, hheader, hrest, -⟩ := old.header.cerealise_read_digits f.isDigits rfl hunread
  rw [MqttPublish.cerealise, StateT.bind_of_eq_ok hheader] at hread
  obtain ⟨input, ⟨-, hlength, len, idPart, hid, hle, -, rfl⟩, hprefix, -⟩ :=
    (old.parses_cerealiseBody f.header d p.1 p.2).mp hread
  have htopic : p.1.topic = f.topic := by
    refine (parses_grainString []).unique ⟨hlength, rfl⟩ ⟨f.length_topic, rfl⟩
      ((List.prefix_append _ _).trans hprefix) ?_
    rw [hrest]
    exact List.prefix_append _ _
  rw [IdFormat, if_pos ⟨hqos, hseven⟩, htopic] at hid
  have hlen : len = payloadLen f.header f.topic - 2 := hid.2
  have hwrap : maxSize < payloadLen f.header f.topic - 2 :=
    maxSize_lt_sub_two (by rwa [toNat_payloadLen])
  rw [← hlen] at hwrap
  exact absurd hle (UInt64.not_le.mpr hwrap)

/-- **Decoding stays inside the message** exactly when there is room. -/
theorem staysInside_iff (f : PublishFrame) : f.StaysInside ↔ f.HasRoom := by
  constructor
  · intro hinside
    by_contra hroom
    obtain ⟨m, d, hread, -⟩ := hinside { header := {} } []
    exact f.cerealise_ne_ok_of_not_hasRoom hroom { header := {} } [] (m, d) hread
  · intro hroom old beyond
    obtain ⟨m, d, hread, hpos⟩ := f.cerealise_eq_ok_of_hasRoom hroom old beyond
    exact ⟨m, d, hread, Nat.le_of_eq hpos⟩

/-- **The payload arithmetic is right, and decoding stays inside the message, exactly when the
message has no qos, is taken by the guard, or has room for a message id behind its topic.** -/
theorem noWrap_and_staysInside_iff (f : PublishFrame) :
    (NoWrap f.header f.topic ↔ f.HasRoom) ∧ (f.StaysInside ↔ f.HasRoom) :=
  ⟨f.noWrap_iff, f.staysInside_iff⟩

/-- A message with qos 1, the topic "abcde" and nothing behind it. -/
def withoutId : PublishFrame where
  flags := 0x32
  digits := [7]
  topic := [97, 98, 99, 100, 101]
  behind := []
  type_eq := by decide
  isDigits := by decide
  length_topic := by decide
  remaining_eq := by decide
  remaining_le := by decide

/-- Two bytes behind it are read as a message id, and then the length of the payload wraps; where
there are none, the memory behind the message is read. -/
theorem noWrap_fails_on_withoutId :
    withoutId.bytes = [0x32, 7, 0, 5, 97, 98, 99, 100, 101] ∧
      ¬NoWrap withoutId.header withoutId.topic ∧ ¬withoutId.StaysInside ∧
      (({ header := {} } : MqttPublish).cerealise
        (Decerealiser.new withoutId.bytes [0, 1])).map Prod.fst = .error .lengthError ∧
      (({ header := {} } : MqttPublish).cerealise
        (Decerealiser.new withoutId.bytes [])).map Prod.fst = .error .badRead := by
  refine ⟨rfl, ?_, ?_, ?_, ?_⟩
  · rw [noWrap_iff]
    decide
  · rw [staysInside_iff]
    decide
  · decide +kernel
  · decide +kernel

end PublishFrame

end MqttCpp
