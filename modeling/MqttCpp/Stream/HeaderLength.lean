import MqttCpp.Message.Header
import MqttCpp.Stream.Framing

/-!
# The stream and the length of a message

The stream takes the second byte of a message for its remaining length, where the fixed header has
a number in digits to the base 128.  The two agree for one digit, which is what the stream assumes
of all messages, and for no other length: the first of several digits has its top bit set, and
the stream announces between 130 and 257 bytes, fewer than there are.
-/

namespace MqttCpp

open MqttFixedHeader

/-- A message on the wire: a fixed header, and as many bytes as its remaining length says. -/
structure WireMessage where
  header : MqttFixedHeader
  body : Bytes
  length_body : body.length = header.remaining.toNat

namespace WireMessage

/-- The bytes of the message, its header as a fresh cerealiser writes it. -/
def bytes (m : WireMessage) : Bytes :=
  ((Cerealiser.encode m.header.cerealise).toOption.getD []) ++ m.body

/-- The bytes are the byte of flags, the digits of the remaining length, and the body. -/
lemma bytes_eq (m : WireMessage) :
    m.bytes = m.header.flagByte :: remainingDigits m.header.remaining ++ m.body := by
  rw [bytes, encode_cerealise]
  rfl

/-- What the stream announces for a header, whatever follows it. -/
lemma announcedLength_header (h : MqttFixedHeader) (rest : Bytes) :
    MqttStream.announcedLength (h.flagByte :: remainingDigits h.remaining ++ rest) =
      if h.remaining.toNat < 128 then h.remaining.toNat + 2
      else 128 + h.remaining.toNat % 128 + 2 := by
  by_cases hsmall : h.remaining.toNat < 128
  · rw [remainingDigits_of_lt hsmall, if_pos hsmall]
    change (UInt8.ofNat h.remaining.toNat).toNat + 2 = _
    rw [UInt8.toNat_ofNat_of_lt' (Nat.lt_trans hsmall (by decide))]
  · have hdigit := digit_facts (Nat.mod_lt h.remaining.toNat (by decide : 0 < 128))
    rw [remainingDigits_of_le (Nat.not_lt.mp hsmall), if_neg hsmall]
    change (UInt8.ofNat (h.remaining.toNat % 128) ||| 0x80).toNat + 2 = _
    rw [hdigit.2.2.2.2]

/-- **The announced length is the length of the header and the remaining length exactly when the
remaining length is at most 127.** -/
theorem announcedLength_header_eq_iff (h : MqttFixedHeader) (rest : Bytes) :
    MqttStream.announcedLength (h.flagByte :: remainingDigits h.remaining ++ rest) =
        (h.flagByte :: remainingDigits h.remaining).length + h.remaining.toNat ↔
      h.remaining ≤ 127 := by
  have hle : h.remaining ≤ 127 ↔ h.remaining.toNat < 128 :=
    UInt32.le_iff_toNat_le.trans Nat.lt_succ_iff.symm
  rw [announcedLength_header, hle, List.length_cons]
  by_cases hsmall : h.remaining.toNat < 128
  · rw [if_pos hsmall, remainingDigits_of_lt hsmall, List.length_singleton]
    omega
  · have hmore := length_remainingDigits_pos (h.remaining / 128)
    rw [if_neg hsmall, remainingDigits_of_le (Nat.not_lt.mp hsmall), List.length_cons]
    omega

/-- What a message announces does not depend on what follows it. -/
lemma announcedLength_bytes_append (m : WireMessage) (rest : Bytes) :
    MqttStream.announcedLength (m.bytes ++ rest) = MqttStream.announcedLength m.bytes := by
  rw [bytes_eq, List.append_assoc, announcedLength_header, announcedLength_header]

/-- A message is a frame of the stream exactly when its remaining length is at most 127. -/
lemma isFrame_bytes_iff (m : WireMessage) :
    MqttStream.messageFramer.IsFrame m.bytes ↔ m.header.remaining ≤ 127 := by
  have hlen : m.bytes.length =
      (m.header.flagByte :: remainingDigits m.header.remaining).length +
        m.header.remaining.toNat := by
    rw [bytes_eq, List.length_append, m.length_body]
  rw [← announcedLength_header_eq_iff m.header m.body, ← bytes_eq, ← hlen]
  constructor
  · exact fun h => h.frameLength_eq
  · exact fun h => Framer.isFrame_of_frameLength_eq h

/-- **The stream and the fixed header agree on the boundaries of messages up to a remaining length
of 127, and beyond that they never do.**  Any sequence of messages, however it is cut into reads,
is passed on as it is exactly when all their remaining lengths are at most 127; and the announced
length of a buffer that starts with a complete header is that of the header and the remaining
length exactly when that holds of this one. -/
theorem readAll_messages_iff (size : ℕ) (ms : List WireMessage) (chunks : List Bytes)
    (hcut : chunks.flatten = (ms.map bytes).flatten)
    (hfits : (MqttStream.new size).Fits chunks) :
    ((MqttStream.readAll MqttStream.record (MqttStream.new size) chunks []).2 = ms.map bytes ↔
        ∀ m ∈ ms, m.header.remaining ≤ 127) ∧
      ∀ (h : MqttFixedHeader) (encoded rest : Bytes),
        Cerealiser.encode h.cerealise = .ok encoded →
        (MqttStream.totalLength (Span.ofBytes (encoded ++ rest)) =
            encoded.length + h.remaining.toNat ↔ h.remaining ≤ 127) := by
  refine ⟨?_, ?_⟩
  · have hrun := congrArg Prod.fst (MqttStream.readAll_record hfits)
    rw [hcut] at hrun
    have hframes : (∀ f ∈ ms.map bytes, MqttStream.messageFramer.IsFrame f) ↔
        ∀ m ∈ ms, m.header.remaining ≤ 127 := by
      rw [List.forall_mem_map]
      exact forall₂_congr fun m _ => m.isFrame_bytes_iff
    rw [← hframes, ← Framer.cut_flatten_eq_iff]
    · exact Eq.congr_left hrun
    · intro f hf rest
      obtain ⟨m, -, rfl⟩ := List.mem_map.mp hf
      exact m.announcedLength_bytes_append rest
  · intro h encoded rest hencoded
    rw [encode_cerealise] at hencoded
    obtain rfl := Except.ok.inj hencoded
    rw [MqttStream.totalLength_eq, Span.bytes_ofBytes]
    exact announcedLength_header_eq_iff h rest

/-- A PUBLISH with 128 bytes behind its header. -/
def longMessage : WireMessage where
  header := { type := .publish, remaining := 128 }
  body := List.replicate 128 0
  length_body := List.length_replicate

/-- It is not passed on as it is: the stream cuts it off one byte too early. -/
theorem readAll_longMessage :
    ∃ (ms : List WireMessage) (chunks : List Bytes),
      (∀ m ∈ ms, m.header.remaining ≤ 268435455) ∧
      chunks.flatten = (ms.map bytes).flatten ∧ (MqttStream.new 200).Fits chunks ∧
      (MqttStream.readAll MqttStream.record (MqttStream.new 200) chunks []).2 ≠ ms.map bytes :=
  ⟨[longMessage], [longMessage.bytes], by decide, rfl, by decide +kernel, by decide +kernel⟩

/-- Two messages of different lengths that arrive in three reads. -/
theorem readAll_messages_iff_two_messages :
    let ms : List WireMessage :=
      [{ header := { type := .pingreq, remaining := 0 }, body := [], length_body := rfl },
        { header := { type := .publish, remaining := 5 }, body := [0, 2, 97, 98, 99],
          length_body := rfl }]
    (MqttStream.readAll MqttStream.record (MqttStream.new 16)
      [[0xc0], [0, 0x30, 5, 0, 2], [97, 98, 99]] []).2 = ms.map bytes :=
  (readAll_messages_iff 16 _ [[0xc0], [0, 0x30, 5, 0, 2], [97, 98, 99]] (by decide +kernel)
    (by decide +kernel)).1.mpr (by decide)

end WireMessage

end MqttCpp
