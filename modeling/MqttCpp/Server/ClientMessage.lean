import MqttCpp.Broker.FlatSpec
import MqttCpp.Server.Decoding
import MqttCpp.Stream.HeaderLength

/-!
# The messages of a well-behaved client

The messages that a client may send, with remaining lengths of one digit.  Their bytes are a fixed
header, as a cerealiser writes it, and a body.  Every such message is a frame of the stream, and
the server makes out the request that was meant, wherever the message stands in memory and
whatever is behind it.
-/

namespace MqttCpp

/-- What a client asks for. -/
inductive Packet where
  /-- A CONNECT; the server does not look at its body. -/
  | connect (body : Bytes)
  | pingreq
  | subscribe (msgId : UInt16) (topics : List MqttSubscribe.Topic)
  | unsubscribe (msgId : UInt16) (topics : List Str)
  /-- A PUBLISH; behind the topic are a message id, if there is a qos, and the payload. -/
  | publish (topic : Str) (behind : Bytes)
  | disconnect

namespace Packet

/-- The type in the header. -/
def type : Packet → MqttType
  | connect _ => .connect
  | pingreq => .pingreq
  | subscribe _ _ => .subscribe
  | unsubscribe _ _ => .unsubscribe
  | publish _ _ => .publish
  | disconnect => .disconnect

/-- The bytes behind the header. -/
def body : Packet → Bytes
  | connect body => body
  | pingreq => []
  | subscribe msgId topics => be16 msgId ++ topics.flatMap MqttSubscribe.Topic.encode
  | unsubscribe msgId topics => be16 msgId ++ topics.flatMap encodeString
  | publish topic behind => encodeString topic ++ behind
  | disconnect => []

/-- A SUBSCRIBE and an UNSUBSCRIBE have at least one filter, and in a filter `#` is at most the
last level; a PUBLISH has a topic, without wildcard levels. -/
def WellFormed [BoostSplit] : Packet → Prop
  | subscribe _ topics =>
    topics ≠ [] ∧ ∀ t ∈ topics, wildcards.HashLast (split t.topic)
  | unsubscribe _ topics => topics ≠ [] ∧ ∀ t ∈ topics, wildcards.HashLast (split t)
  | publish topic _ => topic ≠ [] ∧ wildcards.Plain (split topic)
  | _ => True

end Packet

/-- A well-formed message with a remaining length of at most 127. -/
structure ClientMessage [BoostSplit] where
  packet : Packet
  dup : Bool := false
  qos : UInt8 := 0
  retain : Bool := false
  qos_le : qos ≤ 3 := by decide
  length_body_le : packet.body.length ≤ 127
  wellFormed : packet.WellFormed

namespace ClientMessage

/-- A part of a body is no longer than the body. -/
lemma length_le_of_mem {α : Type} (encode : α → Bytes) {ts : List α} {t : α} (h : t ∈ ts) :
    (encode t).length ≤ (ts.flatMap encode).length := by
  rw [List.flatMap_def]
  exact (List.sublist_flatten_of_mem (List.mem_map_of_mem h)).length_le

variable [BoostSplit]

/-- The header of the message. -/
def header (m : ClientMessage) : MqttFixedHeader where
  type := m.packet.type
  dup := m.dup
  qos := m.qos
  retain := m.retain
  remaining := UInt32.ofNat m.packet.body.length

/-- The remaining length is the length of the body. -/
lemma toNat_remaining (m : ClientMessage) :
    m.header.remaining.toNat = m.packet.body.length :=
  UInt32.toNat_ofNat_of_lt' (Nat.lt_of_le_of_lt m.length_body_le (by decide))

/-- The message on the wire. -/
def wire (m : ClientMessage) : WireMessage where
  header := m.header
  body := m.packet.body
  length_body := m.toNat_remaining.symm

/-- The bytes of the message. -/
def bytes (m : ClientMessage) : Bytes := m.wire.bytes

/-- The bytes are a byte of flags, the length of the body, and the body. -/
lemma bytes_eq (m : ClientMessage) :
    m.bytes = m.header.flagByte :: [UInt8.ofNat m.packet.body.length] ++ m.packet.body := by
  have hlt : m.header.remaining.toNat < 128 := by
    rw [m.toNat_remaining]
    exact Nat.lt_succ_of_le m.length_body_le
  rw [bytes, WireMessage.bytes_eq]
  change m.header.flagByte :: MqttFixedHeader.remainingDigits m.header.remaining ++ _ = _
  rw [MqttFixedHeader.remainingDigits_of_lt hlt, m.toNat_remaining]
  rfl

/-- The message is a frame of the stream. -/
lemma isFrame_bytes (m : ClientMessage) : MqttStream.messageFramer.IsFrame m.bytes := by
  have hle : m.header.remaining ≤ 127 := by
    rw [UInt32.le_iff_toNat_le, m.toNat_remaining]
    exact m.length_body_le
  exact m.wire.isFrame_bytes_iff.mpr hle

/-- The length is one digit. -/
lemma isDigits_length (m : ClientMessage) :
    MqttFixedHeader.IsDigits [UInt8.ofNat m.packet.body.length] := by
  have hdigit := MqttFixedHeader.digit_facts (Nat.lt_succ_of_le m.length_body_le)
  rw [MqttFixedHeader.IsDigits, if_neg (not_not_intro hdigit.2.2.1)]

/-- The type of the message is read back from its first byte. -/
lemma ofCode_flagByte (m : ClientMessage) :
    MqttType.ofCode (m.header.flagByte >>> 4).toNat = m.packet.type :=
  MqttFixedHeader.ofCode_flagByte m.qos_le

/-- What the message asks the server for. -/
def request (m : ClientMessage) : Request :=
  match m.packet with
  | .connect _ => .connect
  | .pingreq => .pingreq
  | .subscribe msgId topics => .subscribe msgId topics
  | .unsubscribe msgId topics => .unsubscribe msgId topics
  | .publish topic _ => .publish topic m.bytes
  | .disconnect => .disconnect

/-- The topic of a PUBLISH is read. -/
lemma topicReadAs (m : ClientMessage) {topic : Str} {behind : Bytes}
    (hpacket : m.packet = .publish topic behind) {msg : Span} (hmsg : msg.bytes = m.bytes) :
    TopicReadAs msg topic := by
  have hwf := m.wellFormed
  have hbytes : msg.bytes = _ := hmsg.trans m.wire.bytes_eq
  have hbody : m.wire.body = encodeString topic ++ behind := by
    change m.packet.body = _
    rw [hpacket]
    rfl
  have hle := m.length_body_le
  have hone : m.wire.header.remaining.toNat < 128 := by
    change m.header.remaining.toNat < 128
    rw [m.toNat_remaining]
    exact Nat.lt_succ_of_le hle
  rw [hpacket] at hwf hle
  rw [Packet.body, List.length_append, length_encodeString] at hle
  rw [hbody] at hbytes
  exact topicReadAs_of_one_digit hbytes hwf.1 (by omega) hone

/-- **The server makes out what the message asks for.** -/
theorem readRequest_eq (m : ClientMessage) {msg : Span} (hmsg : msg.bytes = m.bytes)
    (beyond : Bytes) : readRequest msg beyond = .ok m.request := by
  have htype := m.ofCode_flagByte
  have hdigits := m.isDigits_length
  have hle := m.length_body_le
  have hbytes := hmsg
  rw [bytes_eq] at hbytes
  have hsize : msg.bytes.length < 2 ^ 31 := by
    rw [hbytes, List.length_append, List.length_cons, List.length_singleton]
    omega
  have hget := getMessageType_eq hbytes
  rw [htype] at hget
  cases hpacket : m.packet with
  | subscribe msgId topics =>
    rw [hpacket] at htype hdigits hbytes hle
    rw [Packet.body, List.length_append] at hle
    rw [request, hpacket]
    refine readRequest_of_subscribe htype hdigits msgId (fun t ht => ?_) hsize hbytes beyond
    have htopic := length_le_of_mem MqttSubscribe.Topic.encode ht
    rw [MqttSubscribe.Topic.encode, List.length_append, length_encodeString] at htopic
    omega
  | unsubscribe msgId topics =>
    rw [hpacket] at htype hdigits hbytes hle
    rw [Packet.body, List.length_append] at hle
    rw [request, hpacket]
    refine readRequest_of_unsubscribe htype hdigits msgId (fun t ht => ?_) hsize hbytes beyond
    have htopic := length_le_of_mem encodeString ht
    rw [length_encodeString] at htopic
    omega
  | publish topic behind =>
    obtain ⟨t, ht, htopic⟩ := m.topicReadAs hpacket hmsg
    rw [hpacket] at hget
    have hname : (getPublishTopic msg >>= CStringSpan.toString) = .ok topic := by
      rw [ht]
      exact htopic
    rw [readRequest_eq_of_publish hget, hname, request, hpacket, hmsg]
    rfl
  | _ =>
    -- the body is not looked at
    rw [hpacket] at hget
    rw [readRequest, hget, request, hpacket]
    rfl

end ClientMessage

end MqttCpp
