import MqttCpp.Cereal.Cereal

/-!
# MQTT messages

`src/message.hpp` and `src/message.cpp`: the fixed header, the messages the server reads and
writes, and the two functions that look at the bytes of a message without decoding it.

Every `cerealise` is written once and serves both directions, as in the source: it takes the
message and returns the message that is left in its place, which differs when the cereal reads.
-/

namespace MqttCpp

/-- `MqttType`. -/
inductive MqttType where
  | reserved1
  | connect
  | connack
  | publish
  | puback
  | pubrec
  | pubrel
  | pubcomp
  | subscribe
  | suback
  | unsubscribe
  | unsuback
  | pingreq
  | pingresp
  | disconnect
  | reserved2
  deriving DecidableEq, Repr

namespace MqttType

/-- The number of a message type. -/
def code : MqttType → ℕ
  | reserved1 => 0
  | connect => 1
  | connack => 2
  | publish => 3
  | puback => 4
  | pubrec => 5
  | pubrel => 6
  | pubcomp => 7
  | subscribe => 8
  | suback => 9
  | unsubscribe => 10
  | unsuback => 11
  | pingreq => 12
  | pingresp => 13
  | disconnect => 14
  | reserved2 => 15

/-- The message type of a number; only numbers of four bits are ever asked for. -/
def ofCode : ℕ → MqttType
  | 0 => reserved1
  | 1 => connect
  | 2 => connack
  | 3 => publish
  | 4 => puback
  | 5 => pubrec
  | 6 => pubrel
  | 7 => pubcomp
  | 8 => subscribe
  | 9 => suback
  | 10 => unsubscribe
  | 11 => unsuback
  | 12 => pingreq
  | 13 => pingresp
  | 14 => disconnect
  | _ => reserved2

lemma code_lt (t : MqttType) : t.code < 16 := by cases t <;> decide

@[simp] lemma ofCode_code (t : MqttType) : ofCode t.code = t := by cases t <;> rfl

end MqttType

instance : BitField MqttType where
  toUInt32 t := UInt32.ofNat t.code
  ofUInt32 v := MqttType.ofCode v.toNat

open Cereal

variable {C : Type} [Cereal C]

/-! ## The fixed header -/

/-- `MqttFixedHeader`. -/
structure MqttFixedHeader where
  type : MqttType := .reserved1
  dup : Bool := false
  qos : UInt8 := 0
  retain : Bool := false
  remaining : UInt32 := 0
  deriving DecidableEq, Repr

namespace MqttFixedHeader

/-- `MqttFixedHeader::SIZE`. -/
def SIZE : ℕ := 2

/-- The product of two numbers of type `int`, where it is one: where it is not, anything may
happen. -/
abbrev IntMul := Int32 → Int32 → Except Fault Int32

/-- In two's complement, as the processor multiplies. -/
def wrapping : IntMul := fun a b => .ok (a * b)

/-- As the language has it: a product that is no `int` is a fault. -/
def checked : IntMul := fun a b =>
  if Int32.minValue.toInt ≤ a.toInt * b.toInt ∧ a.toInt * b.toInt ≤ Int32.maxValue.toInt then
    .ok (a * b)
  else .error .overflow

/-- The loop of `getRemainingSize`. -/
def getRemainingSizeLoop (mul : IntMul) : ℕ → Int32 → UInt32 → CerealM C UInt32
  | 0, _, _ => throw .diverged
  | fuel + 1, multiplier, value => do
    let digit ← grainUInt8 0
    let product ← mul (Int32.ofNat (digit &&& 127).toNat) multiplier
    let value := value + product.toUInt32
    let multiplier ← mul multiplier 128
    if digit &&& 128 ≠ 0 then getRemainingSizeLoop mul fuel multiplier value
    else return value

/-- `MqttFixedHeader::getRemainingSize`, with a way to multiply.  Every round reads a byte, so there
is at most one round more than there are bytes to read. -/
def getRemainingSizeWith (mul : IntMul) : CerealM C UInt32 := do
  getRemainingSizeLoop mul (readable (← get) + 1) 1 0

/-- `MqttFixedHeader::getRemainingSize`, as the processor runs it. -/
def getRemainingSize : CerealM C UInt32 := getRemainingSizeWith wrapping

/-- The digits that `setRemainingSize` collects before it writes them. -/
def remainingDigits (x : UInt32) : List UInt8 :=
  let digit := (x % 128).toUInt8
  if x / 128 > 0 then (digit ||| 0x80) :: remainingDigits (x / 128) else [digit]
termination_by x.toNat
decreasing_by
  rename_i h
  have hpos : 0 < (x / 128).toNat := h
  have h128 : (128 : UInt32).toNat = 128 := rfl
  rw [UInt32.toNat_div, h128] at hpos ⊢
  omega

/-- `MqttFixedHeader::setRemainingSize`. -/
def setRemainingSize (h : MqttFixedHeader) : CerealM C Unit := do
  let _ ← (remainingDigits h.remaining).mapM grainUInt8
  return ()

/-- `MqttFixedHeader::cerealise`, with a way to multiply. -/
def cerealiseWith (mul : IntMul) (h : MqttFixedHeader) : CerealM C MqttFixedHeader := do
  let type ← grainBits h.type 4
  let dup ← grainBits h.dup 1
  let qos ← grainBits h.qos 2
  let retain ← grainBits h.retain 1
  match getType C with
  | .write =>
    setRemainingSize h
    return { type, dup, qos, retain, remaining := h.remaining }
  | .read =>
    let remaining ← getRemainingSizeWith mul
    return { type, dup, qos, retain, remaining }

/-- `MqttFixedHeader::cerealise`, as the processor runs it. -/
def cerealise (h : MqttFixedHeader) : CerealM C MqttFixedHeader := h.cerealiseWith wrapping

end MqttFixedHeader

/-! ## CONNECT and CONNACK -/

/-- `MqttConnect`. -/
structure MqttConnect where
  header : MqttFixedHeader
  protoName : Str := []
  protoVersion : UInt8 := 0
  hasUserName : Bool := false
  hasPassword : Bool := false
  hasWillRetain : Bool := false
  willQos : UInt8 := 0
  hasWill : Bool := false
  hasClear : Bool := false
  reserved : Bool := false
  keepAlive : UInt16 := 0
  clientId : Str := []
  willTopic : Str := []
  willMessage : Str := []
  userName : Str := []
  password : Str := []
  deriving DecidableEq, Repr

namespace MqttConnect

/-- The constructor of `MqttConnect`.  It leaves the members that are not strings as they are in
memory, which holds `uninit`. -/
def new (h : MqttFixedHeader) (uninit : MqttConnect) : MqttConnect :=
  { uninit with
    header := h, protoName := [], clientId := [], willTopic := [], willMessage := [],
    userName := [], password := [] }

/-- The byte of flags in `cerealise`. -/
def cerealiseFlags (m : MqttConnect) : CerealM C MqttConnect := do
  let hasUserName ← grainBits m.hasUserName 1
  let hasPassword ← grainBits m.hasPassword 1
  let hasWillRetain ← grainBits m.hasWillRetain 1
  let willQos ← grainBits m.willQos 2
  let hasWill ← grainBits m.hasWill 1
  let hasClear ← grainBits m.hasClear 1
  let reserved ← grainBits m.reserved 1
  return { m with hasUserName, hasPassword, hasWillRetain, willQos, hasWill, hasClear, reserved }

/-- `if(flag) cereal.grain(val)`, for the strings in `cerealise` that are there only with a flag. -/
def grainIf (flag : Bool) (val : Str) : CerealM C Str := if flag then grainString val else pure val

/-- What is behind the byte of flags in `cerealise`. -/
def cerealiseRest (m : MqttConnect) : CerealM C MqttConnect := do
  let keepAlive ← grainUInt16 m.keepAlive
  let clientId ← grainString m.clientId
  let willTopic ← grainIf m.hasWill m.willTopic
  let willMessage ← grainIf m.hasWill m.willMessage
  let userName ← grainIf m.hasUserName m.userName
  let password ← grainIf m.hasPassword m.password
  return { m with keepAlive, clientId, willTopic, willMessage, userName, password }

/-- `MqttConnect::cerealise`. -/
def cerealise (m : MqttConnect) : CerealM C MqttConnect := do
  let header ← m.header.cerealise
  let protoName ← grainString m.protoName
  let protoVersion ← grainUInt8 m.protoVersion
  let m ← cerealiseFlags { m with header, protoName, protoVersion }
  m.cerealiseRest

end MqttConnect

/-- `MqttConnack`; `code` is the number of its `Code`, which can be any `int`. -/
structure MqttConnack where
  header : MqttFixedHeader
  reserved : UInt8
  code : UInt32
  deriving DecidableEq, Repr

namespace MqttConnack

/-- The default constructor of `MqttConnack`, with `Code::ACCEPTED`. -/
def new : MqttConnack where
  header := { type := .connack, dup := false, qos := 0, retain := false, remaining := 2 }
  reserved := 0
  code := 0

/-- The constructor of `MqttConnack` that takes a code. -/
def ofCode (c : UInt32) : MqttConnack := { new with code := c }

/-- `MqttConnack::cerealise`.  Only the least significant byte of the code is grained. -/
def cerealise (m : MqttConnack) : CerealM C MqttConnack := do
  let header ← m.header.cerealise
  let reserved ← grainUInt8 m.reserved
  let low ← grainUInt8 m.code.toUInt8
  return { header, reserved, code := (m.code &&& 0xffffff00) ||| low.toUInt32 }

end MqttConnack

/-! ## PUBLISH -/

/-- `MqttPublish`. -/
structure MqttPublish where
  header : MqttFixedHeader
  topic : Str := []
  payload : Bytes := []
  msgId : UInt16 := 0
  deriving DecidableEq, Repr

/-- `std::vector<ubyte>::max_size`. -/
def maxSize : UInt64 := 0x7fffffffffffffff

namespace MqttPublish

/-- The remaining length that the constructor puts into the header. -/
def remainingLength (qos : UInt8) (topic : Str) (payload : Bytes) : ℕ :=
  let topicLen := topic.length + 2 -- 2 for length
  (if qos ≠ 0 then topicLen + 2 /- msgId -/ else topicLen) + payload.length

/-- The constructor of `MqttPublish` that takes everything. -/
def new (dup : Bool) (qos : UInt8) (retain : Bool) (topic : Str) (payload : Bytes)
    (msgId : UInt16) : MqttPublish where
  header :=
    { type := .publish, dup, qos, retain,
      remaining := UInt32.ofNat (remainingLength qos topic payload) }
  topic := topic
  payload := payload
  msgId := msgId

/-- The message id in `cerealise`, and the length of the payload behind it.  A PUBLISH with a qos
that is too short for a message id is read without one, with an error message only. -/
def grainMsgId (m : MqttPublish) (header : MqttFixedHeader) (payloadLen : UInt64) :
    CerealM C (UInt16 × UInt64) :=
  if header.qos ≠ 0 then
    if header.remaining < 7 ∧ getType C = .read then return (m.msgId, payloadLen)
    else do
      let msgId ← grainUInt16 m.msgId
      return (msgId, payloadLen - 2)
  else return (m.msgId, payloadLen)

/-- `payload.resize(payloadLen)` in `cerealise`, when the cereal reads. -/
def resizePayload (payload : Bytes) (payloadLen : UInt64) : CerealM C Bytes :=
  if getType C = .read then
    if payloadLen > maxSize then throw .lengthError
    else return resize payloadLen.toNat 0 payload
  else return payload

/-- `MqttPublish::cerealise` behind its first line, which grains the header. -/
def cerealiseBody (m : MqttPublish) (header : MqttFixedHeader) : CerealM C MqttPublish := do
  let topic ← grainString m.topic
  let payloadLen := header.remaining.toUInt64 -
    (UInt64.ofNat topic.length + UInt64.ofNat MqttFixedHeader.SIZE)
  let p ← m.grainMsgId header payloadLen
  let payload ← resizePayload m.payload p.2
  let payload ← payload.mapM grainUInt8
  return { header, topic, payload, msgId := p.1 }

/-- `MqttPublish::cerealise`. -/
def cerealise (m : MqttPublish) : CerealM C MqttPublish := do
  let header ← m.header.cerealise
  m.cerealiseBody header

end MqttPublish

/-! ## SUBSCRIBE and UNSUBSCRIBE -/

/-- `MqttSubscribe::Topic`. -/
structure MqttSubscribe.Topic where
  topic : Str := []
  qos : UInt8 := 0
  deriving DecidableEq, Repr

/-- `MqttSubscribe::Topic::cerealise`. -/
def MqttSubscribe.Topic.cerealise (t : MqttSubscribe.Topic) :
    CerealM C MqttSubscribe.Topic := do
  let topic ← grainString t.topic
  let qos ← grainUInt8 t.qos
  return { topic, qos }

/-- `MqttSubscribe`. -/
structure MqttSubscribe where
  header : MqttFixedHeader
  msgId : UInt16 := 0
  topics : List MqttSubscribe.Topic := []
  deriving DecidableEq, Repr

/-- `MqttSubscribe::cerealise`. -/
def MqttSubscribe.cerealise (m : MqttSubscribe) : CerealM C MqttSubscribe := do
  let header ← m.header.cerealise
  let msgId ← grainUInt16 m.msgId
  let topics ← grainRawArray MqttSubscribe.Topic.cerealise {} m.topics
  return { header, msgId, topics }

/-- `MqttUnsubscribe`. -/
structure MqttUnsubscribe where
  header : MqttFixedHeader
  msgId : UInt16 := 0
  topics : List Str := []
  deriving DecidableEq, Repr

/-- `MqttUnsubscribe::cerealise`. -/
def MqttUnsubscribe.cerealise (m : MqttUnsubscribe) : CerealM C MqttUnsubscribe := do
  let header ← m.header.cerealise
  let msgId ← grainUInt16 m.msgId
  let topics ← grainRawArray grainString [] m.topics
  return { header, msgId, topics }

/-! ## SUBACK and UNSUBACK -/

/-- `MqttSuback`. -/
structure MqttSuback where
  header : MqttFixedHeader
  msgId : UInt16
  qos : List UInt8
  deriving DecidableEq, Repr

namespace MqttSuback

/-- The constructor of `MqttSuback` that takes a header.  It leaves the message id as it is in
memory. -/
def ofHeader (h : MqttFixedHeader) (uninit : UInt16) : MqttSuback where
  header := h
  msgId := uninit
  qos := []

/-- The constructor of `MqttSuback` that takes a message id and the list. -/
def new (m : UInt16) (q : List UInt8) : MqttSuback where
  header :=
    { type := .suback, dup := false, qos := 0, retain := false,
      remaining := UInt32.ofNat (q.length + 2) }
  msgId := m
  qos := q

/-- `MqttSuback::cerealise`. -/
def cerealise (m : MqttSuback) : CerealM C MqttSuback := do
  let header ← m.header.cerealise
  let msgId ← grainUInt16 m.msgId
  let qos ← grainRawArray grainUInt8 0 m.qos
  return { header, msgId, qos }

end MqttSuback

/-- `MqttUnsuback`. -/
structure MqttUnsuback where
  header : MqttFixedHeader
  msgId : UInt16 := 0
  deriving DecidableEq, Repr

namespace MqttUnsuback

/-- The constructor of `MqttUnsuback` that takes a message id. -/
def new (m : UInt16) : MqttUnsuback where
  header := { type := .unsuback, dup := false, qos := 0, retain := false, remaining := 2 }
  msgId := m

/-- `MqttUnsuback::cerealise`. -/
def cerealise (m : MqttUnsuback) : CerealM C MqttUnsuback := do
  let header ← m.header.cerealise
  let msgId ← grainUInt16 m.msgId
  return { header, msgId }

end MqttUnsuback

/-! ## Looking at the bytes -/

/-- `getMessageType`. -/
def getMessageType (bytes : Span) : Except Fault MqttType := do
  let b ← bytes.get 0
  return MqttType.ofCode (b >>> 4).toNat

/-- `getPublishTopic`. -/
def getPublishTopic (bytes : Span) : Except Fault CStringSpan := do
  if bytes.size < 4 then
    -- with an error message only
    return { mem := [], size := 0 }
  let topicLen := ((← bytes.get 2).toNat <<< 8) + (← bytes.get 3).toNat
  let _ ← bytes.get 4 -- the address of this byte is taken
  return { mem := bytes.mem.drop 4, size := topicLen }

end MqttCpp
