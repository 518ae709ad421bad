import MqttCpp.Broker.Broker
import MqttCpp.Cereal.Decerealiser

/-!
# The server

`src/server.hpp`.  `newMessage` looks at the type of a message, decodes a SUBSCRIBE or an
UNSUBSCRIBE, calls the broker and answers.  A connection is any type with decidable equality; what
the server does to connections are effects, which it returns in their order.
-/

namespace MqttCpp

/-- `MqttServer`. -/
structure MqttServer (C : Type) where
  broker : MqttBroker C

/-- What the server does to a connection. -/
inductive Effect (C : Type) where
  /-- Call `newMessage` of the connection. -/
  | newMessage (connection : C) (bytes : Bytes)
  /-- Call `disconnect` of the connection. -/
  | disconnect (connection : C)
  deriving DecidableEq, Repr

/-- How `newMessage` decodes a message: create the header, reset the decerealiser and create the
message with the header. -/
def decode {M : Type} (create : MqttFixedHeader → CerealM Decerealiser M) :
    CerealM Decerealiser M := do
  let hdr ← ({} : MqttFixedHeader).cerealise
  modify Decerealiser.reset
  create hdr

/-- `dec.create<MqttSubscribe>(hdr)`. -/
def createSubscribe (hdr : MqttFixedHeader) : CerealM Decerealiser MqttSubscribe :=
  ({ header := hdr } : MqttSubscribe).cerealise

/-- `dec.create<MqttUnsubscribe>(hdr)`. -/
def createUnsubscribe (hdr : MqttFixedHeader) : CerealM Decerealiser MqttUnsubscribe :=
  ({ header := hdr } : MqttUnsubscribe).cerealise

/-- The answer to a CONNECT. -/
def connackOk : Bytes := [32, 2, 0, 0]

/-- The answer to a PINGREQ. -/
def pingResp : Bytes := [0xd0, 0]

/-- The answer to a SUBSCRIBE. -/
def suback (msgId : UInt16) : Bytes :=
  [0x90, 3, (msgId >>> 8).toUInt8, (msgId &&& 0xff).toUInt8, 0]

/-- The answer to an UNSUBSCRIBE. -/
def unsuback (msgId : UInt16) : Bytes :=
  [0xb0, 2, (msgId >>> 8).toUInt8, (msgId &&& 0xff).toUInt8]

namespace MqttServer

variable {C : Type}

/-- The constructor of `MqttServer`. -/
def new (useCache : Bool) : MqttServer C where
  broker := .new useCache

variable [BoostSplit] [DecidableEq C]

/-- `MqttServer::newMessage`.  A decerealiser copies the bytes; `beyond` is what the memory behind
its copy holds. -/
def newMessage (s : MqttServer C) (connection : C) (bytes : Span) (beyond : Bytes) :
    Except Fault (MqttServer C × List (Effect C)) := do
  match ← getMessageType bytes with
  | .connect => return (s, [.newMessage connection connackOk])
  | .pingreq => return (s, [.newMessage connection pingResp])
  | .publish =>
    let topic ← (← getPublishTopic bytes).toString
    let (broker, calls) := s.broker.publish topic bytes.bytes
    return ({ broker }, calls.map fun call => .newMessage call.1 call.2)
  | .subscribe =>
    let (msg, _) ← decode createSubscribe (.new bytes.bytes beyond)
    return ({ broker := s.broker.subscribe connection msg.topics },
      [.newMessage connection (suback msg.msgId)])
  | .unsubscribe =>
    let (msg, _) ← decode createUnsubscribe (.new bytes.bytes beyond)
    return ({ broker := s.broker.unsubscribeTopics connection msg.topics },
      [.newMessage connection (unsuback msg.msgId)])
  | .disconnect =>
    return ({ broker := s.broker.unsubscribe connection }, [.disconnect connection])
  | _ => return (s, []) -- with an error message only

end MqttServer

end MqttCpp
