import MqttCpp.Library.Codec
import MqttCpp.Server.Server
import MqttCpp.Stream.Framing

/-!
# Requests

`newMessage` does two things: it makes out what a message asks for, which can fail but does not
look at the state of the server, and it does it, which cannot fail.  So the server is a machine
that takes requests (`serverMachine`), and the messages of one read are first all made out and
then run on it (`read_serve`).
-/

namespace MqttCpp

/-- What a message asks the server for. -/
inductive Request where
  | connect
  | pingreq
  | publish (topic : Str) (bytes : Bytes)
  | subscribe (msgId : UInt16) (topics : List MqttSubscribe.Topic)
  | unsubscribe (msgId : UInt16) (topics : List Str)
  | disconnect
  | unknown
  deriving DecidableEq, Repr

/-- Make out what a message asks for; `beyond` is what a decerealiser finds behind its copy. -/
def readRequest (msg : Span) (beyond : Bytes) : Except Fault Request := do
  match ← getMessageType msg with
  | .connect => return .connect
  | .pingreq => return .pingreq
  | .publish =>
    let topic ← (← getPublishTopic msg).toString
    return .publish topic msg.bytes
  | .subscribe =>
    let (m, _) ← decode createSubscribe (.new msg.bytes beyond)
    return .subscribe m.msgId m.topics
  | .unsubscribe =>
    let (m, _) ← decode createUnsubscribe (.new msg.bytes beyond)
    return .unsubscribe m.msgId m.topics
  | .disconnect => return .disconnect
  | _ => return .unknown

/-- A SUBSCRIBE asks for what is decoded. -/
lemma readRequest_eq_of_subscribe {msg : Span} (h : getMessageType msg = .ok .subscribe)
    (beyond : Bytes) :
    readRequest msg beyond =
      (decode createSubscribe (.new msg.bytes beyond)).map fun p =>
        .subscribe p.1.msgId p.1.topics := by
  unfold readRequest
  rw [h]
  change (decode createSubscribe _ >>= _) = _
  cases decode createSubscribe (.new msg.bytes beyond) <;> rfl

/-- So does an UNSUBSCRIBE. -/
lemma readRequest_eq_of_unsubscribe {msg : Span} (h : getMessageType msg = .ok .unsubscribe)
    (beyond : Bytes) :
    readRequest msg beyond =
      (decode createUnsubscribe (.new msg.bytes beyond)).map fun p =>
        .unsubscribe p.1.msgId p.1.topics := by
  unfold readRequest
  rw [h]
  change (decode createUnsubscribe _ >>= _) = _
  cases decode createUnsubscribe (.new msg.bytes beyond) <;> rfl

/-- A PUBLISH asks for itself to be passed on. -/
lemma readRequest_eq_of_publish {msg : Span} (h : getMessageType msg = .ok .publish)
    (beyond : Bytes) :
    readRequest msg beyond =
      (getPublishTopic msg >>= CStringSpan.toString).map fun topic => .publish topic msg.bytes := by
  unfold readRequest
  rw [h]
  change (getPublishTopic msg >>= _) = _
  cases getPublishTopic msg with
  | error e => rfl
  | ok t =>
    change (t.toString >>= _) = Except.map _ t.toString
    cases t.toString <;> rfl

/-- What is made out as a request to publish is a PUBLISH. -/
lemma getMessageType_of_readRequest {msg : Span} {beyond : Bytes} {topic : Str} {bytes : Bytes}
    (h : readRequest msg beyond = .ok (.publish topic bytes)) :
    getMessageType msg = .ok .publish := by
  cases htype : getMessageType msg with
  | error e =>
    rw [readRequest, htype] at h
    cases h
  | ok type =>
    cases type with
    | publish => rfl
    | subscribe =>
      rw [readRequest_eq_of_subscribe htype] at h
      cases hdecode : decode createSubscribe (.new msg.bytes beyond) with
      | error e =>
        rw [hdecode] at h
        cases h
      | ok p =>
        rw [hdecode] at h
        cases h
    | unsubscribe =>
      rw [readRequest_eq_of_unsubscribe htype] at h
      cases hdecode : decode createUnsubscribe (.new msg.bytes beyond) with
      | error e =>
        rw [hdecode] at h
        cases h
      | ok p =>
        rw [hdecode] at h
        cases h
    | _ =>
      rw [readRequest, htype] at h
      cases h

/-- A request to publish passes on the message that it was made of. -/
lemma eq_bytes_of_readRequest {msg : Span} {beyond : Bytes} {topic : Str} {bytes : Bytes}
    (h : readRequest msg beyond = .ok (.publish topic bytes)) : bytes = msg.bytes := by
  have htype := getMessageType_of_readRequest h
  rw [readRequest_eq_of_publish htype] at h
  cases htopic : getPublishTopic msg >>= CStringSpan.toString with
  | error e =>
    rw [htopic] at h
    cases h
  | ok name =>
    rw [htopic] at h
    cases h
    rfl

/-- The requests of messages up to the first that cannot be made out, and whether there is one. -/
def readRequests (beyond : Span → Bytes) : List Span → List Request × Except Fault Unit
  | [] => ([], .ok ())
  | msg :: msgs =>
    match readRequest msg (beyond msg) with
    | .ok r => (r :: (readRequests beyond msgs).1, (readRequests beyond msgs).2)
    | .error e => ([], .error e)

/-- The requests are made of the messages. -/
lemma exists_of_mem_readRequests {beyond : Span → Bytes} {msgs : List Span} {r : Request}
    (h : r ∈ (readRequests beyond msgs).1) :
    ∃ msg ∈ msgs, readRequest msg (beyond msg) = .ok r := by
  induction msgs with
  | nil => cases h
  | cons msg msgs ih =>
    unfold readRequests at h
    cases hread : readRequest msg (beyond msg) with
    | error e =>
      rw [hread] at h
      cases h
    | ok r' =>
      rw [hread] at h
      rcases List.mem_cons.mp h with rfl | hrest
      · exact ⟨msg, List.mem_cons_self, hread⟩
      · obtain ⟨msg', hmem, hok⟩ := ih hrest
        exact ⟨msg', List.mem_cons_of_mem msg hmem, hok⟩

/-- A computation that uses the server, and goes on until a fault. -/
abbrev ServeM (C : Type) := ExceptT Fault (StateM (MqttServer C × List (Effect C)))

namespace ServeM

variable {C : Type}

/-- If the first of two computations succeeds, the second goes on from there. -/
lemma bind_of_eq_ok {α β : Type} {m : ServeM C α} {f : α → ServeM C β}
    {p p' : MqttServer C × List (Effect C)} {a : α} (h : m p = (.ok a, p')) :
    (m >>= f) p = f a p' := by
  change ExceptT.bindCont f (m p).1 (m p).2 = _
  rw [h]
  rfl

/-- If the first of two computations fails, the second does nothing. -/
lemma bind_of_eq_error {α β : Type} {m : ServeM C α} {f : α → ServeM C β}
    {p p' : MqttServer C × List (Effect C)} {e : Fault} (h : m p = (.error e, p')) :
    (m >>= f) p = (.error e, p') := by
  change ExceptT.bindCont f (m p).1 (m p).2 = _
  rw [h]
  rfl

end ServeM

/-! ## The server -/

variable {C : Type} [BoostSplit] [DecidableEq C]

/-- Do what a connection asks for. -/
def MqttServer.handle (s : MqttServer C) (connection : C) :
    Request → MqttServer C × List (Effect C)
  | .connect => (s, [.newMessage connection connackOk])
  | .pingreq => (s, [.newMessage connection pingResp])
  | .publish topic bytes =>
    ({ broker := (s.broker.publish topic bytes).1 },
      (s.broker.publish topic bytes).2.map fun call => .newMessage call.1 call.2)
  | .subscribe msgId topics =>
    ({ broker := s.broker.subscribe connection topics },
      [.newMessage connection (suback msgId)])
  | .unsubscribe msgId topics =>
    ({ broker := s.broker.unsubscribeTopics connection topics },
      [.newMessage connection (unsuback msgId)])
  | .disconnect => ({ broker := s.broker.unsubscribe connection }, [.disconnect connection])
  | .unknown => (s, [])

/-- **`newMessage` is to make out a request and to do it.** -/
theorem MqttServer.newMessage_eq (s : MqttServer C) (connection : C) (msg : Span)
    (beyond : Bytes) :
    s.newMessage connection msg beyond =
      (readRequest msg beyond).map (s.handle connection) := by
  unfold newMessage readRequest
  cases getMessageType msg with
  | error e => rfl
  | ok type =>
    cases type with
    | publish =>
      change (getPublishTopic msg >>= _) = Except.map _ (getPublishTopic msg >>= _)
      cases getPublishTopic msg with
      | error e => rfl
      | ok t =>
        change (t.toString >>= _) = Except.map _ (t.toString >>= _)
        cases t.toString <;> rfl
    | subscribe =>
      change (decode createSubscribe _ >>= _) = Except.map _ (decode createSubscribe _ >>= _)
      cases decode createSubscribe (.new msg.bytes beyond) <;> rfl
    | unsubscribe =>
      change (decode createUnsubscribe _ >>= _) = Except.map _ (decode createUnsubscribe _ >>= _)
      cases decode createUnsubscribe (.new msg.bytes beyond) <;> rfl
    | _ => rfl

/-- The server as a machine that takes requests of connections. -/
def serverMachine (C : Type) [DecidableEq C] :
    Machine (MqttServer C) (C × Request) (Effect C) where
  step s i := s.handle i.1 i.2

/-! ## Reads -/

/-- How a stream passes a message of a connection on to the server.  The effects are collected;
those that come before a fault are not undone by it. -/
def serve (connection : C) (beyond : Span → Bytes) (msg : Span) : ServeM C Unit := fun p =>
  match p.1.newMessage connection msg (beyond msg) with
  | .ok (s, effects) => (.ok (), (s, p.2 ++ effects))
  | .error e => (.error e, p)

/-- Passing messages on runs their requests on the server. -/
lemma forM_serve (connection : C) (beyond : Span → Bytes) (msgs : List Span)
    (s : MqttServer C) (effects : List (Effect C)) :
    (forM msgs (serve connection beyond) : ServeM C Unit) (s, effects) =
      let run := (serverMachine C).run s
        ((readRequests beyond msgs).1.map fun r => (connection, r))
      ((readRequests beyond msgs).2, (run.1, effects ++ run.2)) := by
  induction msgs generalizing s effects with
  | nil => exact congrArg (fun es => (Except.ok (), (s, es))) (List.append_nil effects).symm
  | cons msg msgs ih =>
    rw [List.forM_cons, readRequests]
    cases hread : readRequest msg (beyond msg) with
    | error e =>
      have hserve : serve connection beyond msg (s, effects) = (.error e, (s, effects)) := by
        rw [serve, s.newMessage_eq, hread]
        rfl
      rw [ServeM.bind_of_eq_error hserve]
      exact congrArg (fun es => (Except.error e, (s, es))) (List.append_nil effects).symm
    | ok r =>
      have hserve : serve connection beyond msg (s, effects) =
          (.ok (), ((s.handle connection r).1, effects ++ (s.handle connection r).2)) := by
        rw [serve, s.newMessage_eq, hread]
        rfl
      rw [ServeM.bind_of_eq_ok hserve, ih]
      simp only [List.map_cons, Machine.run_cons, List.append_assoc]
      rfl

/-- **What a read does**: the requests of its messages run on the server, and unless there is a
fault the stream goes on. -/
theorem read_serve (connection : C) (beyond : Span → Bytes) (stream : MqttStream)
    (chunk : Bytes) (s : MqttServer C) :
    (stream.read (serve connection beyond) chunk) (s, []) =
      let requests := readRequests beyond (stream.messages chunk)
      let run := (serverMachine C).run s (requests.1.map fun r => (connection, r))
      (requests.2.map fun _ => stream.next chunk, run) := by
  rw [MqttStream.read_eq]
  have hserve := forM_serve connection beyond (stream.messages chunk) s []
  simp only [List.nil_append] at hserve
  cases hrequests : (readRequests beyond (stream.messages chunk)).2 with
  | error e =>
    rw [hrequests] at hserve
    rw [ServeM.bind_of_eq_error hserve]
    simp only [hrequests]
    rfl
  | ok u =>
    rw [hrequests] at hserve
    rw [ServeM.bind_of_eq_ok hserve]
    simp only [hrequests]
    rfl

end MqttCpp
