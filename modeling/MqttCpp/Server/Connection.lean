import MqttCpp.Server.Requests
import Mathlib.Data.Finset.Basic

/-!
# Connections and their manager

`src/boost/connection.cpp`, `src/boost/connection_manager.cpp` and
`src/boost/mqtt_tcp_server.cpp`.  The server accepts connections, and each connection reads from
its socket for as long as it can; the events are the handlers that the io service runs, one after
another, and a signal to stop.

A pointer to a connection is the number of the connection, in the order in which they were made.
The manager owns the connections; whoever else holds a pointer has to rely on it.  Where
`newMessage` of a connection is called is what counts here, not what the socket does with it.
-/

namespace MqttCpp

/-! ## Connections -/

/-- `Connection`. -/
structure Connection where
  /-- `_stream`. -/
  stream : MqttStream
  /-- `_connected`. -/
  connected : Bool := true
  /-- Whether `_socket` is open. -/
  isOpen : Bool := true
  /-- Whether a read has been started of which the handler has not run yet. -/
  reading : Bool := false
  /-- Whether the socket was open when the last read was started. -/
  awaits : Bool := false

namespace Connection

/-- The constructor of `Connection`. -/
def new (numStreamBytes : ℕ) : Connection where
  stream := .new numStreamBytes

/-- `Connection::stop`. -/
def stop (k : Connection) : Connection := { k with isOpen := false }

/-- `Connection::doRead`, which starts a read. -/
def doRead (k : Connection) : Connection :=
  if k.connected then { k with reading := true, awaits := k.isOpen } else k

/-- Starting a read leaves the stream as it is. -/
@[simp] lemma stream_doRead (k : Connection) : k.doRead.stream = k.stream := by
  unfold doRead
  split <;> rfl

/-- It opens and closes nothing. -/
@[simp] lemma isOpen_doRead (k : Connection) : k.doRead.isOpen = k.isOpen := by
  unfold doRead
  split <;> rfl

/-- It disconnects nobody. -/
@[simp] lemma connected_doRead (k : Connection) : k.doRead.connected = k.connected := by
  unfold doRead
  split <;> rfl

/-- `Connection::start`. -/
def start (k : Connection) : Connection := k.doRead

/-- `Connection::disconnect`. -/
def disconnect (k : Connection) : Connection := { k with connected := false }.stop

/-- The handler of a read has run. -/
def finishRead (k : Connection) : Connection := { k with reading := false }

/-- Bytes can arrive: a read has been started on an open socket.  When the socket is closed before
the handler runs, the read may have got its bytes already; one that is started on a closed socket
gets none. -/
def Live (k : Connection) : Prop := k.reading = true ∧ k.awaits = true

instance (k : Connection) : Decidable k.Live :=
  inferInstanceAs (Decidable (k.reading = true ∧ k.awaits = true))

/-- Closing the socket takes nothing from a read that is under way. -/
@[simp] lemma live_stop_iff (k : Connection) : k.stop.Live ↔ k.Live := Iff.rfl

/-- Neither does disconnecting. -/
@[simp] lemma live_disconnect_iff (k : Connection) : k.disconnect.Live ↔ k.Live := Iff.rfl

/-- Nothing arrives when the handler has run, until the next read is started. -/
lemma not_live_finishRead (k : Connection) : ¬k.finishRead.Live := fun h => by cases h.1

/-- A read that is started can get bytes if the connection is connected and its socket open. -/
lemma live_doRead_iff {k : Connection} (h : k.reading = false) :
    k.doRead.Live ↔ k.connected = true ∧ k.isOpen = true := by
  unfold doRead Live
  cases k.connected with
  | true => simp
  | false => simp [h]

end Connection

/-- `MqttTcpServer`, with all the connections that have been made. -/
structure MqttTcpServer where
  /-- The connection of a number. -/
  connection : ℕ → Connection
  /-- How many connections have been made. -/
  made : ℕ
  /-- `_connectionManager._connections`. -/
  connections : Finset ℕ
  /-- `_mqttServer`. -/
  mqttServer : MqttServer ℕ
  /-- Whether `_acceptor` is open. -/
  acceptorOpen : Bool := true

/-- Change one connection. -/
def MqttTcpServer.modify (w : MqttTcpServer) (c : ℕ) (f : Connection → Connection) :
    MqttTcpServer :=
  { w with connection := Function.update w.connection c (f (w.connection c)) }

/-! ## The manager -/

namespace ConnectionManager

/-- `ConnectionManager::start`. -/
def start (w : MqttTcpServer) (c : ℕ) : MqttTcpServer :=
  { w with connections := insert c w.connections }.modify c Connection.start

/-- `ConnectionManager::stop`. -/
def stop (w : MqttTcpServer) (c : ℕ) : MqttTcpServer :=
  { w with connections := w.connections.erase c }.modify c Connection.stop

/-- `ConnectionManager::stopAll`. -/
def stopAll (w : MqttTcpServer) : MqttTcpServer :=
  { w with
    connection := fun c =>
      if c ∈ w.connections then (w.connection c).stop else w.connection c
    connections := ∅ }

end ConnectionManager

/-! ## The events -/

/-- What happens to the server. -/
inductive TcpEvent where
  /-- A client connects. -/
  | accept
  /-- A read of a connection ends with bytes, which it may have got before its socket was closed.
  `beyond` is what the memory behind the copies of its messages holds. -/
  | read (c : ℕ) (chunk : Bytes) (beyond : Span → Bytes)
  /-- A read ends with an error or the end of the file. -/
  | readError (c : ℕ)
  /-- A read ends without bytes because its socket was closed. -/
  | readAborted (c : ℕ)
  /-- A signal to stop. -/
  | signal

namespace MqttTcpServer

/-- The constructor of `MqttTcpServer`. -/
def new (useCache : Bool) : MqttTcpServer where
  connection _ := .new 0 -- none of them has been made yet
  made := 0
  connections := ∅
  mqttServer := .new useCache

/-- The size of the buffer of a connection, as `doAccept` has it. -/
def numStreamBytes : ℕ := 128 * 1024

/-- The handler in `MqttTcpServer::doAccept`. -/
def doAccept (w : MqttTcpServer) : MqttTcpServer :=
  if w.acceptorOpen then
    ConnectionManager.start
      ({ w with made := w.made + 1 }.modify w.made fun _ => .new numStreamBytes) w.made
  else w

/-- The handler in `MqttTcpServer::doAwaitStop`. -/
def doAwaitStop (w : MqttTcpServer) : MqttTcpServer :=
  { ConnectionManager.stopAll w with acceptorOpen := false }

/-- What an effect does to the connections; a connection of which `newMessage` is called stays as
it is. -/
def applyEffect (w : MqttTcpServer) : Effect ℕ → MqttTcpServer
  | .newMessage _ _ => w
  | .disconnect c => w.modify c Connection.disconnect

/-- A connection after a read that passed messages on: the stream has gone on, the effects have
happened, and the next read is started. -/
def afterRead (w : MqttTcpServer) (c : ℕ) (stream : MqttStream) (mqttServer : MqttServer ℕ)
    (effects : List (Effect ℕ)) : MqttTcpServer :=
  let handled := { w with mqttServer }.modify c fun k => { k.finishRead with stream }
  (effects.foldl applyEffect handled).modify c Connection.doRead

/-- The handler in `Connection::doRead`, when there is no error. -/
def handleRead [BoostSplit] (w : MqttTcpServer) (c : ℕ) (chunk : Bytes) (beyond : Span → Bytes) :
    Except Fault MqttTcpServer × List (Effect ℕ) :=
  match (w.connection c).stream.read (serve c beyond) chunk (w.mqttServer, []) with
  | (.ok stream, (mqttServer, effects)) => (.ok (w.afterRead c stream mqttServer effects), effects)
  | (.error e, (_, effects)) => (.error e, effects)

/-- One event. -/
def handle [BoostSplit] (w : MqttTcpServer) :
    TcpEvent → Except Fault MqttTcpServer × List (Effect ℕ)
  | .accept => (.ok w.doAccept, [])
  | .read c chunk beyond =>
    if (w.connection c).Live ∧ chunk.length ≤ (w.connection c).stream.readableDataSize then
      w.handleRead c chunk beyond
    else (.ok w, [])
  | .readError c =>
    if (w.connection c).reading then
      (.ok (ConnectionManager.stop (w.modify c Connection.finishRead) c), [])
    else (.ok w, [])
  | .readAborted c => (.ok (w.modify c Connection.finishRead), []) -- with an error message only
  | .signal => (.ok w.doAwaitStop, [])

/-- What a read does: the requests of its messages run on the server. -/
lemma handleRead_eq [BoostSplit] (w : MqttTcpServer) (c : ℕ) (chunk : Bytes)
    (beyond : Span → Bytes) :
    w.handleRead c chunk beyond =
      let requests := readRequests beyond ((w.connection c).stream.messages chunk)
      let run := (serverMachine ℕ).run w.mqttServer (requests.1.map fun r => (c, r))
      (requests.2.map fun _ =>
        w.afterRead c ((w.connection c).stream.next chunk) run.1 run.2, run.2) := by
  have hread := read_serve c beyond (w.connection c).stream chunk w.mqttServer
  unfold handleRead
  rw [hread]
  obtain ⟨requests, result⟩ := readRequests beyond ((w.connection c).stream.messages chunk)
  cases result <;> rfl

end MqttTcpServer

/-- The server as a machine that events happen to and that calls its connections.  After a fault
nothing happens any more. -/
def tcpServerMachine [BoostSplit] :
    Machine (Except Fault MqttTcpServer) TcpEvent (Effect ℕ) where
  step
    | .ok w, event => w.handle event
    | .error e, _ => (.error e, [])

@[simp] lemma tcpServerMachine_step_ok [BoostSplit] (w : MqttTcpServer) (event : TcpEvent) :
    tcpServerMachine.step (.ok w) event = w.handle event := rfl

/-! ## Outcomes -/

/-- A property of what has been come to, unless that is a fault. -/
def Holds {α : Type} (Q : α → Prop) : Except Fault α → Prop
  | .ok a => Q a
  | .error _ => True

/-- Two properties at once. -/
lemma Holds.and {α : Type} {Q Q' : α → Prop} {r : Except Fault α} (h : Holds Q r)
    (h' : Holds Q' r) : Holds (fun a => Q a ∧ Q' a) r := by
  cases r with
  | error e => trivial
  | ok a => exact ⟨h, h'⟩

/-- A weaker property. -/
lemma Holds.mono {α : Type} {Q Q' : α → Prop} {r : Except Fault α} (h : Holds Q r)
    (hQ : ∀ a, Q a → Q' a) : Holds Q' r := by
  cases r with
  | error e => trivial
  | ok a => exact hQ a h

/-- A condition on the state before an event, unless there has been a fault. -/
def BeforeEvent {α ι : Type} (P : α → ι → Prop) : Except Fault α → ι → Prop
  | .ok a, event => P a event
  | .error _, _ => True

/-- Both have come to the same fault, or to results that are related. -/
def SameOutcome {α : Type} (R : α → α → Prop) : Except Fault α → Except Fault α → Prop
  | .ok a, .ok a' => R a a'
  | .error e, .error e' => e = e'
  | _, _ => False

/-- After a fault nothing happens. -/
lemma run_error [BoostSplit] (e : Fault) (events : List TcpEvent) :
    tcpServerMachine.run (.error e) events = (.error e, []) := by
  induction events with
  | nil => rfl
  | cons event events ih =>
    have hstep : tcpServerMachine.step (.error e) event = (.error e, []) := rfl
    simp [Machine.run_cons, hstep, ih]

end MqttCpp
