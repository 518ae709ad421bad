import MqttCpp.Library.PendingWrites
import MqttCpp.Server.Disconnect

/-!
# The sockets and what they write

`Connection::newMessage` starts a write of the bytes it is passed.  What it is passed is a span: a
message in the buffer of the publishing connection, a static array, or a vector of
`MqttServer::newMessage` that is gone when the call returns.  `boost::asio::async_write` does not
copy the bytes.  It transmits them in pieces, at any time until the write is complete, and does not
put writes on one socket in order.

So a read is taken apart here: it begins with the bytes that the socket writes to the buffer, the
frames make their calls one after another, and at the end the residue is shifted.  Transmissions
happen in between at any time, and so does the end of a connection that nobody owns any more.
`run_read` says that the parts of a read do together what `tcpServerMachine` does.
-/

namespace MqttCpp

/-! ## Memory -/

/-- The memory that the bytes of a write are in. -/
inductive Region where
  /-- In the buffer of the stream of a connection. -/
  | stream (connection offset size : ℕ)
  /-- A static array in `MqttServer::newMessage`. -/
  | static (bytes : Bytes)
  /-- A vector in `MqttServer::newMessage`, while the call that it is passed to lasts. -/
  | vector (bytes : Bytes)
  /-- Where such a vector was. -/
  | freed (size : ℕ)

/-- The vectors are destroyed. -/
def Region.free : Region → Region
  | .vector bytes => .freed bytes.length
  | region => region

/-- What is found in freed memory. -/
def junk (garbage : ℕ → UInt8) (size : ℕ) : Bytes := (List.range size).map garbage

/-! ## Calls -/

/-- A call that the server makes, and where the bytes are that it passes. -/
inductive Call where
  | newMessage (connection : ℕ) (region : Region) (bytes : Bytes)
  | disconnect (connection : ℕ)

/-- The call as an effect of the server. -/
def Call.effect : Call → Effect ℕ
  | .newMessage c _ bytes => .newMessage c bytes
  | .disconnect c => .disconnect c

/-- Where the bytes are that a request passes; the message of the request begins at an offset of the
buffer of the connection. -/
def Request.region (c offset : ℕ) (bytes : Bytes) : Request → Region
  | .publish _ _ => .stream c offset bytes.length
  | .connect => .static bytes
  | .pingreq => .static bytes
  | .subscribe _ _ => .vector bytes
  | .unsubscribe _ _ => .vector bytes
  | .disconnect => .static bytes -- it passes none
  | .unknown => .static bytes

/-- An effect of a request as a call. -/
def Request.call (c offset : ℕ) (r : Request) : Effect ℕ → Call
  | .newMessage c' bytes => .newMessage c' (r.region c offset bytes) bytes
  | .disconnect c' => .disconnect c'

/-- The calls that the messages of a read make, up to the first that cannot be made out. -/
def frameCalls [BoostSplit] (c : ℕ) (beyond : Span → Bytes) :
    MqttServer ℕ → ℕ → List Span → List Call
  | _, _, [] => []
  | s, offset, msg :: msgs =>
    match readRequest msg (beyond msg) with
    | .ok r =>
      (s.handle c r).2.map (r.call c offset) ++
        frameCalls c beyond (s.handle c r).1 (offset + msg.size) msgs
    | .error _ => []

/-! ## The network -/

/-- The handler of a read while it runs. -/
structure ReadHandler where
  connection : ℕ
  /-- The calls that it has still to make. -/
  calls : List Call
  /-- What `handleMessages` will shift to the beginning. -/
  residue : Span
  /-- The server when the handler is done. -/
  result : Except Fault (MqttServer ℕ)

/-- The server and the sockets of its connections. -/
structure Network where
  tcp : MqttTcpServer
  /-- The handler that runs, if it is that of a read. -/
  handler : Option ReadHandler := none
  /-- The connections that have been destroyed, with their streams. -/
  destroyed : Finset ℕ := ∅
  /-- The socket of a connection. -/
  socket : ℕ → Channel Region UInt8 := fun _ => {}

/-- What happens to the network. -/
inductive NetEvent where
  /-- An event of the server; a read only begins. -/
  | event (event : TcpEvent)
  /-- The handler makes its next call. -/
  | call
  /-- The handler ends. -/
  | finish
  /-- A piece of the pending write `i` of a connection is transmitted. -/
  | transmit (c i k : ℕ) (garbage : ℕ → UInt8)
  /-- A connection that nobody owns any more is destroyed. -/
  | destroy (c : ℕ)

namespace Network

/-- The network of a new server. -/
def new (useCache : Bool) : Network where
  tcp := .new useCache

/-- The buffer of the stream of a connection. -/
def buffer (n : Network) (c : ℕ) : Bytes := (n.tcp.connection c).stream.buffer

/-- What a region holds now. -/
def contents (n : Network) (garbage : ℕ → UInt8) : Region → Bytes
  | .stream c offset size =>
    if c ∈ n.destroyed then junk garbage size else ((n.buffer c).drop offset).take size
  | .static bytes => bytes
  | .vector bytes => bytes
  | .freed size => junk garbage size

/-- What a part of a buffer holds. -/
lemma contents_stream (n : Network) (garbage : ℕ → UInt8) (c offset size : ℕ) :
    n.contents garbage (.stream c offset size) =
      if c ∈ n.destroyed then junk garbage size else ((n.buffer c).drop offset).take size := rfl

/-- A read of a connection can begin. -/
def CanRead (n : Network) (c : ℕ) (chunk : Bytes) : Prop :=
  (n.tcp.connection c).Live ∧ chunk.length ≤ (n.tcp.connection c).stream.readableDataSize

instance (n : Network) (c : ℕ) (chunk : Bytes) : Decidable (n.CanRead c chunk) :=
  inferInstanceAs (Decidable ((n.tcp.connection c).Live ∧
    chunk.length ≤ (n.tcp.connection c).stream.readableDataSize))

/-- Nobody owns the connection: it is not registered, so that its socket is closed and its own
writes have ended, and no read has been started that would call a handler of it. -/
def CanDestroy (n : Network) (c : ℕ) : Prop :=
  c < n.tcp.made ∧ c ∉ n.tcp.connections ∧ (n.tcp.connection c).reading = false

instance (n : Network) (c : ℕ) : Decidable (n.CanDestroy c) :=
  inferInstanceAs (Decidable (c < n.tcp.made ∧ c ∉ n.tcp.connections ∧
    (n.tcp.connection c).reading = false))

/-- A read begins: the socket has written the chunk to the buffer, and the handler is called. -/
def beginRead [BoostSplit] (n : Network) (c : ℕ) (chunk : Bytes) (beyond : Span → Bytes) :
    Network :=
  let stream := (n.tcp.connection c).stream
  let messages := stream.messages chunk
  { n with
    tcp := n.tcp.modify c fun k => { k.finishRead with stream := stream.write chunk }
    handler := some
      { connection := c
        calls := frameCalls c beyond n.tcp.mqttServer 0 messages
        residue := stream.residue chunk
        result := (readRequests beyond messages).2.map fun _ =>
          MqttTcpServer.serverAfter n.tcp.mqttServer c (n.tcp.requests c chunk beyond) } }

/-- The server when a read begins: the handler of the connection runs, and the chunk is in its
buffer. -/
lemma tcp_beginRead [BoostSplit] (n : Network) (c : ℕ) (chunk : Bytes) (beyond : Span → Bytes) :
    (n.beginRead c chunk beyond).tcp = n.tcp.modify c fun k =>
      { k.finishRead with stream := (n.tcp.connection c).stream.write chunk } := rfl

/-- When a call has returned, the vector that it was passed is destroyed. -/
def freeVectors (n : Network) : Network :=
  { n with socket := fun c => (n.socket c).mapRegions Region.free }

/-- `Connection::newMessage`. -/
def newMessage (n : Network) (c : ℕ) (region : Region) (bytes : Bytes) : Network :=
  { n with
    socket := Function.update n.socket c
      (if (n.tcp.connection c).connected then (n.socket c).start region bytes
        else (n.socket c).ignore bytes) }

/-- Make a call. -/
def makeCall (n : Network) : Call → Network
  | .newMessage c region bytes => n.newMessage c region bytes
  | .disconnect c => { n with tcp := n.tcp.modify c Connection.disconnect }

/-- The handler of a read ends: the residue is shifted, and the next read is started. -/
def finishRead (n : Network) (c : ℕ) (residue : Span) (server : MqttServer ℕ) : Network :=
  { n with
    tcp := ({ n.tcp with mqttServer := server }.modify c fun k =>
      { k with stream := k.stream.shift residue }).modify c Connection.doRead
    handler := none }

/-- The next call of the handler that runs. -/
def callNext (n : Network) : Network × List (Effect ℕ) :=
  match n.handler with
  | some { connection, calls := call :: calls, residue, result } =>
    ({ n.freeVectors with handler := some { connection, calls, residue, result } }.makeCall call,
      [call.effect])
  | _ => (n, [])

/-- The end of the handler that runs, when it has made its calls. -/
def finish (n : Network) : Except Fault Network :=
  match n.handler with
  | some { connection, calls := [], residue, result } =>
    result.map (n.freeVectors.finishRead connection residue)
  | _ => .ok n

/-- One event.  One handler runs at a time; a closed socket transmits nothing. -/
def step [BoostSplit] (n : Network) : NetEvent → Except Fault Network × List (Effect ℕ)
  | .event (.read c chunk beyond) =>
    (.ok (if n.handler.isNone ∧ n.CanRead c chunk then n.beginRead c chunk beyond else n), [])
  | .event event =>
    if n.handler.isNone then
      ((n.tcp.handle event).1.map fun tcp => { n with tcp }, (n.tcp.handle event).2)
    else (.ok n, [])
  | .call => (.ok n.callNext.1, n.callNext.2)
  | .finish => (n.finish, [])
  | .transmit c i k garbage =>
    (.ok (if (n.tcp.connection c).isOpen then
      { n with socket :=
        Function.update n.socket c ((n.socket c).transmit (n.contents garbage) i k) }
      else n), [])
  | .destroy c =>
    (.ok (if n.handler.isNone ∧ n.CanDestroy c then
      { n with destroyed := insert c n.destroyed } else n), [])

end Network

/-- The network as a machine; after a fault nothing happens any more. -/
def networkMachine [BoostSplit] : Machine (Except Fault Network) NetEvent (Effect ℕ) where
  step
    | .ok n, event => n.step event
    | .error e, _ => (.error e, [])

@[simp] lemma networkMachine_step_ok [BoostSplit] (n : Network) (event : NetEvent) :
    networkMachine.step (.ok n) event = n.step event := rfl

/-! ## A read is its parts -/

/-- The calls of a request have its effects. -/
lemma Request.effect_call (c offset : ℕ) (r : Request) (e : Effect ℕ) :
    (r.call c offset e).effect = e := by
  cases e <;> rfl

/-- The calls of the messages of a read have the effects of their requests. -/
lemma map_effect_frameCalls [BoostSplit] (c : ℕ) (beyond : Span → Bytes) (s : MqttServer ℕ)
    (offset : ℕ) (msgs : List Span) :
    (frameCalls c beyond s offset msgs).map Call.effect =
      ((serverMachine ℕ).run s
        (MqttTcpServer.inputs c (readRequests beyond msgs).1)).2 := by
  induction msgs generalizing s offset with
  | nil => rfl
  | cons msg msgs ih =>
    unfold frameCalls readRequests
    cases readRequest msg (beyond msg) with
    | error e => rfl
    | ok r =>
      have heffects : ∀ es : List (Effect ℕ), (es.map (r.call c offset)).map Call.effect = es := by
        intro es
        rw [List.map_map]
        exact (List.map_congr_left fun e _ => r.effect_call c offset e).trans (List.map_id es)
      simp only [List.map_append, heffects, ih]
      rfl

namespace Network

/-- A call does to the connections what its effect does. -/
lemma tcp_makeCall (n : Network) (call : Call) :
    (n.makeCall call).tcp = n.tcp.applyEffect call.effect := by
  cases call <;> rfl

/-- The other parts of the network have nothing to do with a handler. -/
lemma handler_makeCall (n : Network) (call : Call) : (n.makeCall call).handler = n.handler := by
  cases call <;> rfl

/-- The handler that runs has a call to make. -/
lemma callNext_of_handler {n : Network} {c : ℕ} {call : Call} {calls : List Call} {residue : Span}
    {result : Except Fault (MqttServer ℕ)}
    (h : n.handler = some { connection := c, calls := call :: calls, residue, result }) :
    n.callNext =
      ({ n.freeVectors with handler := some { connection := c, calls, residue, result } }.makeCall
        call, [call.effect]) := by
  unfold callNext
  rw [h]

/-- The handler that runs has made its calls. -/
lemma finish_of_handler {n : Network} {c : ℕ} {residue : Span}
    {result : Except Fault (MqttServer ℕ)}
    (h : n.handler = some { connection := c, calls := [], residue, result }) :
    n.finish = result.map (n.freeVectors.finishRead c residue) := by
  unfold finish
  rw [h]

/-- What the effects of a read leave of the connection comes to the same if the stream has been
shifted before them. -/
lemma finishRead_tcp (w : MqttTcpServer) (c : ℕ) (stream : MqttStream) (residue : Span)
    (server : MqttServer ℕ) (effects : List (Effect ℕ)) :
    ({ effects.foldl MqttTcpServer.applyEffect (w.modify c fun k => { k.finishRead with stream })
      with mqttServer := server }.modify c fun k =>
        { k with stream := k.stream.shift residue }).modify c Connection.doRead =
      w.afterRead c (stream.shift residue) server effects := by
  unfold MqttTcpServer.afterRead
  simp only [MqttTcpServer.foldl_applyEffect]
  unfold MqttTcpServer.modify
  congr 1
  funext c'
  rcases eq_or_ne c' c with rfl | hne
  · simp only [Function.update_self]
    split <;> rfl
  · simp only [Function.update_of_ne hne]

/-- The parts of a read with so many calls. -/
def partsOfRead (c : ℕ) (chunk : Bytes) (beyond : Span → Bytes) (count : ℕ) : List NetEvent :=
  .event (.read c chunk beyond) :: (List.replicate count .call ++ [.finish])

variable [BoostSplit]

/-- A handler makes its calls. -/
lemma run_calls (n : Network) {c : ℕ} {calls : List Call} {residue : Span}
    {result : Except Fault (MqttServer ℕ)}
    (h : n.handler = some { connection := c, calls, residue, result }) :
    ∃ n', networkMachine.run (.ok n) (List.replicate calls.length .call) =
        (.ok n', calls.map Call.effect) ∧
      n'.handler = some { connection := c, calls := [], residue, result } ∧
      n'.tcp = (calls.map Call.effect).foldl MqttTcpServer.applyEffect n.tcp := by
  induction calls generalizing n with
  | nil => exact ⟨n, rfl, h, rfl⟩
  | cons call calls ih =>
    have hcall := callNext_of_handler h
    obtain ⟨n', hrun, hhandler, htcp⟩ := ih n.callNext.1 (by rw [hcall, handler_makeCall])
    refine ⟨n', ?_, hhandler, ?_⟩
    · rw [List.length_cons, List.replicate_succ, Machine.run_cons, networkMachine_step_ok]
      change ((networkMachine.run (.ok n.callNext.1) _).1,
        n.callNext.2 ++ (networkMachine.run (.ok n.callNext.1) _).2) = _
      rw [hrun, hcall]
      rfl
    · rw [htcp, hcall, tcp_makeCall]
      rfl

/-- **A read is its parts**: when a read has begun, all its calls have been made and its handler has
ended, the server has done what `tcpServerMachine` does in a read. -/
theorem run_read (n : Network) {c : ℕ} {chunk : Bytes} {beyond : Span → Bytes}
    (hnone : n.handler = none) (hread : n.CanRead c chunk) :
    let once := n.tcp.handle (.read c chunk beyond)
    let parts := networkMachine.run (.ok n) (partsOfRead c chunk beyond once.2.length)
    parts.1.map tcp = once.1 ∧ parts.2 = once.2 := by
  intro once parts
  have hbegin : n.step (.event (.read c chunk beyond)) =
      (.ok (n.beginRead c chunk beyond), []) := by
    unfold step
    rw [hnone]
    simp [hread]
  have honce : once = n.tcp.handleRead c chunk beyond := by
    have hlive : (n.tcp.connection c).Live ∧
        chunk.length ≤ (n.tcp.connection c).stream.readableDataSize := hread
    change n.tcp.handle _ = _
    rw [MqttTcpServer.handle, if_pos hlive]
  rw [MqttTcpServer.handleRead_eq] at honce
  have heffects := map_effect_frameCalls c beyond n.tcp.mqttServer 0
    ((n.tcp.connection c).stream.messages chunk)
  have hcount : once.2.length = (frameCalls c beyond n.tcp.mqttServer 0
      ((n.tcp.connection c).stream.messages chunk)).length := by
    rw [honce, ← List.length_map Call.effect, heffects]
    rfl
  obtain ⟨n', hrun, hhandler, htcp⟩ := (n.beginRead c chunk beyond).run_calls rfl
  have hfinish : networkMachine.run (.ok n') [.finish] = (n'.finish, []) := rfl
  have hparts : parts = (n'.finish, once.2) := by
    change networkMachine.run (.ok n) (partsOfRead c chunk beyond once.2.length) = _
    rw [partsOfRead, Machine.run_cons, networkMachine_step_ok, hbegin]
    simp only
    rw [Machine.run_append, hcount, hrun, heffects, honce]
    simp only [hfinish, List.append_nil, List.nil_append]
    rfl
  rw [hparts]
  refine ⟨?_, rfl⟩
  rw [honce]
  rw [finish_of_handler hhandler]
  simp only
  cases (readRequests beyond ((n.tcp.connection c).stream.messages chunk)).2 with
  | error e => rfl
  | ok u =>
    rw [heffects] at htcp
    change Except.ok (({ n'.tcp with mqttServer := _ }.modify c _).modify c _) = _
    rw [htcp, MqttStream.next_eq_shift hread.2]
    exact congrArg Except.ok (finishRead_tcp _ _ _ _ _ _)

end Network

end MqttCpp
