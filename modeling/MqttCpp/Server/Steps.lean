import MqttCpp.Server.Connection

/-!
# What the events do

For each event it is said once what it does to the server, and the invariants of the other modules
follow from that.  Where a client connects, one connection more is made and registered.  Where a
read ends without bytes, and on a signal, nobody is opened and nobody begins to read (`Idles`).  A
read whose frames all can be made out leads to `readNext`: its frames have been passed on to the
server, and the connection reads on unless one of them was a DISCONNECT.
-/

namespace MqttCpp

/-! ## One connection -/

namespace Connection

/-- The connection is not disconnected or opened and begins no read, and its stream stays. -/
structure Idles (k k' : Connection) : Prop where
  stream_eq : k'.stream = k.stream
  connected_eq : k'.connected = k.connected
  awaits_eq : k'.awaits = k.awaits
  isOpen_of : k'.isOpen = true → k.isOpen = true
  reading_of : k'.reading = true → k.reading = true

lemma Idles.trans {k k' k'' : Connection} (h : k.Idles k') (h' : k'.Idles k'') : k.Idles k'' where
  stream_eq := h'.stream_eq.trans h.stream_eq
  connected_eq := h'.connected_eq.trans h.connected_eq
  awaits_eq := h'.awaits_eq.trans h.awaits_eq
  isOpen_of hopen := h.isOpen_of (h'.isOpen_of hopen)
  reading_of hreading := h.reading_of (h'.reading_of hreading)

/-- It does not come to life. -/
lemma Idles.live_of {k k' : Connection} (h : k.Idles k') (hlive : k'.Live) : k.Live :=
  ⟨h.reading_of hlive.1, h.awaits_eq ▸ hlive.2⟩

lemma idles_self (k : Connection) : k.Idles k := ⟨rfl, rfl, rfl, id, id⟩

lemma idles_stop (k : Connection) : k.Idles k.stop where
  stream_eq := rfl
  connected_eq := rfl
  awaits_eq := rfl
  isOpen_of hopen := by cases hopen
  reading_of := id

lemma idles_finishRead (k : Connection) : k.Idles k.finishRead where
  stream_eq := rfl
  connected_eq := rfl
  awaits_eq := rfl
  isOpen_of := id
  reading_of hreading := by cases hreading

end Connection

namespace MqttTcpServer

variable {w : MqttTcpServer} {c : ℕ}

@[simp] lemma connection_modify_self (w : MqttTcpServer) (c : ℕ) (f : Connection → Connection) :
    (w.modify c f).connection c = f (w.connection c) := Function.update_self _ _ _

lemma connection_modify_of_ne (w : MqttTcpServer) {c c' : ℕ} (h : c' ≠ c)
    (f : Connection → Connection) : (w.modify c f).connection c' = w.connection c' :=
  Function.update_of_ne h _ _

/-! ## A client connects -/

/-- A connection that has just been accepted waits for bytes. -/
lemma connection_doAccept (h : w.acceptorOpen = true) :
    w.doAccept.connection w.made = (Connection.new numStreamBytes).start := by
  rw [doAccept, if_pos h, ConnectionManager.start, connection_modify_self]
  change Connection.start (({ w with made := w.made + 1 }.modify w.made fun _ => _).connection
    w.made) = _
  rw [connection_modify_self]

/-- The other connections are as they were. -/
lemma connection_doAccept_of_ne (w : MqttTcpServer) {c : ℕ} (hc : c ≠ w.made) :
    w.doAccept.connection c = w.connection c := by
  unfold doAccept
  split
  · rw [ConnectionManager.start, connection_modify_of_ne _ hc]
    change (({ w with made := w.made + 1 }.modify w.made fun _ => _).connection c) = _
    rw [connection_modify_of_ne _ hc]
  · rfl

/-- The broker is as it was. -/
lemma mqttServer_doAccept (w : MqttTcpServer) : w.doAccept.mqttServer = w.mqttServer := by
  unfold doAccept
  split <;> rfl

/-- The acceptor is as it was. -/
lemma acceptorOpen_doAccept (w : MqttTcpServer) : w.doAccept.acceptorOpen = w.acceptorOpen := by
  unfold doAccept
  split <;> rfl

/-- One connection more has been made. -/
lemma made_doAccept (h : w.acceptorOpen = true) : w.doAccept.made = w.made + 1 := by
  rw [doAccept, if_pos h]
  rfl

/-- It is registered. -/
lemma connections_doAccept (h : w.acceptorOpen = true) :
    w.doAccept.connections = insert w.made w.connections := by
  rw [doAccept, if_pos h]
  rfl

/-- A closed acceptor accepts nothing. -/
lemma doAccept_of_closed (h : ¬w.acceptorOpen = true) : w.doAccept = w := by
  rw [doAccept, if_neg h]

/-- A new connection can read what fits into its buffer. -/
lemma live_doAccept (h : w.acceptorOpen = true) {chunk : Bytes}
    (hchunk : chunk.length ≤ numStreamBytes) :
    (w.doAccept.connection w.made).Live ∧
      chunk.length ≤ (w.doAccept.connection w.made).stream.readableDataSize := by
  rw [connection_doAccept h]
  refine ⟨⟨rfl, rfl⟩, ?_⟩
  change _ ≤ (MqttStream.new numStreamBytes).readableDataSize
  rwa [MqttStream.readableDataSize_new]

/-! ## A read ends without bytes, or a signal arrives -/

/-- From one state to the next nobody is disconnected or opened and nobody begins to read. -/
structure Idles (w w' : MqttTcpServer) : Prop where
  mqttServer_eq : w'.mqttServer = w.mqttServer
  made_eq : w'.made = w.made
  connections_subset : w'.connections ⊆ w.connections
  connection : ∀ c, (w.connection c).Idles (w'.connection c)

/-- Changing one connection in this way changes the server in this way. -/
lemma Idles.modify {w₀ : MqttTcpServer} (h : w.Idles w₀) {f : Connection → Connection}
    (hf : ∀ k : Connection, k.Idles (f k)) (c : ℕ) : w.Idles (w₀.modify c f) where
  mqttServer_eq := h.mqttServer_eq
  made_eq := h.made_eq
  connections_subset := h.connections_subset
  connection c' := by
    rcases eq_or_ne c' c with rfl | hne
    · rw [connection_modify_self]
      exact (h.connection c').trans (hf _)
    · rw [connection_modify_of_ne _ hne]
      exact h.connection c'

/-- A handler that has run leaves a connection that does not read. -/
lemma idles_finishRead (w : MqttTcpServer) (c : ℕ) :
    w.Idles (w.modify c Connection.finishRead) := by
  have hself : w.Idles w := ⟨rfl, rfl, Finset.Subset.refl _, fun c => (w.connection c).idles_self⟩
  exact hself.modify Connection.idles_finishRead c

/-- A read that fails closes its connection. -/
lemma idles_stop (w : MqttTcpServer) (c : ℕ) :
    w.Idles (ConnectionManager.stop (w.modify c Connection.finishRead) c) := by
  have h := idles_finishRead w c
  have herase : w.Idles
      { w.modify c Connection.finishRead with connections := w.connections.erase c } :=
    ⟨h.mqttServer_eq, h.made_eq, Finset.erase_subset c _, h.connection⟩
  exact herase.modify Connection.idles_stop c

/-- A signal closes the connections. -/
lemma idles_doAwaitStop (w : MqttTcpServer) : w.Idles w.doAwaitStop where
  mqttServer_eq := rfl
  made_eq := rfl
  connections_subset := Finset.empty_subset _
  connection c := by
    change (w.connection c).Idles
      (if c ∈ w.connections then (w.connection c).stop else w.connection c)
    split
    · exact (w.connection c).idles_stop
    · exact (w.connection c).idles_self

/-- A read that fails takes its connection from the manager and closes it. -/
lemma stop_finishRead_eq (w : MqttTcpServer) (c : ℕ) :
    ConnectionManager.stop (w.modify c Connection.finishRead) c =
      { w.modify c (fun k => k.finishRead.stop) with connections := w.connections.erase c } := by
  simp [ConnectionManager.stop, modify]

/-- Who is live when a handler has run is as before. -/
lemma connection_of_live_finishRead {c' : ℕ}
    (h : ((w.modify c Connection.finishRead).connection c').Live) :
    c' ≠ c ∧ (w.modify c Connection.finishRead).connection c' = w.connection c' := by
  have hne : c' ≠ c := by
    rintro rfl
    rw [connection_modify_self] at h
    exact Connection.not_live_finishRead _ h
  exact ⟨hne, connection_modify_of_ne w hne _⟩

/-- So is who is live when a read has failed. -/
lemma connection_of_live_stop {c' : ℕ}
    (h : ((ConnectionManager.stop (w.modify c Connection.finishRead) c).connection c').Live) :
    c' ≠ c ∧ (ConnectionManager.stop (w.modify c Connection.finishRead) c).connection c' =
      w.connection c' := by
  rw [stop_finishRead_eq] at h ⊢
  change ((w.modify c fun k => k.finishRead.stop).connection c').Live at h
  have hne : c' ≠ c := by
    rintro rfl
    rw [connection_modify_self] at h
    exact Connection.not_live_finishRead _ h
  exact ⟨hne, connection_modify_of_ne w hne fun k => k.finishRead.stop⟩

/-- After a signal the same connections are live. -/
lemma live_doAwaitStop_iff (w : MqttTcpServer) (c : ℕ) :
    (w.doAwaitStop.connection c).Live ↔ (w.connection c).Live := by
  change (if c ∈ w.connections then (w.connection c).stop else w.connection c).Live ↔ _
  split
  · exact (w.connection c).live_stop_iff
  · exact Iff.rfl

/-- A signal closes the sockets of the registered connections. -/
lemma isOpen_doAwaitStop (h : c ∈ w.connections) : (w.doAwaitStop.connection c).isOpen = false := by
  change (if c ∈ w.connections then (w.connection c).stop else w.connection c).isOpen = false
  rw [if_pos h]
  rfl

/-! ## A read ends with bytes -/

/-- The effects of a read disconnect the connections that they say, and change nothing else. -/
lemma foldl_applyEffect (effects : List (Effect ℕ)) (w : MqttTcpServer) :
    effects.foldl applyEffect w =
      { w with
        connection := fun c =>
          if .disconnect c ∈ effects then (w.connection c).disconnect else w.connection c } := by
  induction effects generalizing w with
  | nil => simp
  | cons effect effects ih =>
    rw [List.foldl_cons, ih]
    cases effect with
    | newMessage c' bytes => simp [applyEffect]
    | disconnect c' =>
      unfold applyEffect modify
      congr 1
      funext c
      rcases eq_or_ne c c' with rfl | hc
      · simp [Connection.disconnect, Connection.stop]
      · simp [hc]

/-- The frames of a connection as inputs of the server. -/
def inputs (c : ℕ) (requests : List Request) : List (ℕ × Request) :=
  requests.map fun r => (c, r)

/-- They are inputs of the connection. -/
lemma fst_of_mem_inputs {c : ℕ} {requests : List Request} :
    ∀ i ∈ inputs c requests, i.1 = c := by
  intro i hi
  obtain ⟨r, -, rfl⟩ := List.mem_map.mp hi
  rfl

/-- The frames that a read passes on, up to the first that cannot be made out. -/
def requests (w : MqttTcpServer) (c : ℕ) (chunk : Bytes) (beyond : Span → Bytes) : List Request :=
  (readRequests beyond ((w.connection c).stream.messages chunk)).1

variable [BoostSplit]

/-- The server after some frames of a connection. -/
def serverAfter (s : MqttServer ℕ) (c : ℕ) (requests : List Request) : MqttServer ℕ :=
  ((serverMachine ℕ).run s (inputs c requests)).1

/-- The server after more frames. -/
lemma serverAfter_append (s : MqttServer ℕ) (c : ℕ) (first second : List Request) :
    serverAfter s c (first ++ second) = serverAfter (serverAfter s c first) c second := by
  unfold serverAfter inputs
  rw [List.map_append, Machine.run_append]

/-- The effects of the frames of a connection disconnect it if one of them is a DISCONNECT, and
nobody else. -/
lemma disconnect_mem_run_iff (s : MqttServer ℕ) (c c' : ℕ) (requests : List Request) :
    .disconnect c' ∈ ((serverMachine ℕ).run s (inputs c requests)).2 ↔
      c' = c ∧ .disconnect ∈ requests := by
  have hone : ∀ (s : MqttServer ℕ) (r : Request),
      .disconnect c' ∈ (s.handle c r).2 ↔ c' = c ∧ .disconnect = r := by
    intro s r
    cases r with
    | publish topic bytes => simp [MqttServer.handle]
    | _ => simp [MqttServer.handle]
  induction requests generalizing s with
  | nil => simp [inputs]
  | cons r requests ih =>
    have hrun : ((serverMachine ℕ).run s (inputs c (r :: requests))).2 =
        (s.handle c r).2 ++ ((serverMachine ℕ).run (s.handle c r).1 (inputs c requests)).2 := rfl
    have hrest : Effect.disconnect c' ∈
        ((serverMachine ℕ).run (s.handle c r).1 (inputs c requests)).2 ↔
          c' = c ∧ .disconnect ∈ requests := ih (s.handle c r).1
    rw [hrun, List.mem_append, hone, hrest, List.mem_cons, ← and_or_left]

/-- The handler of a read that passes frames on without a fault. -/
def readNext (w : MqttTcpServer) (c : ℕ) (chunk : Bytes) (beyond : Span → Bytes) : MqttTcpServer :=
  w.afterRead c ((w.connection c).stream.next chunk)
    (serverAfter w.mqttServer c (w.requests c chunk beyond))
    ((serverMachine ℕ).run w.mqttServer (inputs c (w.requests c chunk beyond))).2

variable {chunk : Bytes} {beyond : Span → Bytes}

/-- A read that is handled ends with the next state. -/
lemma handle_read_of_ok
    (hread : (w.connection c).Live ∧ chunk.length ≤ (w.connection c).stream.readableDataSize)
    (hok : (readRequests beyond ((w.connection c).stream.messages chunk)).2 = .ok ()) :
    (w.handle (.read c chunk beyond)).1 = .ok (w.readNext c chunk beyond) := by
  rw [MqttTcpServer.handle, if_pos hread, handleRead_eq]
  simp only [hok]
  rfl

/-- What it calls is what its frames call, also if not all can be made out. -/
lemma handle_read_snd
    (hread : (w.connection c).Live ∧ chunk.length ≤ (w.connection c).stream.readableDataSize)
    (beyond : Span → Bytes) :
    (w.handle (.read c chunk beyond)).2 =
      ((serverMachine ℕ).run w.mqttServer (inputs c (w.requests c chunk beyond))).2 := by
  rw [MqttTcpServer.handle, if_pos hread, handleRead_eq]
  rfl

/-- What holds after a read that is handled without a fault holds after every read that is
handled. -/
lemma holds_readNext {Q : MqttTcpServer → Prop}
    (hread : (w.connection c).Live ∧ chunk.length ≤ (w.connection c).stream.readableDataSize)
    (h : (readRequests beyond ((w.connection c).stream.messages chunk)).2 = .ok () →
      Q (w.readNext c chunk beyond)) :
    Holds Q (w.handle (.read c chunk beyond)).1 := by
  cases hok : (readRequests beyond ((w.connection c).stream.messages chunk)).2 with
  | error e =>
    rw [MqttTcpServer.handle, if_pos hread, handleRead_eq]
    simp only [hok]
    trivial
  | ok u =>
    rw [handle_read_of_ok hread hok]
    exact h hok

/-- What holds before a read as well holds after it also if it is not handled. -/
lemma holds_handle_read {Q : MqttTcpServer → Prop} (hstay : Q w)
    (h : (w.connection c).Live ∧ chunk.length ≤ (w.connection c).stream.readableDataSize →
      (readRequests beyond ((w.connection c).stream.messages chunk)).2 = .ok () →
        Q (w.readNext c chunk beyond)) :
    Holds Q (w.handle (.read c chunk beyond)).1 := by
  by_cases hread :
    (w.connection c).Live ∧ chunk.length ≤ (w.connection c).stream.readableDataSize
  · exact holds_readNext hread (h hread)
  · rw [MqttTcpServer.handle, if_neg hread]
    exact hstay

/-- So it is with a read that fails. -/
lemma holds_handle_readError {Q : MqttTcpServer → Prop} (hstay : Q w)
    (h : (w.connection c).reading = true →
      Q (ConnectionManager.stop (w.modify c Connection.finishRead) c)) :
    Holds Q (w.handle (.readError c)).1 := by
  rw [MqttTcpServer.handle]
  split
  · rename_i hreading
    exact h hreading
  · exact hstay

/-- A read does not change the other connections. -/
lemma connection_readNext_of_ne {c' : ℕ} (h : c' ≠ c) (chunk : Bytes) (beyond : Span → Bytes) :
    (w.readNext c chunk beyond).connection c' = w.connection c' := by
  unfold readNext afterRead
  rw [connection_modify_of_ne _ h, foldl_applyEffect]
  simp only [disconnect_mem_run_iff, h, false_and, if_false]
  exact connection_modify_of_ne _ h _

/-- What a read makes of its connection. -/
lemma connection_readNext_eq (w : MqttTcpServer) (c : ℕ) (chunk : Bytes) (beyond : Span → Bytes) :
    let next := { (w.connection c).finishRead with stream := (w.connection c).stream.next chunk }
    (w.readNext c chunk beyond).connection c =
      if .disconnect ∈ w.requests c chunk beyond then next.disconnect else next.doRead := by
  intro next
  unfold readNext afterRead
  rw [connection_modify_self, foldl_applyEffect]
  simp only [disconnect_mem_run_iff, connection_modify_self, true_and]
  split
  · rfl
  · rfl

/-- After a read the connection is connected, and reads on, unless a DISCONNECT was passed on. -/
lemma connection_readNext_self (chunk : Bytes) (beyond : Span → Bytes) :
    ((w.readNext c chunk beyond).connection c).connected =
        ((w.connection c).connected && decide (.disconnect ∉ w.requests c chunk beyond)) ∧
      ((w.readNext c chunk beyond).connection c).reading =
        ((w.readNext c chunk beyond).connection c).connected := by
  rw [connection_readNext_eq]
  unfold Connection.doRead Connection.finishRead Connection.disconnect Connection.stop
  by_cases hmem : .disconnect ∈ w.requests c chunk beyond
  · simp [hmem]
  · cases hconnected : (w.connection c).connected with
    | true => simp [hmem]
    | false => simp [hmem]

/-- It can get further bytes if it is connected and its socket is still open. -/
lemma live_readNext_self_iff (chunk : Bytes) (beyond : Span → Bytes) :
    ((w.readNext c chunk beyond).connection c).Live ↔
      .disconnect ∉ w.requests c chunk beyond ∧ (w.connection c).connected = true ∧
        (w.connection c).isOpen = true := by
  rw [connection_readNext_eq]
  by_cases hmem : .disconnect ∈ w.requests c chunk beyond
  · rw [if_pos hmem, Connection.live_disconnect_iff]
    exact iff_of_false (Connection.not_live_finishRead (w.connection c)) fun h => h.1 hmem
  · rw [if_neg hmem, Connection.live_doRead_iff rfl]
    exact (and_iff_right hmem).symm

/-- After a read the stream is the next one. -/
lemma stream_readNext_self (chunk : Bytes) (beyond : Span → Bytes) :
    ((w.readNext c chunk beyond).connection c).stream = (w.connection c).stream.next chunk := by
  rw [connection_readNext_eq]
  split
  · rfl
  · exact Connection.stream_doRead _

/-- A read without a DISCONNECT leaves the socket of its connection as it was. -/
lemma isOpen_readNext_self (h : .disconnect ∉ w.requests c chunk beyond) :
    ((w.readNext c chunk beyond).connection c).isOpen = (w.connection c).isOpen := by
  rw [connection_readNext_eq, if_neg h]
  exact Connection.isOpen_doRead _

/-- A read opens no socket. -/
lemma isOpen_of_readNext {c' : ℕ} (h : ((w.readNext c chunk beyond).connection c').isOpen = true) :
    (w.connection c').isOpen = true := by
  rcases eq_or_ne c' c with rfl | hne
  · by_cases hmem : .disconnect ∈ w.requests c' chunk beyond
    · rw [connection_readNext_eq, if_pos hmem] at h
      cases h
    · rwa [isOpen_readNext_self hmem] at h
  · rwa [connection_readNext_of_ne hne] at h

/-- The manager holds the same connections after a read. -/
lemma connections_readNext (chunk : Bytes) (beyond : Span → Bytes) :
    (w.readNext c chunk beyond).connections = w.connections := by
  rw [readNext, afterRead, foldl_applyEffect]
  rfl

/-- A read makes no connections. -/
lemma made_readNext (chunk : Bytes) (beyond : Span → Bytes) :
    (w.readNext c chunk beyond).made = w.made := by
  rw [readNext, afterRead, foldl_applyEffect]
  rfl

/-- A read leaves the acceptor as it is. -/
lemma acceptorOpen_readNext (chunk : Bytes) (beyond : Span → Bytes) :
    (w.readNext c chunk beyond).acceptorOpen = w.acceptorOpen := by
  rw [readNext, afterRead, foldl_applyEffect]
  rfl

/-- The server after a read. -/
lemma mqttServer_readNext (chunk : Bytes) (beyond : Span → Bytes) :
    (w.readNext c chunk beyond).mqttServer =
      serverAfter w.mqttServer c (w.requests c chunk beyond) := by
  rw [readNext, afterRead, foldl_applyEffect]
  rfl

end MqttTcpServer

end MqttCpp
