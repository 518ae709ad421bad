import MqttCpp.Broker.Cache
import MqttCpp.Server.Writes

/-!
# The network with and without a cache

A connection does not see the server but for its calls.  So if related servers make the same calls
for every request and stay related, networks over related servers stay the same in everything else:
their buffers and sockets, the handler that runs, what is destroyed and what is transmitted
(`networkMachine_simulates`).

The servers with and without a cache are related in this way.  The cache is invisible in the whole
network, in any order of reads, calls, transmissions and ends of connections, and also where memory
is transmitted that has been overwritten or freed (`networkMachine_cache`).
-/

namespace MqttCpp

/-! ## Related servers -/

/-- The TCP servers are the same, over servers that are related. -/
structure MqttTcpServer.Relates (R : MqttServer ℕ → MqttServer ℕ → Prop) (w w' : MqttTcpServer) :
    Prop where
  connection_eq : w.connection = w'.connection
  made_eq : w.made = w'.made
  connections_eq : w.connections = w'.connections
  acceptorOpen_eq : w.acceptorOpen = w'.acceptorOpen
  server : R w.mqttServer w'.mqttServer

/-- The handlers make the same calls, and come to servers that are related. -/
structure ReadHandler.Relates (R : MqttServer ℕ → MqttServer ℕ → Prop) (h h' : ReadHandler) :
    Prop where
  connection_eq : h.connection = h'.connection
  calls_eq : h.calls = h'.calls
  residue_eq : h.residue = h'.residue
  result : SameOutcome R h.result h'.result

/-- The networks are the same, over servers that are related. -/
structure Network.Relates (R : MqttServer ℕ → MqttServer ℕ → Prop) (n n' : Network) : Prop where
  tcp : n.tcp.Relates R n'.tcp
  handler : Option.Rel (ReadHandler.Relates R) n.handler n'.handler
  destroyed_eq : n.destroyed = n'.destroyed
  socket_eq : n.socket = n'.socket

/-- Replacing the server by a related one. -/
lemma MqttTcpServer.relates_of_server {R : MqttServer ℕ → MqttServer ℕ → Prop} {w : MqttTcpServer}
    {server : MqttServer ℕ} (h : R w.mqttServer server) :
    w.Relates R { w with mqttServer := server } := ⟨rfl, rfl, rfl, rfl, h⟩

/-- Replacing the server and the handler by related ones. -/
lemma Network.relates_of_server {R : MqttServer ℕ → MqttServer ℕ → Prop} {n : Network}
    {server : MqttServer ℕ} {handler : Option ReadHandler} (h : R n.tcp.mqttServer server)
    (hhandler : Option.Rel (ReadHandler.Relates R) n.handler handler) :
    n.Relates R { n with tcp := { n.tcp with mqttServer := server }, handler } :=
  ⟨MqttTcpServer.relates_of_server h, hhandler, rfl, rfl⟩

/-- TCP servers that are the same over related servers differ in these only. -/
lemma MqttTcpServer.Relates.exists_eq {R : MqttServer ℕ → MqttServer ℕ → Prop}
    {w w' : MqttTcpServer} (h : w.Relates R w') :
    ∃ server, w' = { w with mqttServer := server } ∧ R w.mqttServer server := by
  obtain ⟨connection, made, connections, server, acceptorOpen⟩ := w
  obtain ⟨connection', made', connections', server', acceptorOpen'⟩ := w'
  obtain ⟨rfl, rfl, rfl, rfl, hserver⟩ := h
  exact ⟨server', rfl, hserver⟩

/-- Networks that are the same over related servers differ in these and in handlers only. -/
lemma Network.Relates.exists_eq {R : MqttServer ℕ → MqttServer ℕ → Prop} {n n' : Network}
    (h : n.Relates R n') :
    ∃ server handler, n' = { n with tcp := { n.tcp with mqttServer := server }, handler } ∧
      R n.tcp.mqttServer server ∧ Option.Rel (ReadHandler.Relates R) n.handler handler := by
  obtain ⟨tcp, handler, destroyed, socket⟩ := n
  obtain ⟨tcp', handler', destroyed', socket'⟩ := n'
  obtain ⟨htcp, hhandler, rfl, rfl⟩ := h
  obtain ⟨server, rfl, hserver⟩ := htcp.exists_eq
  exact ⟨server, handler', rfl, hserver, hhandler⟩

/-! ## The steps of a handler -/

namespace Network.Relates

variable {R : MqttServer ℕ → MqttServer ℕ → Prop} {n n' : Network}

/-- The handlers of both networks make the same call. -/
lemma callNext (h : n.Relates R n') :
    n.callNext.1.Relates R n'.callNext.1 ∧ n.callNext.2 = n'.callNext.2 := by
  obtain ⟨server, handler', rfl, hserver, hhandler⟩ := h.exists_eq
  obtain ⟨tcp, handler, destroyed, socket⟩ := n
  cases hhandler with
  | none => exact ⟨relates_of_server hserver .none, rfl⟩
  | @some hd hd' hhandler =>
    obtain ⟨c, calls, residue, result⟩ := hd
    obtain ⟨c', calls', residue', result'⟩ := hd'
    obtain ⟨rfl, rfl, rfl, hresult⟩ := hhandler
    have hrest : ∀ rest, Option.Rel (ReadHandler.Relates R) (some ⟨c, rest, residue, result⟩)
        (some ⟨c, rest, residue, result'⟩) := fun rest => .some ⟨rfl, rfl, rfl, hresult⟩
    cases calls with
    | nil => exact ⟨relates_of_server hserver (hrest []), rfl⟩
    | cons call calls =>
      cases call with
      | newMessage c₁ region bytes =>
        exact ⟨relates_of_server hserver (hrest calls), rfl⟩
      | disconnect c₁ => exact ⟨relates_of_server hserver (hrest calls), rfl⟩

/-- The handler ends in both networks, with the same fault if there is one. -/
lemma finish (h : n.Relates R n') : SameOutcome (Network.Relates R) n.finish n'.finish := by
  obtain ⟨server, handler', rfl, hserver, hhandler⟩ := h.exists_eq
  obtain ⟨tcp, handler, destroyed, socket⟩ := n
  cases hhandler with
  | none => exact relates_of_server hserver .none
  | @some hd hd' hhandler =>
    obtain ⟨c, calls, residue, result⟩ := hd
    obtain ⟨c', calls', residue', result'⟩ := hd'
    obtain ⟨rfl, rfl, rfl, hresult⟩ := hhandler
    cases calls with
    | cons call calls =>
      exact relates_of_server hserver (.some ⟨rfl, rfl, rfl, hresult⟩)
    | nil =>
      rcases result with e | s
      · rcases result' with e' | s'
        · exact hresult
        · exact hresult.elim
      · rcases result' with e' | s'
        · exact hresult.elim
        · exact relates_of_server hresult .none

/-- A handler runs in both networks or in none. -/
lemma isNone_eq (h : n.Relates R n') : n.handler.isNone = n'.handler.isNone := by
  obtain ⟨server, handler', rfl, -, hhandler⟩ := h.exists_eq
  obtain ⟨tcp, handler, destroyed, socket⟩ := n
  cases hhandler <;> rfl

end Network.Relates

/-! ## Events -/

section Simulation

variable [BoostSplit] {R : MqttServer ℕ → MqttServer ℕ → Prop}

/-- Related servers make the same calls for the messages of a read. -/
lemma frameCalls_eq (hR : (serverMachine ℕ).Simulates (serverMachine ℕ) R) {s s' : MqttServer ℕ}
    (h : R s s') (c : ℕ) (beyond : Span → Bytes) (offset : ℕ) (msgs : List Span) :
    frameCalls c beyond s offset msgs = frameCalls c beyond s' offset msgs := by
  induction msgs generalizing s s' offset with
  | nil => rfl
  | cons msg msgs ih =>
    unfold frameCalls
    cases readRequest msg (beyond msg) with
    | error e => rfl
    | ok r =>
      have hstep : R (s.handle c r).1 (s'.handle c r).1 ∧
          (s.handle c r).2 = (s'.handle c r).2 := hR s s' (c, r) h
      simp only [hstep.2, ih hstep.1]

/-- Events that are no reads do not look at the server. -/
lemma MqttTcpServer.Relates.handle {w w' : MqttTcpServer} (h : w.Relates R w') {event : TcpEvent}
    (hevent : ∀ c chunk beyond, event ≠ .read c chunk beyond) :
    SameOutcome (MqttTcpServer.Relates R) (w.handle event).1 (w'.handle event).1 := by
  obtain ⟨server, rfl, hserver⟩ := h.exists_eq
  cases event with
  | read c chunk beyond => exact absurd rfl (hevent c chunk beyond)
  | accept =>
    simp only [MqttTcpServer.handle, MqttTcpServer.doAccept]
    split
    · exact relates_of_server hserver
    · exact relates_of_server hserver
  | readError c =>
    simp only [MqttTcpServer.handle]
    split
    · exact relates_of_server hserver
    · exact relates_of_server hserver
  | readAborted c => exact relates_of_server hserver
  | signal => exact relates_of_server hserver

namespace Network.Relates

variable {n n' : Network}

/-- A read begins in both networks. -/
lemma beginRead (hR : (serverMachine ℕ).Simulates (serverMachine ℕ) R) (h : n.Relates R n')
    (c : ℕ) (chunk : Bytes) (beyond : Span → Bytes) :
    (n.beginRead c chunk beyond).Relates R (n'.beginRead c chunk beyond) := by
  obtain ⟨server, handler, rfl, hserver, -⟩ := h.exists_eq
  refine relates_of_server hserver (.some ⟨rfl, ?_, rfl, ?_⟩)
  · exact frameCalls_eq hR hserver _ _ _ _
  · change SameOutcome R (Except.map _ (readRequests beyond _).2)
      (Except.map _ (readRequests beyond _).2)
    cases (readRequests beyond ((n.tcp.connection c).stream.messages chunk)).2 with
    | error e => rfl
    | ok u => exact (Machine.run_simulation hR hserver _).1

/-- An event of the server happens in both networks if no handler runs. -/
lemma event (h : n.Relates R n') {event : TcpEvent}
    (hevent : ∀ c chunk beyond, event ≠ .read c chunk beyond) :
    SameOutcome (Network.Relates R) (n.step (.event event)).1 (n'.step (.event event)).1 := by
  rw [step_event hevent, step_event hevent, h.isNone_eq]
  split
  · have hnext := h.tcp.handle hevent
    cases hw : (n.tcp.handle event).1 with
    | error e =>
      cases hw' : (n'.tcp.handle event).1 with
      | error e' => rwa [hw, hw'] at hnext
      | ok w' =>
        rw [hw, hw'] at hnext
        exact hnext.elim
    | ok w =>
      cases hw' : (n'.tcp.handle event).1 with
      | error e' =>
        rw [hw, hw'] at hnext
        exact hnext.elim
      | ok w' =>
        rw [hw, hw'] at hnext
        exact ⟨hnext, h.handler, h.destroyed_eq, h.socket_eq⟩
  · exact h

/-- **A step of both networks**: they stay the same over related servers, and make the same call if
any. -/
theorem step (hR : (serverMachine ℕ).Simulates (serverMachine ℕ) R) (h : n.Relates R n')
    (event : NetEvent) :
    SameOutcome (Network.Relates R) (n.step event).1 (n'.step event).1 ∧
      (n.step event).2 = (n'.step event).2 := by
  cases event with
  | event event =>
    by_cases hread : ∃ c chunk beyond, event = .read c chunk beyond
    · obtain ⟨c, chunk, beyond, rfl⟩ := hread
      have hbegun := h.beginRead hR c chunk beyond
      have hcond : (n.handler.isNone ∧ n.CanRead c chunk) ↔
          (n'.handler.isNone ∧ n'.CanRead c chunk) := by
        unfold CanRead
        rw [h.tcp.connection_eq, h.isNone_eq]
      refine ⟨?_, rfl⟩
      change Network.Relates R (if n.handler.isNone ∧ n.CanRead c chunk then _ else _)
        (if n'.handler.isNone ∧ n'.CanRead c chunk then _ else _)
      by_cases hn : n.handler.isNone ∧ n.CanRead c chunk
      · rwa [if_pos hn, if_pos (hcond.mp hn)]
      · rwa [if_neg hn, if_neg (hcond.not.mp hn)]
    · push Not at hread
      exact ⟨h.event hread, by rw [step_event_quiet hread, step_event_quiet hread]⟩
  | call => exact h.callNext
  | finish => exact ⟨h.finish, rfl⟩
  | transmit c i k garbage =>
    obtain ⟨server, handler, rfl, hserver, hhandler⟩ := h.exists_eq
    refine ⟨?_, rfl⟩
    change Network.Relates R (if (n.tcp.connection c).isOpen then _ else _)
      (if (n.tcp.connection c).isOpen then _ else _)
    by_cases hopen : (n.tcp.connection c).isOpen = true
    · rw [if_pos hopen, if_pos hopen]
      exact relates_of_server hserver hhandler
    · rw [if_neg hopen, if_neg hopen]
      exact h
  | destroy c =>
    have hcond : (n.handler.isNone ∧ n.CanDestroy c) ↔ (n'.handler.isNone ∧ n'.CanDestroy c) := by
      unfold CanDestroy
      rw [h.tcp.connection_eq, h.tcp.made_eq, h.tcp.connections_eq, h.isNone_eq]
    refine ⟨?_, rfl⟩
    change Network.Relates R (if n.handler.isNone ∧ n.CanDestroy c then _ else _)
      (if n'.handler.isNone ∧ n'.CanDestroy c then _ else _)
    by_cases hn : n.handler.isNone ∧ n.CanDestroy c
    · rw [if_pos hn, if_pos (hcond.mp hn), h.destroyed_eq]
      exact ⟨h.tcp, h.handler, rfl, h.socket_eq⟩
    · rwa [if_neg hn, if_neg (hcond.not.mp hn)]

end Network.Relates

/-- **A simulation of the server is one of the network.** -/
theorem networkMachine_simulates (hR : (serverMachine ℕ).Simulates (serverMachine ℕ) R) :
    networkMachine.Simulates networkMachine (SameOutcome (Network.Relates R)) := by
  rintro (e | n) (e' | n') event h
  · exact ⟨h, rfl⟩
  · exact h.elim
  · exact h.elim
  · exact Network.Relates.step hR h event

/-! ## The cache -/

/-- The servers are the same but for the cache of the broker, which is current. -/
def SameButBrokerCache (cached plain : MqttServer ℕ) : Prop :=
  SameButCache cached.broker plain.broker

/-- A request keeps servers the same but for the cache, and they make the same calls. -/
lemma serverMachine_simulates :
    (serverMachine ℕ).Simulates (serverMachine ℕ) SameButBrokerCache := by
  rintro s s' ⟨c, r⟩ h
  cases r with
  | publish topic bytes =>
    refine ⟨SameButCache.publish h topic bytes, ?_⟩
    exact congrArg (List.map _) (SameButCache.calls_publish h topic bytes)
  | subscribe msgId topics => exact ⟨SameButCache.subscribe h c topics, rfl⟩
  | unsubscribe msgId topics => exact ⟨SameButCache.unsubscribeTopics h c topics, rfl⟩
  | disconnect => exact ⟨SameButCache.unsubscribeTopics h c [], rfl⟩
  | _ => exact ⟨h, rfl⟩

/-- **The cache is invisible in the network.**  In every run, whatever is read, called, transmitted
and destroyed in whatever order, and whatever is found in freed memory, the networks with and
without a cache make the same calls and come to the same fault or to states that differ in the cache
only: the same connections, buffers and sockets, with the same bytes received by the same peers. -/
theorem networkMachine_cache (events : List NetEvent) :
    let cached := networkMachine.run (.ok (.new true)) events
    let plain := networkMachine.run (.ok (.new false)) events
    SameOutcome (Network.Relates SameButBrokerCache) cached.1 plain.1 ∧ cached.2 = plain.2 := by
  have hstart : SameOutcome (Network.Relates SameButBrokerCache) (.ok (.new true))
      (.ok (.new false)) :=
    ⟨⟨rfl, rfl, rfl, rfl, sameButCache_new⟩, .none, rfl, rfl⟩
  exact Machine.run_simulation (networkMachine_simulates serverMachine_simulates) hstart events

end Simulation

end MqttCpp
