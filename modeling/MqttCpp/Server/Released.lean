import MqttCpp.Server.Disconnect

/-!
# Connections that have ended and stay with the manager

A connection can end in three ways.  When its read fails, the manager gives it up and closes it; on
a signal, the manager closes and gives up all; and a DISCONNECT makes the connection close itself,
without a word to the manager.  So every connection of the manager is open, in every state of a run,
exactly when no read of a connection that it holds passes a DISCONNECT on.
-/

namespace MqttCpp

namespace MqttTcpServer

variable {w : MqttTcpServer} {c : ℕ}

/-- Every connection that the manager holds has processed no DISCONNECT, and its socket is open. -/
def Released (w : MqttTcpServer) : Prop :=
  ∀ c ∈ w.connections, (w.connection c).connected = true ∧ (w.connection c).isOpen = true

/-- No read of a connection that the manager holds, if it ends without a fault, passes a DISCONNECT
on. -/
def PassesNoDisconnect (w : MqttTcpServer) : TcpEvent → Prop
  | .read c chunk beyond =>
    (w.connection c).Live ∧ chunk.length ≤ (w.connection c).stream.readableDataSize →
      (readRequests beyond ((w.connection c).stream.messages chunk)).2 = .ok () →
        c ∈ w.connections → .disconnect ∉ w.requests c chunk beyond
  | _ => True

/-! ## What the events do -/

/-- A new connection is open. -/
lemma Released.doAccept (h : w.Released) : w.doAccept.Released := by
  by_cases hopen : w.acceptorOpen = true
  · intro c hc
    rcases eq_or_ne c w.made with rfl | hne
    · rw [connection_doAccept hopen]
      exact ⟨rfl, rfl⟩
    · rw [connections_doAccept hopen] at hc
      rw [connection_doAccept_of_ne w hne]
      exact h c (Finset.mem_of_mem_insert_of_ne hc hne)
  · rw [doAccept_of_closed hopen]
    exact h

/-- The handler of a read closes nothing. -/
lemma Released.finishRead (h : w.Released) (c : ℕ) :
    (w.modify c Connection.finishRead).Released := by
  intro c' hc'
  rcases eq_or_ne c' c with rfl | hne
  · rw [connection_modify_self]
    exact h c' hc'
  · rw [connection_modify_of_ne _ hne]
    exact h c' hc'

/-- Whom the manager stops, it does not hold any more. -/
lemma Released.stop (h : w.Released) (c : ℕ) : (ConnectionManager.stop w c).Released := by
  intro c' hc'
  obtain ⟨hne, hmem⟩ := Finset.mem_erase.mp hc'
  rw [ConnectionManager.stop, connection_modify_of_ne _ hne]
  exact h c' hmem

variable [BoostSplit]

/-- A read keeps the connections of the manager open, if it passes no DISCONNECT of one of them
on. -/
lemma Released.readNext (h : w.Released) {chunk : Bytes} {beyond : Span → Bytes}
    (hnone : c ∈ w.connections → .disconnect ∉ w.requests c chunk beyond) :
    (w.readNext c chunk beyond).Released := by
  intro c' hc'
  rw [connections_readNext] at hc'
  obtain ⟨hconnected, hopen⟩ := h c' hc'
  rcases eq_or_ne c' c with rfl | hne
  · have hnone := hnone hc'
    rw [(connection_readNext_self chunk beyond).1, isOpen_readNext_self hnone, hconnected, hopen]
    simp [hnone]
  · rw [connection_readNext_of_ne hne]
    exact ⟨hconnected, hopen⟩

/-- **Every event that passes no DISCONNECT on keeps the connections of the manager open.** -/
theorem Released.handle (h : w.Released) {event : TcpEvent} (hevent : w.PassesNoDisconnect event) :
    Holds Released (w.handle event).1 := by
  cases event with
  | accept => exact h.doAccept
  | read c chunk beyond =>
    exact holds_handle_read h fun hread hok => h.readNext (hevent hread hok)
  | readError c => exact holds_handle_readError h fun _ => (h.finishRead c).stop c
  | readAborted c => exact h.finishRead c
  | signal => exact fun c hc => absurd hc (Finset.notMem_empty c)

/-- An event that passes a DISCONNECT on leaves a connection with the manager that has ended. -/
lemma passesNoDisconnect_of_released {event : TcpEvent}
    (hnext : Holds Released (w.handle event).1) : w.PassesNoDisconnect event := by
  cases event with
  | read c chunk beyond =>
    intro hread hok hheld hmem
    rw [handle_read_of_ok hread hok] at hnext
    have hc : c ∈ (w.readNext c chunk beyond).connections := by rwa [connections_readNext]
    have hconnected := (hnext c hc).1
    rw [(connection_readNext_self chunk beyond).1] at hconnected
    simp [hmem] at hconnected
  | _ => trivial

end MqttTcpServer

/-! ## Runs -/

open MqttTcpServer

/-- **Every connection that the manager holds is open**, in every state of a run, if and only if no
read of a connection that it holds passes a DISCONNECT on. -/
theorem always_released_iff [BoostSplit] (useCache : Bool) (events : List TcpEvent) :
    let start : Except Fault MqttTcpServer := .ok (.new useCache)
    tcpServerMachine.Always (Holds Released) start events ↔
      tcpServerMachine.Along (BeforeEvent PassesNoDisconnect) start events := by
  intro start
  constructor
  · intro hreleased
    refine Machine.along_of_always ?_ hreleased
    rintro (e | w) event - hafter
    · trivial
    · exact passesNoDisconnect_of_released hafter
  · intro hnone
    have hstart : Holds Released start := fun c hc => absurd hc (Finset.notMem_empty c)
    refine Machine.always_of_along ?_ hstart hnone
    rintro (e | w) event h hP
    · trivial
    · exact h.handle hP

/-- The bytes of a DISCONNECT. -/
def disconnectBytes : Bytes := [0xe0, 0]

/-- A new connection passes such a message on. -/
lemma readRequests_disconnectBytes {w : MqttTcpServer} (h : w.acceptorOpen = true)
    (beyond : Span → Bytes) :
    readRequests beyond ((w.doAccept.connection w.made).stream.messages disconnectBytes) =
      ([.disconnect], .ok ()) := by
  obtain ⟨msg, hmsgs, hmsg⟩ := MqttStream.exists_messages_eq_of_cut_eq
    (by decide : disconnectBytes.length ≤ numStreamBytes)
    (by decide +kernel : MqttStream.messageFramer.cut disconnectBytes = ([disconnectBytes], []))
  have hrequest : readRequest msg (beyond msg) = .ok .disconnect := by
    unfold readRequest
    rw [getMessageType_eq hmsg]
    rfl
  rw [connection_doAccept h]
  change readRequests beyond ((MqttStream.new numStreamBytes).messages _) = _
  rw [hmsgs, readRequests, hrequest]
  rfl

/-- When a new connection disconnects, the manager keeps it. -/
lemma not_always_released_of_disconnect [BoostSplit] {w : MqttTcpServer}
    (h : w.acceptorOpen = true) (beyond : Span → Bytes) :
    ¬tcpServerMachine.Always (Holds Released) (.ok w)
      [.accept, .read w.made disconnectBytes beyond] := by
  intro halways
  have hrequests := readRequests_disconnectBytes h beyond
  have hread := live_doAccept h (by decide : disconnectBytes.length ≤ numStreamBytes)
  have haccept : w.handle .accept = (.ok w.doAccept, []) := rfl
  rw [Machine.Always, tcpServerMachine_step_ok, haccept, Machine.Always,
    tcpServerMachine_step_ok, Machine.Always] at halways
  have hnone := passesNoDisconnect_of_released halways.2.2 hread (congrArg Prod.snd hrequests)
  refine hnone ?_ ?_
  · rw [connections_doAccept h]
    exact Finset.mem_insert_self _ _
  · rw [requests, hrequests]
    exact List.mem_singleton_self _

/-- A client connects to a new server and says goodbye. -/
theorem not_always_released :
    let _ := boostSplit
    ¬tcpServerMachine.Always (Holds Released) (.ok (.new false))
      [.accept, .read 0 disconnectBytes fun _ => []] := by
  intro _
  exact not_always_released_of_disconnect (w := MqttTcpServer.new false) rfl fun _ => []

end MqttCpp
