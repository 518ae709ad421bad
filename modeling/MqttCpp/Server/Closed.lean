import MqttCpp.Server.Trace

/-!
# Connections that are closed, and a server that is stopped

A connection is live while a read of it is under way that was started on an open socket.  Once it is
not, whatever has ended it, none of its events has an effect any more: a run does the same without
them (`closed_silent`).

A signal closes the acceptor and the sockets of the registered connections, but the reads that are
under way may have got their bytes already.  Each of them can be handled still, once, and nothing
else is read, called or accepted any more (`signal_final`).
-/

namespace MqttCpp

/-- The connection of which a read ends with the event. -/
def TcpEvent.isReadOf (c : ℕ) : TcpEvent → Bool
  | .read c' _ _ => decide (c' = c)
  | .readError c' => decide (c' = c)
  | .readAborted c' => decide (c' = c)
  | .accept => false
  | .signal => false

namespace MqttTcpServer

/-- The connection has been made and is not live any more. -/
structure Closed (w : MqttTcpServer) (c : ℕ) : Prop where
  made : c < w.made
  dead : ¬(w.connection c).Live

/-- The servers differ in a closed connection at most. -/
structure SameButFor (c : ℕ) (w w' : MqttTcpServer) : Prop where
  made_eq : w.made = w'.made
  mqttServer_eq : w.mqttServer = w'.mqttServer
  acceptorOpen_eq : w.acceptorOpen = w'.acceptorOpen
  connection_eq : ∀ x, x ≠ c → w.connection x = w'.connection x
  member_iff : ∀ x, x ≠ c → (x ∈ w.connections ↔ x ∈ w'.connections)
  closed : w.Closed c
  closed' : w'.Closed c

/-- Both have come to the same fault, or they differ in a closed connection at most. -/
def AgreeBut (c : ℕ) : Except Fault MqttTcpServer → Except Fault MqttTcpServer → Prop :=
  SameOutcome (SameButFor c)

namespace SameButFor

variable {w w' : MqttTcpServer} {c : ℕ}

/-- Changing another connection in a way that brings it to life, or the closed one in a way that
does not. -/
lemma modify (h : SameButFor c w w') (x : ℕ) {f : Connection → Connection}
    (hf : x = c → ∀ k, ¬k.Live → ¬(f k).Live) : SameButFor c (w.modify x f) (w'.modify x f) := by
  have hdead : ∀ v : MqttTcpServer, v.Closed c → (v.modify x f).Closed c := by
    intro v hv
    refine ⟨hv.made, ?_⟩
    rcases eq_or_ne c x with rfl | hne
    · rw [connection_modify_self]
      exact hf rfl _ hv.dead
    · rw [connection_modify_of_ne v hne]
      exact hv.dead
  refine ⟨h.made_eq, h.mqttServer_eq, h.acceptorOpen_eq, fun y hy => ?_, h.member_iff,
    hdead w h.closed, hdead w' h.closed'⟩
  rcases eq_or_ne y x with rfl | hne
  · rw [connection_modify_self, connection_modify_self, h.connection_eq y hy]
  · rw [connection_modify_of_ne w hne, connection_modify_of_ne w' hne]
    exact h.connection_eq y hy

/-- A connection that is accepted is another one. -/
lemma doAccept (h : SameButFor c w w') : SameButFor c w.doAccept w'.doAccept := by
  by_cases hopen : w.acceptorOpen = true
  · have hopen' : w'.acceptorOpen = true := h.acceptorOpen_eq.symm.trans hopen
    have hclosed : ∀ v : MqttTcpServer, v.acceptorOpen = true → v.Closed c →
        v.doAccept.Closed c := by
      intro v hv hc
      have hne : c ≠ v.made := Nat.ne_of_lt hc.made
      refine ⟨?_, ?_⟩
      · rw [made_doAccept hv]
        exact Nat.lt_succ_of_lt hc.made
      · rw [connection_doAccept_of_ne v hne]
        exact hc.dead
    refine ⟨?_, ?_, ?_, fun x hx => ?_, fun x hx => ?_, hclosed w hopen h.closed,
      hclosed w' hopen' h.closed'⟩
    · rw [made_doAccept hopen, made_doAccept hopen', h.made_eq]
    · rw [mqttServer_doAccept, mqttServer_doAccept, h.mqttServer_eq]
    · rw [MqttTcpServer.doAccept, MqttTcpServer.doAccept, if_pos hopen, if_pos hopen']
      exact h.acceptorOpen_eq
    · rcases eq_or_ne x w.made with rfl | hne
      · rw [connection_doAccept hopen, h.made_eq, connection_doAccept hopen']
      · have hne' : x ≠ w'.made := h.made_eq ▸ hne
        rw [connection_doAccept_of_ne w hne, connection_doAccept_of_ne w' hne']
        exact h.connection_eq x hx
    · rw [connections_doAccept hopen, connections_doAccept hopen', Finset.mem_insert,
        Finset.mem_insert, h.made_eq, h.member_iff x hx]
  · have hclosed : ¬w'.acceptorOpen = true := by rwa [← h.acceptorOpen_eq]
    rw [doAccept_of_closed hopen, doAccept_of_closed hclosed]
    exact h

/-- The manager stops another connection. -/
lemma stop (h : SameButFor c w w') {x : ℕ} (hx : x ≠ c) :
    SameButFor c (ConnectionManager.stop w x) (ConnectionManager.stop w' x) := by
  have herased : SameButFor c { w with connections := w.connections.erase x }
      { w' with connections := w'.connections.erase x } :=
    ⟨h.made_eq, h.mqttServer_eq, h.acceptorOpen_eq, h.connection_eq,
      fun y hy => by simp [h.member_iff y hy],
      ⟨h.closed.made, h.closed.dead⟩, ⟨h.closed'.made, h.closed'.dead⟩⟩
  exact herased.modify x fun hxc => absurd hxc hx

/-- The manager stops all connections. -/
lemma doAwaitStop (h : SameButFor c w w') :
    SameButFor c w.doAwaitStop w'.doAwaitStop where
  made_eq := h.made_eq
  mqttServer_eq := h.mqttServer_eq
  acceptorOpen_eq := rfl
  connection_eq x hx := by
    change (if x ∈ w.connections then (w.connection x).stop else w.connection x) =
      if x ∈ w'.connections then (w'.connection x).stop else w'.connection x
    simp only [h.member_iff x hx, h.connection_eq x hx]
  member_iff x hx := Iff.rfl
  closed := ⟨h.closed.made, fun hlive => h.closed.dead ((live_doAwaitStop_iff w c).mp hlive)⟩
  closed' := ⟨h.closed'.made, fun hlive => h.closed'.dead ((live_doAwaitStop_iff w' c).mp hlive)⟩

/-- The effects of a read of another connection and its stream. -/
lemma afterRead (h : SameButFor c w w') {x : ℕ} (hx : x ≠ c) (stream : MqttStream)
    (mqttServer : MqttServer ℕ) (effects : List (Effect ℕ)) :
    SameButFor c (w.afterRead x stream mqttServer effects)
      (w'.afterRead x stream mqttServer effects) := by
  have hserver : SameButFor c { w with mqttServer } { w' with mqttServer } :=
    ⟨h.made_eq, rfl, h.acceptorOpen_eq, h.connection_eq, h.member_iff,
      ⟨h.closed.made, h.closed.dead⟩, ⟨h.closed'.made, h.closed'.dead⟩⟩
  have heffects : ∀ v v' : MqttTcpServer, SameButFor c v v' →
      SameButFor c (effects.foldl applyEffect v) (effects.foldl applyEffect v') := by
    induction effects with
    | nil => exact fun v v' hv => hv
    | cons effect effects ih =>
      intro v v' hv
      apply ih
      cases effect with
      | newMessage y bytes => exact hv
      | disconnect y => exact hv.modify y fun _ k => k.live_disconnect_iff.not.mpr
  unfold MqttTcpServer.afterRead
  refine (heffects _ _ ?_).modify x fun hxc => absurd hxc hx
  exact hserver.modify x fun hxc => absurd hxc hx

/-- A server stays as it is but for a closed connection that is changed and remains closed. -/
lemma modify_left (h : SameButFor c w w') {f : Connection → Connection}
    (hf : ∀ k, ¬k.Live → ¬(f k).Live) {members : Finset ℕ}
    (hmembers : ∀ x, x ≠ c → (x ∈ members ↔ x ∈ w.connections)) :
    SameButFor c { w.modify c f with connections := members } w' where
  made_eq := h.made_eq
  mqttServer_eq := h.mqttServer_eq
  acceptorOpen_eq := h.acceptorOpen_eq
  connection_eq x hx := (connection_modify_of_ne w hx f).trans (h.connection_eq x hx)
  member_iff x hx := (hmembers x hx).trans (h.member_iff x hx)
  closed := by
    refine ⟨h.closed.made, ?_⟩
    change ¬((w.modify c f).connection c).Live
    rw [connection_modify_self]
    exact hf _ h.closed.dead
  closed' := h.closed'

variable [BoostSplit]

/-- **An event that is no read of the closed connection** does the same to both. -/
theorem handle (h : SameButFor c w w') {event : TcpEvent} (hevent : event.isReadOf c = false) :
    AgreeBut c (w.handle event).1 (w'.handle event).1 ∧
      (w.handle event).2 = (w'.handle event).2 := by
  cases event with
  | accept => exact ⟨h.doAccept, rfl⟩
  | read x chunk beyond =>
    have hx : x ≠ c := by simpa [TcpEvent.isReadOf] using hevent
    rw [MqttTcpServer.handle, MqttTcpServer.handle, handleRead_eq, handleRead_eq,
      ← h.connection_eq x hx, ← h.mqttServer_eq]
    split
    · refine ⟨?_, rfl⟩
      cases hresult : (readRequests beyond ((w.connection x).stream.messages chunk)).2 with
      | error e =>
        simp only [hresult]
        exact rfl
      | ok u =>
        simp only [hresult]
        exact h.afterRead hx _ _ _
    · exact ⟨h, rfl⟩
  | readError x =>
    have hx : x ≠ c := by simpa [TcpEvent.isReadOf] using hevent
    rw [MqttTcpServer.handle, MqttTcpServer.handle, ← h.connection_eq x hx]
    split
    · refine ⟨?_, rfl⟩
      have hfinished : SameButFor c (w.modify x Connection.finishRead)
          (w'.modify x Connection.finishRead) := h.modify x fun hxc => absurd hxc hx
      exact hfinished.stop hx
    · exact ⟨h, rfl⟩
  | readAborted x =>
    have hx : x ≠ c := by simpa [TcpEvent.isReadOf] using hevent
    exact ⟨h.modify x fun hxc => absurd hxc hx, rfl⟩
  | signal => exact ⟨h.doAwaitStop, rfl⟩

/-- **A read of the closed connection has no effect**, and the connection stays closed. -/
theorem handle_isReadOf (h : SameButFor c w w') {event : TcpEvent}
    (hevent : event.isReadOf c = true) :
    AgreeBut c (w.handle event).1 (.ok w') ∧ (w.handle event).2 = [] := by
  cases event with
  | accept => cases hevent
  | signal => cases hevent
  | read x chunk beyond =>
    obtain rfl : x = c := by simpa [TcpEvent.isReadOf] using hevent
    rw [MqttTcpServer.handle, if_neg fun hread => h.closed.dead hread.1]
    exact ⟨h, rfl⟩
  | readError x =>
    obtain rfl : x = c := by simpa [TcpEvent.isReadOf] using hevent
    rw [MqttTcpServer.handle]
    split
    · refine ⟨?_, rfl⟩
      rw [stop_finishRead_eq]
      have hdead : ∀ k : Connection, ¬k.Live → ¬k.finishRead.stop.Live :=
        fun k _ => k.not_live_finishRead
      exact h.modify_left hdead fun y hy => by simp [hy]
    · exact ⟨h, rfl⟩
  | readAborted x =>
    obtain rfl : x = c := by simpa [TcpEvent.isReadOf] using hevent
    exact ⟨h.modify_left (fun k _ => k.not_live_finishRead) fun y _ => Iff.rfl, rfl⟩

end SameButFor

end MqttTcpServer

/-! ## Runs -/

open MqttTcpServer

section Runs

variable [BoostSplit]

/-- **A closed connection is silent.**  Once a connection that has been made is not live, whatever
has ended it, a run calls the same connections with the same bytes as without the reads of it, and
ends in the same state but for that connection, which is closed still. -/
theorem closed_silent {w : MqttTcpServer} {c : ℕ} (h : w.Closed c) (events : List TcpEvent) :
    let others := events.filter fun event => !event.isReadOf c
    AgreeBut c (tcpServerMachine.run (.ok w) events).1 (tcpServerMachine.run (.ok w) others).1 ∧
      (tcpServerMachine.run (.ok w) events).2 = (tcpServerMachine.run (.ok w) others).2 := by
  intro others
  have hstart : AgreeBut c (.ok w) (.ok w) :=
    ⟨rfl, rfl, rfl, fun _ _ => rfl, fun _ _ => Iff.rfl, h, h⟩
  refine Machine.run_filter_eq (R := AgreeBut c) ?_ ?_ hstart events
  · rintro (e | v) (e' | v') event hv hevent
    · exact ⟨hv, rfl⟩
    · cases hv
    · cases hv
    · exact SameButFor.handle hv (by simpa using hevent)
  · rintro (e | v) (e' | v') event hv hevent
    · exact ⟨hv, rfl⟩
    · cases hv
    · cases hv
    · exact SameButFor.handle_isReadOf hv (by simpa using hevent)

end Runs

/-- A read of a connection fails, and nevertheless bytes are said to come from it. -/
theorem closed_silent_after_readError :
    let _ := boostSplit
    let w : MqttTcpServer :=
      ConnectionManager.stop ((MqttTcpServer.new true).doAccept.modify 0 Connection.finishRead) 0
    AgreeBut 0
        (tcpServerMachine.run (.ok w) [.read 0 subscribeToA fun _ => [], .accept, .readError 0]).1
        (tcpServerMachine.run (.ok w) [.accept]).1 ∧
      (tcpServerMachine.run (.ok w) [.read 0 subscribeToA fun _ => [], .accept, .readError 0]).2 =
        (tcpServerMachine.run (.ok w) [.accept]).2 := by
  intro _ w
  have hclosed : w.Closed 0 := by
    refine ⟨by decide, ?_⟩
    rintro ⟨hreading, -⟩
    cases hreading
  exact closed_silent hclosed [.read 0 subscribeToA fun _ => [], .accept, .readError 0]

/-! ## After a signal -/

section Signal

variable [BoostSplit]

namespace MqttTcpServer

/-- What is read behind a signal: of connections that were live when it came, once of each. -/
structure OnceEach (w : MqttTcpServer) (reads : List HandledRead) : Prop where
  once : (reads.map HandledRead.connection).Nodup
  live : ∀ r ∈ reads, (w.connection r.connection).Live

/-- The server behind a signal, which came when it was `w`, and the reads that it has handled since.
Bytes can arrive only of connections of which they could when the signal came, and of which nothing
has been read since. -/
structure Late (w : MqttTcpServer) (reads : List HandledRead) (w' : MqttTcpServer) : Prop where
  sound : w'.Sound
  made_eq : w'.made = w.made
  acceptorOpen_eq : w'.acceptorOpen = false
  shut : ∀ c ∈ w.connections, (w'.connection c).isOpen = false
  pending : ∀ c, (w'.connection c).Live →
    (w.connection c).Live ∧ ∀ r ∈ reads, r.connection ≠ c

namespace Late

variable {w w' : MqttTcpServer} {reads : List HandledRead}

/-- It stays so when no read is handled. -/
lemma of_idles (h : Late w reads w') {w₀ : MqttTcpServer} (hidles : w'.Idles w₀)
    (hsound : w₀.Sound) (hclosed : w₀.acceptorOpen = false) : Late w reads w₀ where
  sound := hsound
  made_eq := hidles.made_eq.trans h.made_eq
  acceptorOpen_eq := hclosed
  shut c hc := by
    have hshut := h.shut c hc
    rw [Bool.eq_false_iff] at hshut ⊢
    exact fun hopen => hshut ((hidles.connection c).isOpen_of hopen)
  pending c hc := h.pending c ((hidles.connection c).live_of hc)

/-- The read of a connection leaves nothing that can arrive of it. -/
lemma readNext (h : Late w reads w') {c : ℕ} {chunk : Bytes} {beyond : Span → Bytes}
    (hc : (w'.connection c).Live) :
    Late w (reads ++ [{ connection := c, chunk, requests := w'.requests c chunk beyond }])
      (w'.readNext c chunk beyond) where
  sound := h.sound.readNext hc chunk beyond
  made_eq := (made_readNext chunk beyond).trans h.made_eq
  acceptorOpen_eq := (acceptorOpen_readNext chunk beyond).trans h.acceptorOpen_eq
  shut x hx := by
    have hshut := h.shut x hx
    rw [Bool.eq_false_iff] at hshut ⊢
    exact fun hopen => hshut (isOpen_of_readNext hopen)
  pending x hx := by
    have hne : x ≠ c := by
      rintro rfl
      have hopen := ((live_readNext_self_iff chunk beyond).mp hx).2.2
      rw [h.sound.isOpen_eq x hc, h.acceptorOpen_eq] at hopen
      exact Bool.false_ne_true hopen
    rw [connection_readNext_of_ne hne] at hx
    obtain ⟨hlive, hfresh⟩ := h.pending x hx
    refine ⟨hlive, fun r hr => ?_⟩
    rcases List.mem_append.mp hr with hr | hr
    · exact hfresh r hr
    · rw [List.mem_singleton.mp hr]
      exact hne.symm

/-- **Behind a signal every event** handles a read that was under way, or none. -/
theorem handle (h : Late w reads w') (hreads : OnceEach w reads) (event : TcpEvent) :
    OnceEach w (reads ++ w'.handled event) ∧
      Holds (Late w (reads ++ w'.handled event)) (w'.handle event).1 := by
  have hnone : OnceEach w (reads ++ []) := by rwa [List.append_nil]
  have hsound := h.sound.handle event
  cases event with
  | accept =>
    have hclosed : ¬w'.acceptorOpen = true := by simp [h.acceptorOpen_eq]
    refine ⟨hnone, ?_⟩
    change Late w (reads ++ []) w'.doAccept
    rwa [List.append_nil, doAccept_of_closed hclosed]
  | read c chunk beyond =>
    rw [handled]
    split
    · rename_i hread
      obtain ⟨hlive, hfresh⟩ := h.pending c hread.1
      refine ⟨⟨?_, fun r hr => ?_⟩, holds_readNext hread fun _ => h.readNext hread.1⟩
      · rw [List.map_append]
        refine hreads.once.append (List.nodup_singleton _) fun x hx hc => ?_
        obtain ⟨r, hr, rfl⟩ := List.mem_map.mp hx
        exact hfresh r hr (List.mem_singleton.mp hc)
      · rcases List.mem_append.mp hr with hr | hr
        · exact hreads.live r hr
        · rwa [List.mem_singleton.mp hr]
    · rename_i hread
      rw [MqttTcpServer.handle, if_neg hread, List.append_nil]
      exact ⟨hreads, h⟩
  | readError c =>
    refine ⟨hnone, ?_⟩
    change Holds (Late w (reads ++ [])) _
    rw [List.append_nil]
    by_cases hreading : (w'.connection c).reading = true
    · rw [MqttTcpServer.handle, if_pos hreading] at hsound ⊢
      exact h.of_idles (idles_stop w' c) hsound h.acceptorOpen_eq
    · rw [MqttTcpServer.handle, if_neg hreading]
      exact h
  | readAborted c =>
    refine ⟨hnone, ?_⟩
    change Late w (reads ++ []) _
    rw [List.append_nil]
    exact h.of_idles (idles_finishRead w' c) hsound h.acceptorOpen_eq
  | signal =>
    refine ⟨hnone, ?_⟩
    change Late w (reads ++ []) _
    rw [List.append_nil]
    exact h.of_idles (idles_doAwaitStop w') hsound rfl

end Late

/-- A signal makes the server late. -/
lemma late_doAwaitStop {w : MqttTcpServer} (h : w.Sound) : Late w [] w.doAwaitStop where
  sound := h.handle .signal
  made_eq := rfl
  acceptorOpen_eq := rfl
  shut _ hc := isOpen_doAwaitStop hc
  pending c hc := ⟨(live_doAwaitStop_iff w c).mp hc, fun _ hr => absurd hr List.not_mem_nil⟩

end MqttTcpServer

/-- **After a signal only what is under way is finished.**  When a signal comes, whatever has
happened before it, nobody is accepted any more, nobody is registered, and the sockets of those who
were are closed and stay so.  The reads that are handled behind it are of connections that were live
when it came, one of each at most; what is called behind it is what their requests call, one after
the other, and the subscriptions change by these only. -/
theorem signal_final (useCache : Bool) (before behind : List TcpEvent) {w : MqttTcpServer}
    (h : (tcpServerMachine.run (.ok (.new useCache)) before).1 = .ok w) :
    let run := tcpServerMachine.run (.ok (.new useCache)) (before ++ .signal :: behind)
    let reads := tcpServerMachine.trace handledReads (.ok w.doAwaitStop) behind
    let late := (serverMachine ℕ).run w.mqttServer (inputsOf reads)
    ((reads.map HandledRead.connection).Nodup ∧
        ∀ r ∈ reads, (w.connection r.connection).Live) ∧
      run.2 = (tcpServerMachine.run (.ok (.new useCache)) before).2 ++ late.2 ∧
      Holds (fun w' => w'.made = w.made ∧ w'.acceptorOpen = false ∧ w'.connections = ∅ ∧
        (∀ c ∈ w.connections, (w'.connection c).isOpen = false) ∧
        w'.mqttServer = late.1) run.1 := by
  intro run reads late
  have hsound := (always_sound useCache before).last
  rw [h] at hsound
  have hstep : ∀ (r : Except Fault MqttTcpServer) (reads : List HandledRead) (event : TcpEvent),
      OnceEach w reads ∧ Holds (Late w reads) r →
        OnceEach w (reads ++ handledReads r event) ∧
          Holds (Late w (reads ++ handledReads r event)) (tcpServerMachine.step r event).1 := by
    rintro (e | w') reads event ⟨hreads, hlate⟩
    · refine ⟨?_, trivial⟩
      change OnceEach w (reads ++ [])
      rwa [List.append_nil]
    · exact Late.handle hlate hreads event
  have hstart : OnceEach w [] ∧ Holds (Late w []) (.ok w.doAwaitStop) :=
    ⟨⟨List.nodup_nil, fun r hr => absurd hr List.not_mem_nil⟩, late_doAwaitStop hsound⟩
  have hlast := Machine.trace_invariant
    (Q := fun r reads => OnceEach w reads ∧ Holds (Late w reads) r) hstep hstart behind
  obtain ⟨hserver, hcalls⟩ := run_eq_run_trace w.doAwaitStop behind
  have hsignal : tcpServerMachine.step (.ok w) .signal = (.ok w.doAwaitStop, []) := rfl
  have hrun : run = ((tcpServerMachine.run (.ok w.doAwaitStop) behind).1,
      (tcpServerMachine.run (.ok (.new useCache)) before).2 ++
        (tcpServerMachine.run (.ok w.doAwaitStop) behind).2) := by
    change tcpServerMachine.run _ (before ++ .signal :: behind) = _
    rw [Machine.run_append, Machine.run_cons, h, hsignal]
    rfl
  obtain ⟨⟨honce, hlive⟩, hfinal⟩ := hlast
  rw [hrun]
  refine ⟨⟨honce, hlive⟩, congrArg _ hcalls, (hfinal.and hserver).mono ?_⟩
  rintro w' ⟨hlate, hserver⟩
  exact ⟨hlate.made_eq, hlate.acceptorOpen_eq, hlate.sound.stopped hlate.acceptorOpen_eq,
    hlate.shut, hserver⟩

end Signal

/-- A client connects, a signal comes, and the SUBSCRIBE that the client has sent by then is handled
behind it. -/
def subscribeAtSignal : List TcpEvent :=
  [.accept] ++ .signal :: [.read 0 subscribeToA fun _ => []]

/-- It is answered, on a socket that is closed. -/
theorem signal_final_subscribe :
    let _ := boostSplit
    let run := tcpServerMachine.run (.ok (.new true)) subscribeAtSignal
    run.2 = [.newMessage 0 [0x90, 3, 0, 1, 0]] ∧
      Holds (fun w => w.made = 1 ∧ w.acceptorOpen = false ∧ w.connections = ∅ ∧
        (w.connection 0).isOpen = false) run.1 := by
  intro _ run
  let w := (MqttTcpServer.new true).doAccept
  have hread := live_doAccept (w := MqttTcpServer.new true) rfl
    (by decide : subscribeToA.length ≤ numStreamBytes)
  have hrequests := readRequests_subscribeToA (w := MqttTcpServer.new true) rfl fun _ => []
  have hstream := ((idles_doAwaitStop w).connection 0).stream_eq
  -- the read was under way when the signal came
  have hlate : (w.doAwaitStop.connection 0).Live ∧
      subscribeToA.length ≤ (w.doAwaitStop.connection 0).stream.readableDataSize := by
    refine ⟨(live_doAwaitStop_iff w 0).mpr hread.1, ?_⟩
    rw [hstream]
    exact hread.2
  have hpassed : w.doAwaitStop.requests 0 subscribeToA (fun _ => []) =
      [.subscribe 1 [{ topic := [97], qos := 0 }]] := by
    rw [requests, hstream]
    exact congrArg Prod.fst hrequests
  have hreads : tcpServerMachine.trace handledReads (.ok w.doAwaitStop)
      [.read 0 subscribeToA fun _ => []] =
        [{ connection := 0, chunk := subscribeToA,
           requests := [.subscribe 1 [{ topic := [97], qos := 0 }]] }] := by
    rw [Machine.trace_cons, Machine.trace_nil, List.append_nil, handledReads, handled,
      if_pos hlate, hpassed]
  have hfinal := signal_final true [.accept] [.read 0 subscribeToA fun _ => []] (w := w) rfl
  have hrun : tcpServerMachine.run (.ok (.new true))
      ([.accept] ++ .signal :: [.read 0 subscribeToA fun _ => []]) = run := rfl
  rw [hreads, hrun] at hfinal
  clear_value run
  obtain ⟨-, hcalls, hlast⟩ := hfinal
  refine ⟨hcalls, hlast.mono ?_⟩
  rintro w ⟨hmade, hclosed, hconnections, hshut, -⟩
  exact ⟨hmade, hclosed, hconnections, hshut 0 (by decide)⟩

end MqttCpp
