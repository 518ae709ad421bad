import MqttCpp.Server.Connection
import MqttCpp.Server.Decoding
import MqttCpp.Server.Malformed

/-!
# What frames ask for on their own

What a frame asks for can be made out from its own bytes, if they hold what it says they hold; then
it is made out wherever the frame stands (`readRequest_eq_of_requestOf`).  A PUBLISH may say that
its topic goes on behind it, and then finds what the buffer of the stream holds there.  A
decerealiser finds nothing of that: it has a copy of the message, and behind the copy there may be
anything.

The server never depends on what stands behind the copies, unless it is missed: a run that has no
fault with nothing there is the same whatever is there (`run_nothing_behind_iff`).
-/

namespace MqttCpp

open MqttStream

/-! ## Frames on their own -/

/-- What a frame asks for, made out from its own bytes; there may be nothing behind them. -/
def requestOf (frame : Bytes) : Option Request := (readRequest (.ofBytes frame) []).toOption

/-- The request that is made out is the one that is read when nothing stands behind the frame. -/
lemma requestOf_eq_some_iff {frame : Bytes} {r : Request} :
    requestOf frame = some r ↔ readRequest (.ofBytes frame) [] = .ok r := by
  unfold requestOf
  cases readRequest (.ofBytes frame) [] with
  | error e => simp [Except.toOption]
  | ok r' => simp [Except.toOption]

/-- The topic of a frame that is inside its bytes is read wherever the frame stands. -/
lemma readTopic_eq_of_ofBytes {msg : Span} {topic : Str}
    (h : (getPublishTopic (.ofBytes msg.bytes) >>= CStringSpan.toString) = .ok topic) :
    (getPublishTopic msg >>= CStringSpan.toString) = .ok topic := by
  have hsize : (Span.ofBytes msg.bytes).size = msg.size := msg.length_bytes
  rw [readTopic_eq_ok_iff, Span.bytes_ofBytes, hsize] at h
  rw [readTopic_eq_ok_iff]
  rcases h with ⟨hlt, rfl⟩ | ⟨hgt, hroom, rfl⟩
  · exact Or.inl ⟨hlt, rfl⟩
  · have hinside : 4 + declaredLength msg.bytes ≤ msg.size := by
      rwa [← msg.length_bytes]
    have hmem := msg.size_le
    have htopic : (msg.bytes.drop 4).take (declaredLength msg.bytes) =
        (msg.mem.drop 4).take (declaredLength msg.bytes) := by
      have hle : declaredLength msg.bytes ≤ msg.size - 4 := by omega
      generalize declaredLength msg.bytes = n at hle
      rw [Span.bytes, List.drop_take, List.take_take, Nat.min_eq_left hle]
    exact Or.inr ⟨hgt, by omega, htopic⟩

/-- **The memory behind the copy of a message is not looked at** unless it is missed: what is made
out of a message with nothing there is made out of it whatever is there. -/
theorem readRequest_eq_of_nothing_behind {msg : Span} {r : Request}
    (h : readRequest msg [] = .ok r) (hsize : msg.bytes.length < 2 ^ 31) (beyond : Bytes) :
    readRequest msg beyond = .ok r := by
  cases htype : getMessageType msg with
  | error e =>
    rw [readRequest, htype] at h
    cases h
  | ok type =>
    cases type with
    | subscribe =>
      have hread := h
      rw [readRequest_eq_of_subscribe htype] at hread
      cases hdecode : decode createSubscribe (.new msg.bytes []) with
      | error e =>
        rw [hdecode] at hread
        cases hread
      | ok p =>
        obtain ⟨b, ds, v, ts, hds, hts, hframe⟩ :=
          isListFrame_of_decode_eq_ok (MqttSubscribe.Topic.parses_cerealise {}) hsize hdecode
        have hcode := Except.ok.inj ((getMessageType_eq hframe).symm.trans htype)
        rw [readRequest_of_subscribe hcode hds v hts hsize hframe beyond,
          ← readRequest_of_subscribe hcode hds v hts hsize hframe [], h]
    | unsubscribe =>
      have hread := h
      rw [readRequest_eq_of_unsubscribe htype] at hread
      cases hdecode : decode createUnsubscribe (.new msg.bytes []) with
      | error e =>
        rw [hdecode] at hread
        cases hread
      | ok p =>
        obtain ⟨b, ds, v, topics, hds, htopics, hframe⟩ :=
          isListFrame_of_decode_eq_ok (parses_grainString []) hsize hdecode
        have hcode := Except.ok.inj ((getMessageType_eq hframe).symm.trans htype)
        rw [readRequest_of_unsubscribe hcode hds v htopics hsize hframe beyond,
          ← readRequest_of_unsubscribe hcode hds v htopics hsize hframe [], h]
    | publish => rwa [readRequest_eq_of_publish htype] at h ⊢
    | _ =>
      rw [readRequest, htype] at h ⊢
      exact h

/-- **A frame that can be made out from its own bytes is made out wherever it stands**, and whatever
a decerealiser finds behind its copy. -/
theorem readRequest_eq_of_requestOf {msg : Span} {r : Request} (h : requestOf msg.bytes = some r)
    (hsize : msg.bytes.length < 2 ^ 31) (beyond : Bytes) : readRequest msg beyond = .ok r := by
  rw [requestOf_eq_some_iff] at h
  refine readRequest_eq_of_nothing_behind ?_ hsize beyond
  cases hbytes : msg.bytes with
  | nil =>
    rw [hbytes] at h
    cases h
  | cons b rest =>
    have hown : (Span.ofBytes msg.bytes).bytes = b :: rest := by rw [Span.bytes_ofBytes, hbytes]
    have htype := getMessageType_eq hbytes
    have htype' := getMessageType_eq hown
    cases hcode : MqttType.ofCode (b >>> 4).toNat with
    | publish =>
      rw [hcode] at htype htype'
      rw [readRequest_eq_of_publish htype', Span.bytes_ofBytes] at h
      rw [readRequest_eq_of_publish htype]
      cases htopic : getPublishTopic (.ofBytes msg.bytes) >>= CStringSpan.toString with
      | error e =>
        rw [htopic] at h
        cases h
      | ok topic =>
        rw [htopic] at h
        rw [readTopic_eq_of_ofBytes htopic, ← Except.ok.inj h]
        rfl
    | subscribe =>
      rw [hcode] at htype htype'
      rwa [readRequest_eq_of_subscribe htype', Span.bytes_ofBytes,
        ← readRequest_eq_of_subscribe htype] at h
    | unsubscribe =>
      rw [hcode] at htype htype'
      rwa [readRequest_eq_of_unsubscribe htype', Span.bytes_ofBytes,
        ← readRequest_eq_of_unsubscribe htype] at h
    | _ =>
      rw [hcode] at htype htype'
      rw [readRequest, htype'] at h
      rw [readRequest, htype]
      exact h

/-- The messages of a read whose frames can be made out are all made out. -/
lemma readRequests_eq_of_requestOf {msgs : List Span} (beyond : Span → Bytes)
    (hsize : ∀ msg ∈ msgs, msg.bytes.length < 2 ^ 31)
    (h : ∀ msg ∈ msgs, ∃ r, requestOf msg.bytes = some r) :
    readRequests beyond msgs = ((msgs.map Span.bytes).filterMap requestOf, .ok ()) := by
  induction msgs with
  | nil => rfl
  | cons msg msgs ih =>
    obtain ⟨r, hr⟩ := h msg List.mem_cons_self
    have hread := readRequest_eq_of_requestOf hr (hsize msg List.mem_cons_self) (beyond msg)
    have hrest := ih (fun m hm => hsize m (List.mem_cons_of_mem msg hm))
      fun m hm => h m (List.mem_cons_of_mem msg hm)
    rw [readRequests, hread, hrest, List.map_cons, List.filterMap_cons, hr]

/-- If all the messages of a read are made out with nothing behind them, they are made out as the
same whatever is there. -/
lemma readRequests_eq_of_nothing_behind {msgs : List Span}
    (hsize : ∀ msg ∈ msgs, msg.bytes.length < 2 ^ 31)
    (h : (readRequests (fun _ => []) msgs).2 = .ok ()) (beyond : Span → Bytes) :
    readRequests beyond msgs = readRequests (fun _ => []) msgs := by
  induction msgs with
  | nil => rfl
  | cons msg msgs ih =>
    unfold readRequests at h ⊢
    cases hread : readRequest msg [] with
    | error e =>
      rw [hread] at h
      cases h
    | ok r =>
      rw [hread] at h
      rw [readRequest_eq_of_nothing_behind hread (hsize msg List.mem_cons_self)]
      simp only
      rw [ih (fun m hm => hsize m (List.mem_cons_of_mem msg hm)) h]

/-! ## The memory behind frames -/

/-- The event, when nothing stands behind the copies of its messages. -/
def TcpEvent.withNothingBehind : TcpEvent → TcpEvent
  | .read c chunk _ => .read c chunk fun _ => []
  | event => event

variable [BoostSplit]

/-- An event that does not miss what stands behind its messages does the same whatever stands
there. -/
lemma handle_eq_of_nothing_behind {w w' : MqttTcpServer} {event : TcpEvent}
    {effects : List (Effect ℕ)} (h : w.handle event.withNothingBehind = (.ok w', effects)) :
    w.handle event = (.ok w', effects) := by
  cases event with
  | read c chunk beyond =>
    change w.handle (.read c chunk fun _ => []) = _ at h
    rw [MqttTcpServer.handle] at h ⊢
    split at h
    · rename_i hread
      rw [MqttTcpServer.handleRead_eq] at h
      rw [if_pos hread, MqttTcpServer.handleRead_eq]
      cases hok : (readRequests (fun _ => []) ((w.connection c).stream.messages chunk)).2 with
      | error e =>
        simp only [hok] at h
        cases congrArg Prod.fst h
      | ok u => rwa [readRequests_eq_of_nothing_behind length_lt_of_mem_messages hok beyond]
    · rename_i hread
      rwa [if_neg hread]
  | _ => exact h

/-- So does a run. -/
lemma run_eq_of_nothing_behind {w w' : MqttTcpServer} {events : List TcpEvent}
    {effects : List (Effect ℕ)}
    (h : tcpServerMachine.run (.ok w) (events.map TcpEvent.withNothingBehind) =
      (.ok w', effects)) :
    tcpServerMachine.run (.ok w) events = (.ok w', effects) := by
  induction events generalizing w effects with
  | nil => exact h
  | cons event events ih =>
    rw [List.map_cons, Machine.run_cons, tcpServerMachine_step_ok] at h
    rw [Machine.run_cons, tcpServerMachine_step_ok]
    cases hfirst : (w.handle event.withNothingBehind).1 with
    | error e =>
      rw [hfirst, run_error] at h
      cases congrArg Prod.fst h
    | ok w₁ =>
      have hhandle := handle_eq_of_nothing_behind (Prod.ext hfirst rfl)
      rw [hhandle]
      rw [hfirst] at h
      obtain ⟨hlast, hout⟩ := Prod.mk.inj h
      have hrest := ih (Prod.ext hlast rfl)
      simp only [hrest]
      rw [← hout]

/-- **The memory behind the frames matters only to runs that miss it**: a run in which nothing
stands there ends without a fault if and only if every run that differs from it in that memory ends
in the same state, with the same calls. -/
theorem run_nothing_behind_iff (useCache : Bool) (events : List TcpEvent) (w : MqttTcpServer)
    (effects : List (Effect ℕ)) :
    tcpServerMachine.run (.ok (.new useCache)) (events.map TcpEvent.withNothingBehind) =
        (.ok w, effects) ↔
      ∀ events', events'.map TcpEvent.withNothingBehind = events.map TcpEvent.withNothingBehind →
        tcpServerMachine.run (.ok (.new useCache)) events' = (.ok w, effects) := by
  constructor
  · intro h events' hevents
    rw [← hevents] at h
    exact run_eq_of_nothing_behind h
  · intro h
    have hagain : (events.map TcpEvent.withNothingBehind).map TcpEvent.withNothingBehind =
        events.map TcpEvent.withNothingBehind := by
      rw [List.map_map]
      refine List.map_congr_left fun event _ => ?_
      cases event <;> rfl
    exact h _ hagain

end MqttCpp
