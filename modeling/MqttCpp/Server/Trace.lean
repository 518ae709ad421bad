import MqttCpp.Server.ExactBroker
import MqttCpp.Server.Sessions

/-!
# What a run of the TCP server comes to

A run is looked at as the sequence of the reads that it has handled, each with what it has read and
the requests that it has passed on.  The run calls its connections as the request server does when
it is given these requests one after the other (`run_eq_run_trace`), so every connection receives
what the list machine of `Server.ExactBroker` sends for them, in every run, whatever its bytes are
and whether it ends with a fault or not (`received_run_trace`).

Of a connection on its own, there is one request for each frame of everything that has been read
from it, the one that the frame asks for if its bytes hold what they say they hold
(`requestsBy_asksFor`); and what it receives that is no PUBLISH answers them one by one, in their
order (`answersTo_eq`).
-/

namespace MqttCpp

open MqttStream

/-- A read that was handled. -/
structure HandledRead where
  connection : ℕ
  chunk : Bytes
  /-- The requests that it passed on, up to the first message that could not be made out. -/
  requests : List Request

/-- The requests of the read as inputs of the server. -/
def HandledRead.inputs (r : HandledRead) : List (ℕ × Request) :=
  MqttTcpServer.inputs r.connection r.requests

/-- The inputs of reads, one after the other. -/
def inputsOf (reads : List HandledRead) : List (ℕ × Request) := reads.flatMap HandledRead.inputs

/-- The reads of a connection. -/
def readsOf (c : ℕ) (reads : List HandledRead) : List HandledRead :=
  reads.filter fun r => r.connection = c

/-- All the bytes that have been read from a connection. -/
def sentBy (c : ℕ) (reads : List HandledRead) : Bytes := (readsOf c reads).flatMap (·.chunk)

/-- All the requests that a connection has made. -/
def requestsBy (c : ℕ) (reads : List HandledRead) : List Request :=
  (readsOf c reads).flatMap (·.requests)

/-- The requests of a connection are its inputs. -/
lemma filter_inputsOf (c : ℕ) (reads : List HandledRead) :
    (inputsOf reads).filter (fun i => i.1 = c) = MqttTcpServer.inputs c (requestsBy c reads) := by
  induction reads with
  | nil => rfl
  | cons r reads ih =>
    have hcons : inputsOf (r :: reads) = r.inputs ++ inputsOf reads := List.flatMap_cons
    rw [hcons, List.filter_append, ih]
    unfold requestsBy readsOf HandledRead.inputs MqttTcpServer.inputs
    by_cases hr : r.connection = c
    · simp [hr]
    · simp [hr]

/-! ## What a frame asks for -/

/-- The frame asks for the request: it has been made out of the frame where it stood, and it is what
the bytes of the frame ask for on their own, if that can be made out. -/
structure AsksFor (frame : Bytes) (r : Request) : Prop where
  read : ∃ msg beyond, msg.bytes = frame ∧ readRequest msg beyond = .ok r
  eq_of_requestOf : ∀ r', requestOf frame = some r' → r = r'

/-- If all messages of a read can be made out, their frames ask for the requests. -/
lemma forall₂_asksFor_of_readRequests {beyond : Span → Bytes} {msgs : List Span}
    (hsize : ∀ msg ∈ msgs, msg.bytes.length < 2 ^ 31)
    (h : (readRequests beyond msgs).2 = .ok ()) :
    List.Forall₂ AsksFor (msgs.map Span.bytes) (readRequests beyond msgs).1 := by
  induction msgs with
  | nil => exact .nil
  | cons msg msgs ih =>
    cases hread : readRequest msg (beyond msg) with
    | error e =>
      rw [readRequests, hread] at h
      cases h
    | ok r =>
      rw [readRequests, hread] at h
      rw [readRequests, hread, List.map_cons]
      refine .cons ⟨⟨msg, beyond msg, rfl, hread⟩, fun r' hr' => ?_⟩
        (ih (fun m hm => hsize m (List.mem_cons_of_mem msg hm)) h)
      have hown := readRequest_eq_of_requestOf hr' (hsize msg List.mem_cons_self) (beyond msg)
      exact Except.ok.inj (hread.symm.trans hown)

/-- Frames that can be made out from their own bytes ask for nothing else. -/
lemma eq_filterMap_of_asksFor {frames : List Bytes} {requests : List Request}
    (h : List.Forall₂ AsksFor frames requests) (hframes : ∀ f ∈ frames, (requestOf f).isSome) :
    requests = frames.filterMap requestOf := by
  induction h with
  | nil => rfl
  | @cons f r frames requests hfirst hrest ih =>
    obtain ⟨r', hr'⟩ := Option.isSome_iff_exists.mp (hframes f List.mem_cons_self)
    rw [List.filterMap_cons, hr', hfirst.eq_of_requestOf r' hr',
      ← ih fun f' hf' => hframes f' (List.mem_cons_of_mem f hf')]

/-! ## What is no PUBLISH -/

/-- The byte string is a PUBLISH to whoever receives it. -/
def IsPublish (bytes : Bytes) : Prop := getMessageType (.ofBytes bytes) = .ok .publish

instance (bytes : Bytes) : Decidable (IsPublish bytes) :=
  inferInstanceAs (Decidable (getMessageType (.ofBytes bytes) = .ok .publish))

/-- The request passes on a PUBLISH, if it passes on anything. -/
def Request.PassesPublish : Request → Prop
  | .publish _ bytes => IsPublish bytes
  | _ => True

/-- A message has the type that its bytes have. -/
lemma getMessageType_ofBytes (msg : Span) :
    getMessageType (.ofBytes msg.bytes) = getMessageType msg := by
  cases hbytes : msg.bytes with
  | nil =>
    have hsize : msg.size ≤ 0 := by simpa [hbytes] using Nat.le_of_eq msg.length_bytes.symm
    rw [getMessageType, getMessageType, Span.get_eq_terminate hsize]
    rfl
  | cons b rest =>
    have hown : (Span.ofBytes (b :: rest)).bytes = b :: rest := Span.bytes_ofBytes _
    rw [getMessageType_eq hown, getMessageType_eq hbytes]

/-- What is made out as a request to publish is a PUBLISH. -/
lemma passesPublish_of_readRequest {msg : Span} {beyond : Bytes} {r : Request}
    (h : readRequest msg beyond = .ok r) : r.PassesPublish := by
  cases r with
  | publish topic bytes =>
    have hbytes := eq_bytes_of_readRequest h
    rw [Request.PassesPublish, IsPublish, hbytes, getMessageType_ofBytes]
    exact getMessageType_of_readRequest h
  | _ => trivial

/-- What a connection receives that is no PUBLISH. -/
def answersTo (c : ℕ) (effects : List (Effect ℕ)) : List Bytes :=
  (effects.filterMap (received c)).filter fun bytes => ¬IsPublish bytes

/-- No answer is a PUBLISH. -/
lemma not_isPublish_of_answer {r : Request} {bytes : Bytes} (h : r.answer = some bytes) :
    ¬IsPublish bytes := by
  have hfirst : ∀ (b : UInt8) (rest : Bytes), MqttType.ofCode (b >>> 4).toNat ≠ .publish →
      bytes = b :: rest → ¬IsPublish bytes := by
    intro b rest hcode hbytes hpublish
    have hspan : (Span.ofBytes bytes).bytes = b :: rest := by rw [Span.bytes_ofBytes, hbytes]
    exact hcode (Except.ok.inj ((getMessageType_eq hspan).symm.trans hpublish))
  cases r with
  | connect => exact hfirst 0x20 _ (by decide) (Option.some.inj h).symm
  | pingreq => exact hfirst 0xd0 _ (by decide) (Option.some.inj h).symm
  | subscribe msgId topics => exact hfirst 0x90 _ (by decide) (Option.some.inj h).symm
  | unsubscribe msgId topics => exact hfirst 0xb0 _ (by decide) (Option.some.inj h).symm
  | publish topic bytes => cases h
  | disconnect => cases h
  | unknown => cases h

/-! ## The reads of a run -/

open MqttTcpServer

section Runs

variable [BoostSplit]

namespace MqttTcpServer

/-- The read that an event is, if it is handled. -/
def handled (w : MqttTcpServer) : TcpEvent → List HandledRead
  | .read c chunk beyond =>
    if (w.connection c).Live ∧ chunk.length ≤ (w.connection c).stream.readableDataSize then
      [{ connection := c, chunk, requests := w.requests c chunk beyond }]
    else []
  | _ => []

end MqttTcpServer

/-- The reads that the server handles in an event. -/
def handledReads : Except Fault MqttTcpServer → TcpEvent → List HandledRead
  | .ok w, event => w.handled event
  | .error _, _ => []

/-- The reads that a run of a new server handles. -/
def readsIn (useCache : Bool) (events : List TcpEvent) : List HandledRead :=
  tcpServerMachine.trace handledReads (.ok (.new useCache)) events

/-! ## The run and its requests -/

/-- What the server and its inputs have in common, as long as there has been no fault. -/
def HasServer (s : MqttServer ℕ) (w : Except Fault MqttTcpServer) : Prop :=
  Holds (fun w => w.mqttServer = s) w

/-- An event does what its requests do. -/
lemma handle_eq_run (w : MqttTcpServer) (event : TcpEvent) :
    let run := (serverMachine ℕ).run w.mqttServer (inputsOf (w.handled event))
    HasServer run.1 (w.handle event).1 ∧ (w.handle event).2 = run.2 := by
  cases event with
  | accept => exact ⟨mqttServer_doAccept w, rfl⟩
  | read c chunk beyond =>
    by_cases hread :
      (w.connection c).Live ∧ chunk.length ≤ (w.connection c).stream.readableDataSize
    · have hinputs : inputsOf (w.handled (.read c chunk beyond)) =
          inputs c (w.requests c chunk beyond) := by
        rw [handled, if_pos hread, inputsOf, List.flatMap_singleton]
        rfl
      rw [hinputs]
      exact ⟨holds_readNext hread fun _ => mqttServer_readNext chunk beyond,
        handle_read_snd hread beyond⟩
    · rw [handled, if_neg hread, MqttTcpServer.handle, if_neg hread]
      exact ⟨rfl, rfl⟩
  | readError c =>
    rw [MqttTcpServer.handle]
    split
    · exact ⟨rfl, rfl⟩
    · exact ⟨rfl, rfl⟩
  | readAborted c => exact ⟨rfl, rfl⟩
  | signal => exact ⟨rfl, rfl⟩

/-- The trace of a machine that is observed by lists. -/
lemma inputsOf_trace (w : Except Fault MqttTcpServer) (events : List TcpEvent) :
    inputsOf (tcpServerMachine.trace handledReads w events) =
      tcpServerMachine.trace (fun w event => inputsOf (handledReads w event)) w events := by
  induction events generalizing w with
  | nil => rfl
  | cons event events ih =>
    rw [Machine.trace_cons, Machine.trace_cons, ← ih]
    exact List.flatMap_append

/-- **A run of the TCP server calls what the requests of its reads call**, one after the other. -/
theorem run_eq_run_trace (w : MqttTcpServer) (events : List TcpEvent) :
    let reads := tcpServerMachine.trace handledReads (.ok w) events
    let run := (serverMachine ℕ).run w.mqttServer (inputsOf reads)
    HasServer run.1 (tcpServerMachine.run (.ok w) events).1 ∧
      (tcpServerMachine.run (.ok w) events).2 = run.2 := by
  have hstep : ∀ (w : Except Fault MqttTcpServer) (s : MqttServer ℕ) (event : TcpEvent),
      HasServer s w →
        HasServer ((serverMachine ℕ).run s (inputsOf (handledReads w event))).1
            (tcpServerMachine.step w event).1 ∧
          (tcpServerMachine.step w event).2 =
            ((serverMachine ℕ).run s (inputsOf (handledReads w event))).2 := by
    rintro (e | w) s event hs
    · exact ⟨trivial, rfl⟩
    · obtain rfl : w.mqttServer = s := hs
      exact handle_eq_run w event
  have hstart : HasServer w.mqttServer (.ok w) := rfl
  have hrun := Machine.run_trace_simulation (R := fun w s => HasServer s w) hstep hstart events
  rwa [← inputsOf_trace] at hrun

/-- The same for a new server. -/
lemma run_eq_run_readsIn (useCache : Bool) (events : List TcpEvent) :
    (tcpServerMachine.run (.ok (.new useCache)) events).2 =
      ((serverMachine ℕ).run (.new useCache) (inputsOf (readsIn useCache events))).2 :=
  (run_eq_run_trace (.new useCache) events).2

namespace MqttTcpServer

/-- The stream of every connection has cut all that was read from it into frames, which ask for the
requests of the connection; of those that have not been made nothing was read. -/
structure Recorded (reads : List HandledRead) (w : MqttTcpServer) : Prop where
  settled : w.Settled
  unmade : ∀ c, w.made ≤ c → readsOf c reads = []
  kept : ∀ c, (w.connection c).stream.kept = (messageFramer.cut (sentBy c reads)).2
  requests : ∀ c,
    List.Forall₂ AsksFor (messageFramer.cut (sentBy c reads)).1 (requestsBy c reads)

namespace Recorded

variable {reads : List HandledRead} {w w' : MqttTcpServer}

/-- An event that reads nothing and keeps the streams. -/
lemma of_stream_eq (h : w.Recorded reads) (hsettled : w'.Settled) (hmade : w.made ≤ w'.made)
    (hstream : ∀ c, (w'.connection c).stream.kept = (w.connection c).stream.kept) :
    w'.Recorded (reads ++ []) := by
  rw [List.append_nil]
  exact ⟨hsettled, fun c hc => h.unmade c (Nat.le_trans hmade hc),
    fun c => (hstream c).trans (h.kept c), h.requests⟩

/-- A new connection has an empty stream, like one that has not been made. -/
lemma doAccept (h : w.Recorded reads) : w.doAccept.Recorded (reads ++ []) := by
  have hsettled : w.doAccept.Settled := h.settled.doAccept.1
  by_cases hopen : w.acceptorOpen = true
  · refine h.of_stream_eq hsettled ?_ fun c => ?_
    · rw [made_doAccept hopen]
      exact Nat.le_succ _
    · rcases eq_or_ne c w.made with rfl | hne
      · have hnothing : sentBy w.made reads = [] := by
          rw [sentBy, h.unmade w.made (Nat.le_refl _)]
          rfl
        have hempty : messageFramer.cut [] = ([], []) :=
          Framer.cut_of_lt (messageFramer.frameLength_pos [])
        rw [connection_doAccept hopen, h.kept, hnothing, hempty]
        rfl
      · rw [connection_doAccept_of_ne w hne]
  · rw [doAccept_of_closed hopen] at hsettled ⊢
    exact h.of_stream_eq hsettled (Nat.le_refl _) fun c => rfl

/-- A read cuts what it has read, together with what was kept. -/
lemma readNext (h : w.Recorded reads) {c : ℕ} {chunk : Bytes} {beyond : Span → Bytes}
    (hread : (w.connection c).Live ∧ chunk.length ≤ (w.connection c).stream.readableDataSize)
    (hok : (readRequests beyond ((w.connection c).stream.messages chunk)).2 = .ok ()) :
    (w.readNext c chunk beyond).Recorded
      (reads ++ [{ connection := c, chunk, requests := w.requests c chunk beyond }]) := by
  have hcut := messages_next_eq_cut hread.2
  have hrequests := forall₂_asksFor_of_readRequests length_lt_of_mem_messages hok
  have hself : ∀ r : HandledRead, r.connection = c →
      sentBy c (reads ++ [r]) = sentBy c reads ++ r.chunk ∧
        requestsBy c (reads ++ [r]) = requestsBy c reads ++ r.requests := by
    intro r hr
    simp [sentBy, requestsBy, readsOf, hr]
  have hother : ∀ (r : HandledRead) (x : ℕ), r.connection ≠ x →
      readsOf x (reads ++ [r]) = readsOf x reads := by
    intro r x hr
    simp [readsOf, hr]
  refine ⟨h.settled.readNext hread.1 chunk beyond, fun x hx => ?_, fun x => ?_, fun x => ?_⟩
  · rw [made_readNext] at hx
    have hne : c ≠ x := Nat.ne_of_lt (Nat.lt_of_lt_of_le (h.settled.made c (Or.inl hread.1.1)) hx)
    rw [hother _ x hne]
    exact h.unmade x hx
  · rcases eq_or_ne c x with rfl | hne
    · rw [stream_readNext_self, (hself _ rfl).1, messageFramer.cut_append, ← h.kept]
      exact congrArg Prod.snd hcut
    · rw [connection_readNext_of_ne (Ne.symm hne), sentBy, hother _ x hne]
      exact h.kept x
  · rcases eq_or_ne c x with rfl | hne
    · have hframes : ((w.connection c).stream.messages chunk).map Span.bytes =
          (messageFramer.cut ((w.connection c).stream.kept ++ chunk)).1 := congrArg Prod.fst hcut
      rw [(hself _ rfl).1, (hself _ rfl).2, messageFramer.cut_append, ← h.kept, ← hframes]
      exact List.rel_append (h.requests c) hrequests
    · rw [sentBy, requestsBy, hother _ x hne]
      exact h.requests x

/-- **Every event** records what it reads. -/
theorem handle (h : w.Recorded reads) (event : TcpEvent) :
    Holds (fun w' => w'.Recorded (reads ++ w.handled event)) (w.handle event).1 := by
  cases event with
  | accept => exact h.doAccept
  | read c chunk beyond =>
    rw [handled]
    split
    · rename_i hread
      exact holds_readNext hread fun hok => h.readNext hread hok
    · rename_i hread
      rw [MqttTcpServer.handle, if_neg hread, List.append_nil]
      exact h
  | readError c =>
    have hsettled : Holds Settled (w.handle (.readError c)).1 := h.settled.handle _
    rw [MqttTcpServer.handle] at hsettled ⊢
    split at hsettled
    · rename_i hreading
      have hidles := idles_stop w c
      rw [if_pos hreading]
      refine h.of_stream_eq hsettled (Nat.le_of_eq hidles.made_eq.symm) fun x => ?_
      rw [(hidles.connection x).stream_eq]
    · rename_i hreading
      have hnone : w.handled (.readError c) = [] := rfl
      rw [if_neg hreading, hnone, List.append_nil]
      exact h
  | readAborted c =>
    have hidles := idles_finishRead w c
    have hsettled : Holds Settled (w.handle (.readAborted c)).1 := h.settled.handle _
    refine h.of_stream_eq hsettled (Nat.le_of_eq hidles.made_eq.symm) fun x => ?_
    rw [(hidles.connection x).stream_eq]
  | signal =>
    have hidles := idles_doAwaitStop w
    have hsettled : Holds Settled (w.handle .signal).1 := h.settled.handle _
    refine h.of_stream_eq hsettled (Nat.le_of_eq hidles.made_eq.symm) fun x => ?_
    rw [(hidles.connection x).stream_eq]

end Recorded

end MqttTcpServer

/-- **The requests of a connection are those of the frames of all that was read from it**, one for
each, whatever the other connections do in between, in every run without a fault; and the connection
keeps what is left of it.  How all that was read was cut into reads does not matter to what the
frames ask for if their bytes hold what they say they hold. -/
theorem requestsBy_asksFor (useCache : Bool) (events : List TcpEvent) {w : MqttTcpServer}
    (h : (tcpServerMachine.run (.ok (.new useCache)) events).1 = .ok w) (c : ℕ) :
    let reads := readsIn useCache events
    let cut := messageFramer.cut (sentBy c reads)
    List.Forall₂ AsksFor cut.1 (requestsBy c reads) ∧
      ((∀ f ∈ cut.1, (requestOf f).isSome) →
        requestsBy c reads = cut.1.filterMap requestOf) ∧
      (w.connection c).stream.kept = cut.2 := by
  intro reads cut
  have hempty : messageFramer.cut [] = ([], []) :=
    Framer.cut_of_lt (messageFramer.frameLength_pos [])
  have hstart : Holds (Recorded []) (.ok (MqttTcpServer.new useCache)) := by
    refine ⟨(settled_new useCache).1, fun c _ => rfl, fun c => ?_, fun c => ?_⟩
    · change _ = (messageFramer.cut []).2
      rw [hempty]
      rfl
    · change List.Forall₂ AsksFor (messageFramer.cut []).1 []
      rw [hempty]
      exact .nil
  have hstep : ∀ (w : Except Fault MqttTcpServer) (reads : List HandledRead) (event : TcpEvent),
      Holds (Recorded reads) w →
        Holds (Recorded (reads ++ handledReads w event)) (tcpServerMachine.step w event).1 := by
    rintro (e | w) reads event hw
    · trivial
    · exact Recorded.handle hw event
  have hrun := Machine.trace_invariant (Q := fun w reads => Holds (Recorded reads) w) hstep hstart
    events
  rw [h, List.nil_append] at hrun
  have hrecorded : w.Recorded reads := hrun
  have hrequests := hrecorded.requests c
  exact ⟨hrequests, eq_filterMap_of_asksFor hrequests, hrecorded.kept c⟩

end Runs

/-- A client connects and sends a PINGREQ and a SUBSCRIBE, and the reads end inside them. -/
def pingAndSubscribe : List TcpEvent :=
  [.accept, .read 0 [0xc0] fun _ => [], .read 0 [0, 0x82, 6, 0] fun _ => [],
    .read 0 [1, 0, 1, 97, 0] fun _ => []]

/-- Its frames ask for what they say. -/
theorem requestsBy_asksFor_pieces :
    let _ := boostSplit
    let reads := readsIn true pingAndSubscribe
    let cut := messageFramer.cut (sentBy 0 reads)
    ∃ w : MqttTcpServer, List.Forall₂ AsksFor cut.1 (requestsBy 0 reads) ∧
      ((∀ f ∈ cut.1, (requestOf f).isSome) →
        requestsBy 0 reads = cut.1.filterMap requestOf) ∧
      (w.connection 0).stream.kept = cut.2 := by
  intro _
  have hasks : (sessionMachine (serverMachine ℕ)).Along (Sessions.Asks fun _ => True)
      (.new (.new true)) pingAndSubscribe := by
    refine ⟨trivial, ?_, ?_, ?_, trivial⟩
    · exact Sessions.asks_read_of_all _ (by decide +kernel)
    · exact Sessions.asks_read_of_all _ (by decide +kernel)
    · exact Sessions.asks_read_of_all _ (by decide +kernel)
  obtain ⟨w, hrun, -⟩ := exists_run_shows (shows_new true) hasks
  exact ⟨w, requestsBy_asksFor true pingAndSubscribe (congrArg Prod.fst hrun) 0⟩

/-! ## Answers -/

variable [BoostSplit]

/-- A request is answered once, to the connection that has made it. -/
lemma answersTo_handle (s : MqttServer ℕ) (c c' : ℕ) {r : Request} (hr : r.PassesPublish) :
    answersTo c (s.handle c' r).2 = if c' = c then r.answer.toList else [] := by
  unfold answersTo
  cases hanswer : r.answer with
  | some bytes =>
    have hsome : r.answer.isSome = true := by rw [hanswer]; rfl
    have hnot := not_isPublish_of_answer hanswer
    rw [s.handle_of_answer c' hsome, Request.replies, hanswer]
    by_cases hc : c' = c <;> simp [received, hc, hnot]
  | none =>
    have hpublishes : ∀ b ∈ (s.handle c' r).2.filterMap (received c), IsPublish b := by
      intro b hb
      obtain ⟨e, he, hreceived⟩ := List.mem_filterMap.mp hb
      cases r with
      | publish topic bytes =>
        obtain ⟨call, hcall, rfl⟩ := List.mem_map.mp he
        rw [received, MqttBroker.snd_of_mem_publish hcall] at hreceived
        split at hreceived
        · rw [← Option.some.inj hreceived]
          exact hr
        · cases hreceived
      | disconnect =>
        rw [List.mem_singleton.mp he] at hreceived
        cases hreceived
      | unknown => cases he
      | _ => cases hanswer
    rw [List.filter_eq_nil_iff.mpr fun b hb => by simpa using hpublishes b hb]
    simp

/-- So are the requests of a run. -/
lemma answersTo_run (s : MqttServer ℕ) (c : ℕ) {requests : List (ℕ × Request)}
    (h : ∀ i ∈ requests, i.2.PassesPublish) :
    answersTo c ((serverMachine ℕ).run s requests).2 =
      (requests.filter fun i => i.1 = c).filterMap fun i => i.2.answer := by
  induction requests generalizing s with
  | nil => rfl
  | cons i requests ih =>
    have happend : ∀ es fs, answersTo c (es ++ fs) = answersTo c es ++ answersTo c fs := by
      intro es fs
      simp [answersTo]
    have hself := answersTo_handle s c i.1 (h i List.mem_cons_self)
    have hrest := ih (s.handle i.1 i.2).1 fun j hj => h j (List.mem_cons_of_mem i hj)
    rw [Machine.run_cons, happend]
    change answersTo c (s.handle i.1 i.2).2 ++ answersTo c ((serverMachine ℕ).run _ _).2 = _
    rw [hself]
    change _ ++ answersTo c ((serverMachine ℕ).run (s.handle i.1 i.2).1 requests).2 = _
    rw [hrest]
    by_cases hc : i.1 = c
    · cases hanswer : i.2.answer with
      | none => simp [hc, hanswer]
      | some bytes => simp [hc, hanswer]
    · simp [hc]

/-- The requests that a run passes on pass on a PUBLISH, if they pass on anything. -/
lemma passesPublish_of_mem_readsIn (useCache : Bool) (events : List TcpEvent) :
    ∀ i ∈ inputsOf (readsIn useCache events), i.2.PassesPublish := by
  have hstep : ∀ (w : Except Fault MqttTcpServer) (reads : List HandledRead) (event : TcpEvent),
      (∀ r ∈ reads, ∀ q ∈ r.requests, q.PassesPublish) →
        ∀ r ∈ reads ++ handledReads w event, ∀ q ∈ r.requests, q.PassesPublish := by
    intro w reads event hreads r hr q hq
    rcases List.mem_append.mp hr with hr | hr
    · exact hreads r hr q hq
    · rcases w with e | w
      · cases hr
      · cases event with
        | read c chunk beyond =>
          change r ∈ w.handled (.read c chunk beyond) at hr
          rw [handled] at hr
          split at hr
          · rw [List.mem_singleton.mp hr] at hq
            obtain ⟨msg, -, hread⟩ := exists_of_mem_readRequests hq
            exact passesPublish_of_readRequest hread
          · cases hr
        | _ => cases hr
  have hrun := Machine.trace_invariant (M := tcpServerMachine)
    (Q := fun _ (reads : List HandledRead) => ∀ r ∈ reads, ∀ q ∈ r.requests, q.PassesPublish) hstep
    (fun r hr => absurd hr List.not_mem_nil) (s := .ok (.new useCache)) events
  intro i hi
  obtain ⟨r, hr, hinput⟩ := List.mem_flatMap.mp hi
  obtain ⟨q, hq, rfl⟩ := List.mem_map.mp hinput
  exact hrun r hr q hq

/-- **Every connection is answered what it asks, and nothing else.**  In every run, whatever other
connections do in between and whether it ends with a fault or not, what a connection receives that
is no PUBLISH are the answers to its own requests, one for each that has one, in their order. -/
theorem answersTo_eq (useCache : Bool) (events : List TcpEvent) (c : ℕ) :
    answersTo c (tcpServerMachine.run (.ok (.new useCache)) events).2 =
      (requestsBy c (readsIn useCache events)).filterMap Request.answer := by
  rw [run_eq_run_readsIn, answersTo_run _ c (passesPublish_of_mem_readsIn useCache events),
    filter_inputsOf, MqttTcpServer.inputs, List.filterMap_map]
  rfl

end MqttCpp
