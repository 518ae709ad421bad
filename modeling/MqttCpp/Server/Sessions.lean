import MqttCpp.Server.AbstractBroker
import MqttCpp.Server.Frames
import MqttCpp.Server.Released

/-!
# The server without its buffers

The memory that frames stand in does not matter if they hold what they say they hold, and neither
do the buffers: of a client that is read from, only the bytes that it has sent of an incomplete
message count.  When a signal has stopped the server, what a client has sent by then can still
arrive, in one more read at most.

`sessionMachine` is the server said in this way, over any machine that takes requests.  The TCP
server does the same as long as the frames can be made out (`tcpServerMachine_run_eq`), and it does
what the abstract broker does if their requests are well-formed (`received_tcp_eq`).
-/

namespace MqttCpp

open MqttStream

/-! ## Sessions -/

/-- The server as its clients know it, over the state of a machine that takes requests. -/
structure Sessions (σ : Type) where
  /-- What a client has sent of an incomplete message, if anything can arrive of it. -/
  residue : ℕ → Option Bytes
  /-- How many clients have been accepted. -/
  made : ℕ
  accepting : Bool
  state : σ

namespace Sessions

variable {σ τ : Type}

/-- Before anybody has connected. -/
def new (state : σ) : Sessions σ where
  residue _ := none
  made := 0
  accepting := true
  state := state

/-- The frames that a client completes when a chunk of it arrives, and what it has sent of the next;
nothing arrives of a client that is not read from, nor where there is no room for the chunk. -/
def arrive (s : Sessions σ) (c : ℕ) (chunk : Bytes) : Option (List Bytes × Bytes) :=
  match s.residue c with
  | some kept =>
    if kept.length + chunk.length ≤ MqttTcpServer.numStreamBytes then
      some (messageFramer.cut (kept ++ chunk))
    else none
  | none => none

/-- The client has been read from up to the residue, and no further when it has disconnected or the
server has been stopped. -/
def goOn (s : Sessions σ) (c : ℕ) (requests : List Request) (rest : Bytes) : Sessions σ :=
  let ended := .disconnect ∈ requests ∨ s.accepting = false
  { s with residue := Function.update s.residue c (if ended then none else some rest) }

/-- A chunk of a client arrives: the requests of its frames are taken in their order. -/
def read (M : Machine σ (ℕ × Request) (Effect ℕ)) (s : Sessions σ) (c : ℕ) (chunk : Bytes) :
    Sessions σ × List (Effect ℕ) :=
  match s.arrive c chunk with
  | some (frames, rest) =>
    let requests := frames.filterMap requestOf
    let run := M.run s.state (MqttTcpServer.inputs c requests)
    ({ s.goOn c requests rest with state := run.1 }, run.2)
  | none => (s, [])

/-- A client is not read from any more. -/
def leave (s : Sessions σ) (c : ℕ) : Sessions σ :=
  { s with residue := Function.update s.residue c none }

/-- Who is not read from has left. -/
lemma leave_eq_self {s : Sessions σ} {c : ℕ} (h : s.residue c = none) : s.leave c = s := by
  rw [leave, ← h, Function.update_eq_self]

/-- A client is accepted. -/
def accept (s : Sessions σ) : Sessions σ :=
  if s.accepting then
    { s with residue := Function.update s.residue s.made (some []), made := s.made + 1 }
  else s

end Sessions

/-- The server without its buffers, over a machine that takes requests. -/
def sessionMachine {σ : Type} (M : Machine σ (ℕ × Request) (Effect ℕ)) :
    Machine (Sessions σ) TcpEvent (Effect ℕ) where
  step s
    | .accept => (s.accept, [])
    | .read c chunk _ => s.read M c chunk
    | .readError c => (s.leave c, [])
    | .readAborted c => (s.leave c, [])
    | .signal => ({ s with accepting := false }, [])

namespace Sessions

/-- Every frame that the event completes asks for something that `P` holds of. -/
def Asks {σ : Type} (P : Request → Prop) (s : Sessions σ) : TcpEvent → Prop
  | .read c chunk _ =>
    ∀ frames rest, s.arrive c chunk = some (frames, rest) →
      ∀ f ∈ frames, ∃ r, requestOf f = some r ∧ P r
  | _ => True

/-- A read asks for something of a kind if that is found in all of its frames. -/
lemma asks_read_of_all {σ : Type} {P : Request → Prop} [DecidablePred P] {s : Sessions σ} {c : ℕ}
    {chunk : Bytes} (beyond : Span → Bytes)
    (h : (s.arrive c chunk).all (fun p => p.1.all fun f => (requestOf f).any fun r => P r) = true) :
    s.Asks P (.read c chunk beyond) := by
  intro frames rest harrive f hf
  rw [harrive, Option.all_some, List.all_eq_true] at h
  obtain ⟨r, hr, hP⟩ := (Option.any_eq_true _ _).mp (h f hf)
  exact ⟨r, hr, of_decide_eq_true hP⟩

/-- The sessions are the same, over states that are related. -/
structure Relates {σ τ : Type} (R : σ → τ → Prop) (s : Sessions σ) (t : Sessions τ) : Prop where
  residue_eq : s.residue = t.residue
  made_eq : s.made = t.made
  accepting_eq : s.accepting = t.accepting
  state : R s.state t.state

section Relates

variable {σ τ : Type} {R : σ → τ → Prop} {s : Sessions σ} {t : Sessions τ}

/-- The same chunks arrive. -/
lemma Relates.arrive_eq (h : s.Relates R t) (c : ℕ) (chunk : Bytes) :
    s.arrive c chunk = t.arrive c chunk := by
  unfold arrive
  rw [h.residue_eq]

/-- The requests of frames that ask for something of a kind are of that kind. -/
lemma Asks.forall_mem {P : Request → Prop} {c : ℕ} {chunk : Bytes} {beyond : Span → Bytes}
    (h : s.Asks P (.read c chunk beyond)) {frames : List Bytes} {rest : Bytes}
    (harrive : s.arrive c chunk = some (frames, rest)) :
    ∀ i ∈ MqttTcpServer.inputs c (frames.filterMap requestOf), P i.2 := by
  intro i hi
  obtain ⟨r, hr, rfl⟩ := List.mem_map.mp hi
  obtain ⟨f, hf, hrequest⟩ := List.mem_filterMap.mp hr
  obtain ⟨r', hr', hP⟩ := h frames rest harrive f hf
  rw [hrequest] at hr'
  rwa [Option.some.inj hr']

/-- **A simulation of the machines that take requests is one of their sessions**, for requests of
the kind that it is for. -/
theorem Relates.step {M : Machine σ (ℕ × Request) (Effect ℕ)}
    {N : Machine τ (ℕ × Request) (Effect ℕ)} {P : Request → Prop}
    {T : List (Effect ℕ) → List (Effect ℕ) → Prop} (hnil : T [] [])
    (happend : ∀ os ps os' ps', T os os' → T ps ps' → T (os ++ ps) (os' ++ ps'))
    (hstep : ∀ s t (i : ℕ × Request), P i.2 → R s t →
      R (M.step s i).1 (N.step t i).1 ∧ T (M.step s i).2 (N.step t i).2)
    (h : s.Relates R t) {event : TcpEvent} (hasks : t.Asks P event) :
    ((sessionMachine M).step s event).1.Relates R ((sessionMachine N).step t event).1 ∧
      T ((sessionMachine M).step s event).2 ((sessionMachine N).step t event).2 := by
  obtain ⟨residue, made, accepting, state⟩ := s
  obtain ⟨residue', made', accepting', state'⟩ := t
  obtain ⟨rfl, rfl, rfl, hstate⟩ := h
  cases event with
  | accept =>
    cases accepting with
    | true => exact ⟨⟨rfl, rfl, rfl, hstate⟩, hnil⟩
    | false => exact ⟨⟨rfl, rfl, rfl, hstate⟩, hnil⟩
  | read c chunk beyond =>
    change (read M _ c chunk).1.Relates R (read N _ c chunk).1 ∧
      T (read M _ c chunk).2 (read N _ c chunk).2
    have harrive : arrive ⟨residue, made, accepting, state⟩ c chunk =
        arrive ⟨residue, made, accepting, state'⟩ c chunk := rfl
    unfold read
    rw [harrive]
    cases hframes : arrive ⟨residue, made, accepting, state'⟩ c chunk with
    | none => exact ⟨⟨rfl, rfl, rfl, hstate⟩, hnil⟩
    | some p =>
      obtain ⟨hlast, hout⟩ :=
        Machine.run_simulation_of hnil happend hstep hstate (hasks.forall_mem hframes)
      exact ⟨⟨rfl, rfl, rfl, hlast⟩, hout⟩
  | readError c => exact ⟨⟨rfl, rfl, rfl, hstate⟩, hnil⟩
  | readAborted c => exact ⟨⟨rfl, rfl, rfl, hstate⟩, hnil⟩
  | signal => exact ⟨⟨rfl, rfl, rfl, hstate⟩, hnil⟩

end Relates

end Sessions

/-! ## The TCP server -/

section Tcp

variable [BoostSplit]

namespace MqttTcpServer

/-- What the sessions show of the server, and what holds of the rest. -/
structure Shows (w : MqttTcpServer) (s : Sessions (MqttServer ℕ)) : Prop where
  state_eq : s.state = w.mqttServer
  made_eq : s.made = w.made
  accepting_eq : s.accepting = w.acceptorOpen
  /-- Bytes of a client can arrive if its connection is live, and what it has sent of a message is
  kept. -/
  residue_eq : ∀ c, s.residue c =
    if (w.connection c).Live then some (w.connection c).stream.kept else none
  size : ∀ c, (w.connection c).reading = true →
    (w.connection c).stream.buffer.length = numStreamBytes
  connected : ∀ c, (w.connection c).reading = true → (w.connection c).connected = true
  sound : w.Sound

/-- Nobody has connected to a new server. -/
lemma shows_new (useCache : Bool) :
    (new useCache).Shows (.new (.new useCache)) where
  state_eq := rfl
  made_eq := rfl
  accepting_eq := rfl
  residue_eq _ := rfl
  size c hc := by cases hc
  connected c hc := by cases hc
  sound := (holds_new useCache).1

namespace Shows

variable {w : MqttTcpServer} {s : Sessions (MqttServer ℕ)} {c : ℕ} {chunk : Bytes}
  {beyond : Span → Bytes} {P : Request → Prop}

/-- A chunk arrives when the connection is live and has room for it. -/
lemma arrive_eq (h : w.Shows s) (c : ℕ) (chunk : Bytes) :
    s.arrive c chunk =
      if (w.connection c).Live ∧ chunk.length ≤ (w.connection c).stream.readableDataSize then
        some (messageFramer.cut ((w.connection c).stream.kept ++ chunk))
      else none := by
  rw [Sessions.arrive, h.residue_eq]
  by_cases hlive : (w.connection c).Live
  · have hbegin := (w.connection c).stream.begin_le
    have hroom : (w.connection c).stream.kept.length + chunk.length ≤ numStreamBytes ↔
        chunk.length ≤ (w.connection c).stream.readableDataSize := by
      have hsize := h.size c hlive.1
      rw [length_kept, readableDataSize]
      omega
    simp only [hlive, if_true, true_and, hroom]
  · simp only [hlive, if_false, false_and]

/-- A read of frames that ask for something has their requests, and no fault. -/
lemma readRequests_eq (h : w.Shows s) (hasks : s.Asks P (.read c chunk beyond))
    (hread : (w.connection c).Live ∧ chunk.length ≤ (w.connection c).stream.readableDataSize) :
    readRequests beyond ((w.connection c).stream.messages chunk) =
      ((messageFramer.cut ((w.connection c).stream.kept ++ chunk)).1.filterMap requestOf,
        .ok ()) := by
  have hcut := messages_next_eq_cut hread.2
  have harrive := h.arrive_eq c chunk
  rw [if_pos hread] at harrive
  have hframes : ((w.connection c).stream.messages chunk).map Span.bytes =
      (messageFramer.cut ((w.connection c).stream.kept ++ chunk)).1 := congrArg Prod.fst hcut
  rw [← hframes]
  refine readRequests_eq_of_requestOf beyond length_lt_of_mem_messages fun msg hmsg => ?_
  have hmem := List.mem_map_of_mem (f := Span.bytes) hmsg
  rw [hframes] at hmem
  obtain ⟨r, hr, -⟩ := hasks _ _ harrive _ hmem
  exact ⟨r, hr⟩

/-- A read makes the server show what the sessions have made of the chunk. -/
lemma readNext (h : w.Shows s) (hasks : s.Asks P (.read c chunk beyond))
    (hread : (w.connection c).Live ∧ chunk.length ≤ (w.connection c).stream.readableDataSize) :
    (w.readNext c chunk beyond).Shows (s.read (serverMachine ℕ) c chunk).1 := by
  have hrequests := h.readRequests_eq hasks hread
  have hcut := messages_next_eq_cut hread.2
  have harrive := h.arrive_eq c chunk
  have hall : w.requests c chunk beyond =
      (messageFramer.cut ((w.connection c).stream.kept ++ chunk)).1.filterMap requestOf :=
    congrArg Prod.fst hrequests
  have hkept : ((w.connection c).stream.next chunk).kept =
      (messageFramer.cut ((w.connection c).stream.kept ++ chunk)).2 := congrArg Prod.snd hcut
  -- bytes can arrive again if the client has not disconnected and the server was not stopped
  have hlive : ((w.readNext c chunk beyond).connection c).Live ↔
      ¬(.disconnect ∈ w.requests c chunk beyond ∨ s.accepting = false) := by
    have hconnected := h.connected c hread.1.1
    rw [live_readNext_self_iff, h.sound.isOpen_eq c hread.1, ← h.accepting_eq, not_or,
      Bool.not_eq_false, hconnected]
    simp only [true_and]
  rw [if_pos hread] at harrive
  rw [Sessions.read, harrive]
  simp only [← hall, ← hkept]
  refine ⟨?_, ?_, ?_, fun c' => ?_, fun c' hc' => ?_, fun c' hc' => ?_,
    h.sound.readNext hread.1 chunk beyond⟩
  · rw [mqttServer_readNext, ← h.state_eq]
    rfl
  · rw [made_readNext, ← h.made_eq]
    rfl
  · rw [acceptorOpen_readNext, ← h.accepting_eq]
    rfl
  · change Function.update s.residue c _ c' = _
    rcases eq_or_ne c' c with rfl | hne
    · rw [Function.update_self, stream_readNext_self]
      simp only [hlive, ite_not]
    · rw [Function.update_of_ne hne, connection_readNext_of_ne hne]
      exact h.residue_eq c'
  · rcases eq_or_ne c' c with rfl | hne
    · rw [stream_readNext_self, length_buffer_next]
      exact h.size c' hread.1.1
    · rw [connection_readNext_of_ne hne] at hc' ⊢
      exact h.size c' hc'
  · rcases eq_or_ne c' c with rfl | hne
    · rwa [← (connection_readNext_self chunk beyond).2]
    · rw [connection_readNext_of_ne hne] at hc' ⊢
      exact h.connected c' hc'

/-- When the read of a connection has ended without bytes, nothing can arrive of its client. -/
lemma leave (h : w.Shows s) {w' : MqttTcpServer} (hidles : w.Idles w') (hsound : w'.Sound)
    (hacceptor : w'.acceptorOpen = w.acceptorOpen) (hdead : ¬(w'.connection c).Live)
    (hother : ∀ c', c' ≠ c → w'.connection c' = w.connection c') : w'.Shows (s.leave c) where
  state_eq := h.state_eq.trans hidles.mqttServer_eq.symm
  made_eq := h.made_eq.trans hidles.made_eq.symm
  accepting_eq := h.accepting_eq.trans hacceptor.symm
  residue_eq c' := by
    change Function.update s.residue c none c' = _
    rcases eq_or_ne c' c with rfl | hne
    · rw [Function.update_self, if_neg hdead]
    · rw [Function.update_of_ne hne, h.residue_eq, hother c' hne]
  size c' hc' := by
    have hidle := hidles.connection c'
    rw [hidle.stream_eq]
    exact h.size c' (hidle.reading_of hc')
  connected c' hc' := by
    have hidle := hidles.connection c'
    rw [hidle.connected_eq]
    exact h.connected c' (hidle.reading_of hc')
  sound := hsound

/-- A connection that is accepted is a client that has not sent anything. -/
lemma doAccept (h : w.Shows s) : w.doAccept.Shows s.accept := by
  by_cases hopen : w.acceptorOpen = true
  · have haccepting : s.accepting = true := h.accepting_eq.trans hopen
    have hself := connection_doAccept hopen
    have hlive : (w.doAccept.connection w.made).Live := by
      rw [hself]
      exact ⟨rfl, rfl⟩
    rw [Sessions.accept, if_pos haccepting]
    refine ⟨?_, ?_, ?_, fun c => ?_, fun c hc => ?_, fun c hc => ?_, h.sound.doAccept⟩
    · exact h.state_eq.trans (mqttServer_doAccept w).symm
    · rw [made_doAccept hopen, ← h.made_eq]
    · rw [acceptorOpen_doAccept]
      exact h.accepting_eq
    · change Function.update s.residue s.made _ c = _
      rw [h.made_eq]
      rcases eq_or_ne c w.made with rfl | hne
      · rw [Function.update_self, if_pos hlive, hself]
        rfl
      · rw [Function.update_of_ne hne, connection_doAccept_of_ne w hne]
        exact h.residue_eq c
    · rcases eq_or_ne c w.made with rfl | hne
      · rw [hself]
        exact List.length_replicate
      · rw [connection_doAccept_of_ne w hne] at hc ⊢
        exact h.size c hc
    · rcases eq_or_ne c w.made with rfl | hne
      · rw [hself]
        rfl
      · rw [connection_doAccept_of_ne w hne] at hc ⊢
        exact h.connected c hc
  · have hclosed : ¬s.accepting = true := by rwa [h.accepting_eq]
    rw [doAccept_of_closed hopen, Sessions.accept, if_neg hclosed]
    exact h

/-- On a signal nobody is accepted any more; what the clients have sent by then can arrive still. -/
lemma doAwaitStop (h : w.Shows s) :
    w.doAwaitStop.Shows
      { s with accepting := false } where
  state_eq := h.state_eq
  made_eq := h.made_eq
  accepting_eq := rfl
  residue_eq c := by
    have hlive := live_doAwaitStop_iff w c
    change s.residue c = if (w.doAwaitStop.connection c).Live then _ else _
    rw [h.residue_eq]
    simp only [hlive]
    rw [((idles_doAwaitStop w).connection c).stream_eq]
  size c hc := by
    have hidle := (idles_doAwaitStop w).connection c
    rw [hidle.stream_eq]
    exact h.size c (hidle.reading_of hc)
  connected c hc := by
    have hidle := (idles_doAwaitStop w).connection c
    rw [hidle.connected_eq]
    exact h.connected c (hidle.reading_of hc)
  sound := h.sound.handle .signal

/-- **Every event whose frames can be made out does to the server what it does to the sessions**,
and ends without a fault. -/
theorem handle (h : w.Shows s) {event : TcpEvent} (hasks : s.Asks P event) :
    ∃ w', w.handle event = (.ok w', ((sessionMachine (serverMachine ℕ)).step s event).2) ∧
      w'.Shows ((sessionMachine (serverMachine ℕ)).step s event).1 := by
  cases event with
  | accept => exact ⟨_, rfl, h.doAccept⟩
  | read c chunk beyond =>
    by_cases hread :
      (w.connection c).Live ∧ chunk.length ≤ (w.connection c).stream.readableDataSize
    · refine ⟨_, ?_, h.readNext hasks hread⟩
      have hrequests := h.readRequests_eq hasks hread
      have harrive := h.arrive_eq c chunk
      rw [if_pos hread] at harrive
      have heffects :
          (w.handle (.read c chunk beyond)).2 = (s.read (serverMachine ℕ) c chunk).2 := by
        rw [MqttTcpServer.handle, if_pos hread, handleRead_eq, Sessions.read, harrive]
        simp only [hrequests, h.state_eq]
        rfl
      exact Prod.ext (handle_read_of_ok hread (congrArg Prod.snd hrequests)) heffects
    · have harrive := h.arrive_eq c chunk
      rw [if_neg hread] at harrive
      have hnone : s.read (serverMachine ℕ) c chunk = (s, []) := by rw [Sessions.read, harrive]
      refine ⟨w, ?_, ?_⟩
      · change w.handle _ = (_, (s.read (serverMachine ℕ) c chunk).2)
        rw [MqttTcpServer.handle, if_neg hread, hnone]
      · change w.Shows (s.read (serverMachine ℕ) c chunk).1
        rwa [hnone]
  | readError c =>
    by_cases hreading : (w.connection c).reading = true
    · have hsound := h.sound.handle (.readError c)
      rw [MqttTcpServer.handle, if_pos hreading] at hsound
      rw [MqttTcpServer.handle, if_pos hreading]
      refine ⟨_, rfl, h.leave (idles_stop w c) hsound rfl (fun hlive => ?_) fun c' hne => ?_⟩
      · exact (connection_of_live_stop hlive).1 rfl
      · rw [stop_finishRead_eq]
        exact connection_modify_of_ne w hne fun k => k.finishRead.stop
    · have hdead : ¬(w.connection c).Live := fun hlive => hreading hlive.1
      have hresidue := h.residue_eq c
      rw [if_neg hdead] at hresidue
      rw [MqttTcpServer.handle, if_neg hreading]
      refine ⟨w, rfl, ?_⟩
      change w.Shows (s.leave c)
      rwa [Sessions.leave_eq_self hresidue]
  | readAborted c =>
    refine ⟨_, rfl, h.leave (idles_finishRead w c) (h.sound.handle (.readAborted c)) rfl
      (fun hlive => ?_) fun c' hne => connection_modify_of_ne w hne _⟩
    exact (connection_of_live_finishRead hlive).1 rfl
  | signal => exact ⟨_, rfl, h.doAwaitStop⟩

end Shows

end MqttTcpServer

/-! ## Runs -/

open MqttTcpServer

/-- From a server that shows the sessions, a run whose frames all can be made out ends without a
fault in one that shows what the sessions have come to, and calls what they call. -/
lemma exists_run_shows {w : MqttTcpServer} {s : Sessions (MqttServer ℕ)} (hshows : w.Shows s)
    {events : List TcpEvent}
    (h : (sessionMachine (serverMachine ℕ)).Along (Sessions.Asks fun _ => True) s events) :
    ∃ w', tcpServerMachine.run (.ok w) events =
        (.ok w', ((sessionMachine (serverMachine ℕ)).run s events).2) ∧
      w'.Shows ((sessionMachine (serverMachine ℕ)).run s events).1 := by
  have hstep : ∀ (w : Except Fault MqttTcpServer) (s : Sessions (MqttServer ℕ)) (event : TcpEvent),
      (∃ w', w = .ok w' ∧ w'.Shows s) → s.Asks (fun _ => True) event →
      (∃ w', (tcpServerMachine.step w event).1 = .ok w' ∧
          w'.Shows ((sessionMachine (serverMachine ℕ)).step s event).1) ∧
        (tcpServerMachine.step w event).2 =
          ((sessionMachine (serverMachine ℕ)).step s event).2 := by
    rintro _ s event ⟨w, rfl, hshows⟩ hasks
    obtain ⟨w', hhandle, hshows'⟩ := hshows.handle hasks
    rw [tcpServerMachine_step_ok, hhandle]
    exact ⟨⟨w', rfl, hshows'⟩, rfl⟩
  obtain ⟨⟨w', hw', hshows'⟩, heffects⟩ := Machine.run_simulation_along (T := Eq) rfl
    (fun os ps os' ps' ho hp => by rw [ho, hp]) hstep ⟨_, rfl, hshows⟩ h
  exact ⟨w', Prod.ext hw' heffects, hshows'⟩

end Tcp

end MqttCpp
