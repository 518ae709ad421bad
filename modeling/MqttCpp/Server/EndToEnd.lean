import MqttCpp.Server.AbstractBroker
import MqttCpp.Server.ClientMessage
import MqttCpp.Server.Connection

/-!
# From the bytes on the wire to the bytes that are delivered

Any number of connections, each with a stream of its own, share one server.  Their clients send
well-formed messages; the bytes arrive in reads that cut the messages anywhere and interleave in
any way.  The server then does what the abstract broker does with the messages in the order in
which they become complete.
-/

namespace MqttCpp

/-! ## Connections that share a server -/

/-- A read of a connection.  `beyond` is what the memory behind the copies of its messages
holds. -/
structure Read (C : Type) where
  connection : C
  chunk : Bytes
  beyond : Span → Bytes

/-- The chunks that a connection reads. -/
def chunksOf {C : Type} [DecidableEq C] (c : C) (reads : List (Read C)) : List Bytes :=
  reads.filterMap fun r => if r.connection = c then some r.chunk else none

/-- The chunks of the connection of the first read. -/
lemma chunksOf_cons_self {C : Type} [DecidableEq C] (r : Read C) (reads : List (Read C)) :
    chunksOf r.connection (r :: reads) = r.chunk :: chunksOf r.connection reads := by
  rw [chunksOf, List.filterMap_cons, if_pos rfl]
  rfl

/-- The first read is none of another connection. -/
lemma chunksOf_cons_of_ne {C : Type} [DecidableEq C] {c : C} {r : Read C} (h : c ≠ r.connection)
    (reads : List (Read C)) :
    chunksOf c (r :: reads) = chunksOf c reads := by
  rw [chunksOf, List.filterMap_cons, if_neg (Ne.symm h)]
  rfl

/-- A stream for every connection, and the server. -/
structure Hub (C : Type) where
  streams : C → MqttStream
  server : MqttServer C

namespace Hub

variable {C : Type}

/-- New streams, of the size they have in production, and a new server. -/
def new (useCache : Bool) : Hub C where
  streams _ := .new MqttTcpServer.numStreamBytes
  server := .new useCache

variable [BoostSplit] [DecidableEq C]

/-- A read is handled by the stream of its connection, and the server. -/
def read (h : Hub C) (r : Read C) : Except Fault (Hub C) × List (Effect C) :=
  match (h.streams r.connection).read (serve r.connection r.beyond) r.chunk (h.server, []) with
  | (.ok stream, (server, effects)) =>
    (.ok { streams := Function.update h.streams r.connection stream, server }, effects)
  | (.error e, (_, effects)) => (.error e, effects)

end Hub

/-- The connections and their server as a machine that reads; after a fault nothing happens any
more. -/
def hubMachine (C : Type) [BoostSplit] [DecidableEq C] :
    Machine (Except Fault (Hub C)) (Read C) (Effect C) where
  step
    | .ok h, r => h.read r
    | .error e, _ => (.error e, [])

/-! ## The order in which messages become complete -/

/-- A chunk that comes next in an input takes up where the bytes before it end. -/
lemma take_append_of_prefix {bytes chunk rest : Bytes} {n : ℕ}
    (h : chunk ++ rest <+: bytes.drop n) :
    bytes.take n ++ chunk = bytes.take (n + chunk.length) ∧
      rest <+: bytes.drop (n + chunk.length) := by
  obtain ⟨last, hlast⟩ := h
  rw [List.append_assoc] at hlast
  constructor
  · rw [List.take_add, ← hlast, List.take_left]
  · rw [← List.drop_drop, ← hlast, List.drop_left]
    exact List.prefix_append _ _

section Arrivals

variable {C : Type} [BoostSplit]

/-- The messages that are complete after the first `n` bytes. -/
def completeMessages : List ClientMessage → ℕ → List ClientMessage
  | [], _ => []
  | m :: ms, n => if m.bytes.length ≤ n then m :: completeMessages ms (n - m.bytes.length) else []

/-- The messages that `k` bytes complete when `n` bytes have come before. -/
def completedBy (ms : List ClientMessage) (n k : ℕ) : List ClientMessage :=
  (completeMessages ms (n + k)).drop (completeMessages ms n).length

/-- The bytes of messages, one behind the other. -/
def bytesOf (ms : List ClientMessage) : Bytes := ms.flatMap ClientMessage.bytes

/-- The messages in the order in which they become complete, when `seen c` bytes of a connection
have been read before. -/
def arrivals [DecidableEq C] (sent : C → List ClientMessage) :
    (C → ℕ) → List (Read C) → List (C × ClientMessage)
  | _, [] => []
  | seen, r :: reads =>
    let before := seen r.connection
    (completedBy (sent r.connection) before r.chunk.length).map (fun m => (r.connection, m)) ++
      arrivals sent (Function.update seen r.connection (before + r.chunk.length)) reads

/-- The complete messages are the complete parts of the bytes. -/
lemma map_bytes_completeMessages (ms : List ClientMessage) (n : ℕ) :
    (completeMessages ms n).map ClientMessage.bytes =
      completeWithin (ms.map ClientMessage.bytes) n := by
  induction ms generalizing n with
  | nil => rfl
  | cons m ms ih =>
    rw [completeMessages, List.map_cons, completeWithin]
    split
    · rw [List.map_cons, ih]
    · rfl

/-- What the framer cuts off the first `n` bytes of messages. -/
lemma cut_take_bytesOf (ms : List ClientMessage) (n : ℕ) :
    (MqttStream.messageFramer.cut ((bytesOf ms).take n)).1 =
      (completeMessages ms n).map ClientMessage.bytes := by
  rw [bytesOf, List.flatMap_def, map_bytes_completeMessages]
  refine Framer.cut_take (fun f hf => ?_) n
  obtain ⟨m, -, rfl⟩ := List.mem_map.mp hf
  exact m.isFrame_bytes

/-- What a well-formed message asks for is a well-formed request. -/
lemma ClientMessage.wellFormed_request (m : ClientMessage) : m.request.WellFormed := by
  have hwf := m.wellFormed
  unfold request
  cases hpacket : m.packet with
  | subscribe msgId topics =>
    rw [hpacket] at hwf
    exact hwf.2
  | unsubscribe msgId topics =>
    rw [hpacket] at hwf
    exact hwf.1
  | publish topic behind =>
    rw [hpacket] at hwf
    exact hwf.2
  | _ => trivial

/-- The requests of messages are made out. -/
lemma readRequests_eq {msgs : List Span} {ms : List ClientMessage}
    (h : msgs.map Span.bytes = ms.map ClientMessage.bytes) (beyond : Span → Bytes) :
    readRequests beyond msgs = (ms.map ClientMessage.request, .ok ()) := by
  induction msgs generalizing ms with
  | nil =>
    rw [List.map_nil, eq_comm, List.map_eq_nil_iff] at h
    rw [h]
    rfl
  | cons msg msgs ih =>
    cases ms with
    | nil => cases h
    | cons m ms =>
      obtain ⟨hmsg, hmsgs⟩ := List.cons.inj h
      rw [readRequests, m.readRequest_eq hmsg, ih hmsgs]
      rfl

/-- More bytes complete more messages. -/
lemma completeMessages_prefix (ms : List ClientMessage) {n n' : ℕ} (h : n ≤ n') :
    completeMessages ms n <+: completeMessages ms n' := by
  induction ms generalizing n n' with
  | nil => exact List.prefix_rfl
  | cons m ms ih =>
    rw [completeMessages, completeMessages]
    by_cases hm : m.bytes.length ≤ n
    · rw [if_pos hm, if_pos (Nat.le_trans hm h)]
      exact List.cons_prefix_cons.mpr ⟨rfl, ih (Nat.sub_le_sub_right h _)⟩
    · rw [if_neg hm]
      exact List.nil_prefix

/-- All the bytes complete all the messages. -/
lemma completeMessages_length_bytesOf (ms : List ClientMessage) :
    completeMessages ms (bytesOf ms).length = ms := by
  induction ms with
  | nil => rfl
  | cons m ms ih =>
    have hlen : (bytesOf (m :: ms)).length = m.bytes.length + (bytesOf ms).length := by
      rw [bytesOf, List.flatMap_cons, List.length_append]
      rfl
    rw [completeMessages, hlen, if_pos (Nat.le_add_right _ _), Nat.add_sub_cancel_left, ih]

/-- What some bytes complete, and what more bytes complete after them. -/
lemma completedBy_append (ms : List ClientMessage) (n k j : ℕ) :
    completedBy ms n k ++ completedBy ms (n + k) j = completedBy ms n (k + j) := by
  obtain ⟨first, hfirst⟩ := completeMessages_prefix ms (Nat.le_add_right n k)
  obtain ⟨second, hsecond⟩ := completeMessages_prefix ms (Nat.le_add_right (n + k) j)
  rw [completedBy, completedBy, completedBy, ← Nat.add_assoc, ← hsecond, List.drop_left, ← hfirst,
    List.drop_left, List.append_assoc, List.drop_left]

end Arrivals

/-! ## Reads -/

section Reads

variable {C : Type} [BoostSplit] [DecidableEq C]

/-- A stream that has read the first `n` bytes of messages keeps what the framer leaves. -/
def HasSeen (s : MqttStream) (ms : List ClientMessage) (n : ℕ) : Prop :=
  s.kept = (MqttStream.messageFramer.cut ((bytesOf ms).take n)).2

/-- The next bytes that a stream reads complete the messages that lie within them. -/
lemma HasSeen.messages_next {s : MqttStream} {ms : List ClientMessage} {n : ℕ}
    (h : HasSeen s ms n) {chunk : Bytes} (hfits : chunk.length ≤ s.readableDataSize)
    (hchunk : (bytesOf ms).take n ++ chunk = (bytesOf ms).take (n + chunk.length)) :
    (s.messages chunk).map Span.bytes =
        (completedBy ms n chunk.length).map ClientMessage.bytes ∧
      HasSeen (s.next chunk) ms (n + chunk.length) := by
  have hread := MqttStream.messages_next_eq_cut hfits
  have hcut := MqttStream.messageFramer.cut_append ((bytesOf ms).take n) chunk
  rw [← h, ← hread, hchunk] at hcut
  have hmessages := congrArg Prod.fst hcut
  simp only [cut_take_bytesOf] at hmessages
  refine ⟨?_, (congrArg Prod.snd hcut).symm⟩
  rw [completedBy, List.map_drop, hmessages, ← List.length_map ClientMessage.bytes, List.drop_left]

/-- The run of the server on the requests of messages. -/
def Hub.serverRun (h : Hub C) (c : C) (ms : List ClientMessage) :
    MqttServer C × List (Effect C) :=
  (serverMachine C).run h.server (ms.map fun m => (c, m.request))

/-- The hub after a read that completes messages. -/
def Hub.next (h : Hub C) (r : Read C) (ms : List ClientMessage) : Hub C where
  streams :=
    Function.update h.streams r.connection ((h.streams r.connection).next r.chunk)
  server := (h.serverRun r.connection ms).1

/-- **A read runs the requests of the messages that it completes.** -/
lemma Hub.read_eq {h : Hub C} {r : Read C} {ms : List ClientMessage} {n : ℕ}
    (hseen : HasSeen (h.streams r.connection) ms n)
    (hfits : r.chunk.length ≤ (h.streams r.connection).readableDataSize)
    (hchunk : (bytesOf ms).take n ++ r.chunk = (bytesOf ms).take (n + r.chunk.length)) :
    let new := completedBy ms n r.chunk.length
    h.read r = (.ok (h.next r new), (h.serverRun r.connection new).2) := by
  intro new
  have hrequests := readRequests_eq (hseen.messages_next hfits hchunk).1 r.beyond
  have hserve := read_serve r.connection r.beyond (h.streams r.connection) r.chunk h.server
  simp only [hrequests, List.map_map] at hserve
  unfold Hub.read
  rw [hserve]
  rfl

/-- The messages of a connection arrive in the order in which it sends them. -/
lemma filterMap_arrivals (sent : C → List ClientMessage) (seen : C → ℕ) (reads : List (Read C))
    (c : C) :
    (arrivals sent seen reads).filterMap (fun a => if a.1 = c then some a.2 else none) =
      completedBy (sent c) (seen c) (chunksOf c reads).flatten.length := by
  induction reads generalizing seen with
  | nil => exact List.drop_length.symm
  | cons r reads ih =>
    rw [arrivals, List.filterMap_append, List.filterMap_map, ih]
    rcases eq_or_ne c r.connection with rfl | hc
    · have hall : (completedBy (sent r.connection) (seen r.connection) r.chunk.length).filterMap
          ((fun a : C × ClientMessage => if a.1 = r.connection then some a.2 else none) ∘
            fun m => (r.connection, m)) =
          completedBy (sent r.connection) (seen r.connection) r.chunk.length := by
        simp
      rw [hall, Function.update_self, chunksOf_cons_self, List.flatten_cons, List.length_append,
        completedBy_append]
    · have hnone : (completedBy (sent r.connection) (seen r.connection) r.chunk.length).filterMap
          ((fun a : C × ClientMessage => if a.1 = c then some a.2 else none) ∘
            fun m => (r.connection, m)) = [] := by
        simp [Ne.symm hc]
      rw [hnone, Function.update_of_ne hc, chunksOf_cons_of_ne hc, List.nil_append]

/-- **Nothing is lost and nothing comes twice**: when a connection has sent all its bytes, the
messages that have arrived from it are those it sent, in order. -/
theorem filterMap_arrivals_of_flatten_eq (sent : C → List ClientMessage) {reads : List (Read C)}
    {c : C} (h : (chunksOf c reads).flatten = bytesOf (sent c)) :
    (arrivals sent (fun _ => 0) reads).filterMap (fun a => if a.1 = c then some a.2 else none) =
      sent c := by
  have hnone : completeMessages (sent c) 0 = [] := by
    cases sent c with
    | nil => rfl
    | cons m ms =>
      have hpos : ¬m.bytes.length ≤ 0 := by
        rw [m.bytes_eq]
        exact Nat.not_succ_le_zero _
      rw [completeMessages, if_neg hpos]
  rw [filterMap_arrivals, h, completedBy, hnone, Nat.zero_add, completeMessages_length_bytesOf]
  rfl

/-- The streams have read as many bytes of the messages as `seen` says, and the reads bring the
bytes that come next, as far as there is room for them. -/
structure Hub.Awaits (h : Hub C) (sent : C → List ClientMessage) (seen : C → ℕ)
    (reads : List (Read C)) : Prop where
  hasSeen : ∀ c, HasSeen (h.streams c) (sent c) (seen c)
  bytes : ∀ c, (chunksOf c reads).flatten <+: (bytesOf (sent c)).drop (seen c)
  fits : ∀ c, (h.streams c).Fits (chunksOf c reads)

/-- New streams await the bytes of the messages from their beginning. -/
lemma Hub.awaits_new (useCache : Bool) {sent : C → List ClientMessage} {reads : List (Read C)}
    (hbytes : ∀ c, (chunksOf c reads).flatten <+: bytesOf (sent c))
    (hfits : ∀ c, (MqttStream.new MqttTcpServer.numStreamBytes).Fits (chunksOf c reads)) :
    (Hub.new useCache).Awaits sent (fun _ => 0) reads where
  hasSeen c := by
    have hnil : MqttStream.messageFramer.cut [] = ([], []) :=
      Framer.cut_of_lt (MqttStream.messageFramer.frameLength_pos [])
    rw [HasSeen, List.take_zero, hnil]
    rfl
  bytes := hbytes
  fits := hfits

/-- **One read** runs the requests of the messages that it completes, and the reads behind it are
awaited. -/
lemma Hub.Awaits.read {h : Hub C} {sent : C → List ClientMessage} {seen : C → ℕ} {r : Read C}
    {reads : List (Read C)} (hawaits : h.Awaits sent seen (r :: reads)) :
    let new := completedBy (sent r.connection) (seen r.connection) r.chunk.length
    h.read r = (.ok (h.next r new), (h.serverRun r.connection new).2) ∧
      (h.next r new).Awaits sent
        (Function.update seen r.connection (seen r.connection + r.chunk.length)) reads := by
  intro new
  have hself := hawaits.fits r.connection
  have hnext := hawaits.bytes r.connection
  rw [chunksOf_cons_self] at hself hnext
  rw [List.flatten_cons] at hnext
  obtain ⟨hchunk, hrest⟩ := take_append_of_prefix hnext
  have hseen := (hawaits.hasSeen r.connection).messages_next hself.1 hchunk
  refine ⟨Hub.read_eq (hawaits.hasSeen r.connection) hself.1 hchunk, ?_, ?_, ?_⟩
  · intro c
    rcases eq_or_ne c r.connection with rfl | hc
    · rw [Function.update_self]
      exact (congrArg (HasSeen · _ _) (Function.update_self _ _ _)).mpr hseen.2
    · rw [Function.update_of_ne hc]
      exact (congrArg (HasSeen · _ _) (Function.update_of_ne hc _ _)).mpr (hawaits.hasSeen c)
  · intro c
    rcases eq_or_ne c r.connection with rfl | hc
    · rw [Function.update_self]
      exact hrest
    · have hmore := hawaits.bytes c
      rw [chunksOf_cons_of_ne hc] at hmore
      rwa [Function.update_of_ne hc]
  · intro c
    rcases eq_or_ne c r.connection with rfl | hc
    · exact (congrArg (MqttStream.Fits · _) (Function.update_self _ _ _)).mpr hself.2
    · have hother := hawaits.fits c
      rw [chunksOf_cons_of_ne hc] at hother
      exact (congrArg (MqttStream.Fits · _) (Function.update_of_ne hc _ _)).mpr hother

/-- **Reads run the requests of the messages in the order in which they become complete.** -/
theorem hub_run_eq {sent : C → List ClientMessage} {reads : List (Read C)} {seen : C → ℕ}
    {h : Hub C} (hawaits : h.Awaits sent seen reads) :
    let requests := (arrivals sent seen reads).map fun a => (a.1, a.2.request)
    ∃ h', (hubMachine C).run (.ok h) reads =
      (.ok h', ((serverMachine C).run h.server requests).2) := by
  induction reads generalizing seen h with
  | nil => exact ⟨h, rfl⟩
  | cons r reads ih =>
    obtain ⟨hread, hnext⟩ := hawaits.read
    obtain ⟨h', hrun⟩ := ih hnext
    refine ⟨h', ?_⟩
    rw [Machine.run_cons]
    change (((hubMachine C).run (h.read r).1 reads).1,
      (h.read r).2 ++ ((hubMachine C).run (h.read r).1 reads).2) = _
    rw [hread, hrun, arrivals, List.map_append, Machine.run_append, List.map_map]
    rfl

/-- **End to end.**  However the bytes of well-formed messages are cut into reads, and however the
reads of the connections interleave, the server does not fail, and every connection receives the
same byte strings in the same order as from the abstract broker, which is fed with the messages in
the order in which they become complete. -/
theorem received_hub_eq (useCache : Bool) (sent : C → List ClientMessage) (reads : List (Read C))
    (hbytes : ∀ c, (chunksOf c reads).flatten <+: bytesOf (sent c))
    (hfits : ∀ c, (MqttStream.new MqttTcpServer.numStreamBytes).Fits (chunksOf c reads)) :
    let run := (hubMachine C).run (.ok (.new useCache)) reads
    let requests := (arrivals sent (fun _ => 0) reads).map fun a => (a.1, a.2.request)
    (∃ h, run.1 = .ok h) ∧
      ∀ c, run.2.filterMap (received c) =
        ((abstractBroker C).run [] requests).2.filterMap (received c) := by
  intro run requests
  obtain ⟨h, hrun⟩ := hub_run_eq (Hub.awaits_new useCache hbytes hfits)
  have hproper : ∀ i ∈ requests, i.2.WellFormed := by
    intro i hi
    obtain ⟨a, -, rfl⟩ := List.mem_map.mp hi
    exact a.2.wellFormed_request
  refine ⟨⟨h, congrArg Prod.fst hrun⟩, fun c => ?_⟩
  have hcalls : run.2 = _ := congrArg Prod.snd hrun
  rw [hcalls]
  exact received_run_eq useCache hproper c

end Reads

/-- One connection subscribes to "a/+", another publishes to "a/b". -/
def sentInTurns : ℕ → List (@ClientMessage boostSplit) :=
  let _ := boostSplit
  fun
  | 0 =>
    [{ packet := .subscribe 7 [{ topic := [97, 47, 43], qos := 0 }]
       qos := 1
       length_body_le := by decide
       wellFormed := ⟨List.cons_ne_nil _ _, by decide⟩ }]
  | 1 =>
    [{ packet := .publish [97, 47, 98] [1]
       length_body_le := by decide
       wellFormed := ⟨List.cons_ne_nil _ _, by decide⟩ }]
  | _ => []

/-- Their bytes, in pieces and in turns. -/
def readsInTurns : List (Read ℕ) :=
  [⟨0, [0x82, 8, 0, 7], fun _ => []⟩, ⟨1, [0x30, 6, 0, 3, 97], fun _ => []⟩,
    ⟨0, [0, 3, 97, 47, 43, 0], fun _ => []⟩, ⟨1, [47, 98, 1], fun _ => []⟩]

/-- The subscriber receives the answer to its SUBSCRIBE and the bytes of the PUBLISH. -/
theorem received_hub_eq_in_turns :
    let _ := boostSplit
    ((hubMachine ℕ).run (.ok (.new true)) readsInTurns).2.filterMap (received 0) =
      [[0x90, 3, 0, 7, 0], [0x30, 6, 0, 3, 97, 47, 98, 1]] := by
  intro _
  have hbytes : ∀ c, (chunksOf c readsInTurns).flatten <+: bytesOf (sentInTurns c)
    | 0 => by decide +kernel
    | 1 => by decide +kernel
    | _ + 2 => List.nil_prefix
  have hlen : ∀ c, (chunksOf c readsInTurns).flatten.length ≤ 10
    | 0 => by decide
    | 1 => by decide
    | _ + 2 => Nat.zero_le 10
  have hfits : ∀ c, (MqttStream.new MqttTcpServer.numStreamBytes).Fits
      (chunksOf c readsInTurns) := by
    intro c
    have hsize : (MqttStream.new MqttTcpServer.numStreamBytes).buffer.length =
        MqttTcpServer.numStreamBytes := List.length_replicate
    apply MqttStream.fits_of_length_le
    rw [MqttStream.length_kept, hsize]
    exact (Nat.zero_add _).trans_le ((hlen c).trans (by decide))
  exact ((received_hub_eq true sentInTurns readsInTurns hbytes hfits).2 0).trans
    (by decide +kernel)

end MqttCpp
