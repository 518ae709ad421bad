import MqttCpp.Server.AbstractBroker
import MqttCpp.Server.Frames
import MqttCpp.Server.Network

/-!
# What the peers receive

What has been received on a socket, followed by what its pending writes have still to transmit, is
what has been passed to it: the bytes that are still to come are read from the memory as it is then.
So the invariant of the network (`Sound`) says that this memory is as it was when the calls were
made.  An event keeps it if the write that it transmits is the oldest of its socket, and if it
neither overwrites nor frees bytes that are still to be transmitted (`Safe`).
-/

namespace MqttCpp

/-! ## Buffers -/

/-- Parts of two byte strings that agree there are the same. -/
lemma drop_take_drop_eq {memory memory' : Bytes} {offset size sent : ℕ}
    (h : ∀ j, offset + sent ≤ j → j < offset + size → memory'[j]? = memory[j]?) :
    ((memory'.drop offset).take size).drop sent = ((memory.drop offset).take size).drop sent := by
  apply List.ext_getElem?
  intro i
  simp only [List.getElem?_drop, List.getElem?_take]
  split
  · rw [h _ (by omega) (by omega)]
  · rfl

namespace MqttStream

/-- The socket writes the chunk behind what was kept, and nowhere else. -/
lemma getElem?_buffer_write (s : MqttStream) (chunk : Bytes) {j : ℕ}
    (h : ¬(s.begin ≤ j ∧ j < s.begin + chunk.length)) :
    (s.write chunk).buffer[j]? = s.buffer[j]? := by
  change (s.kept ++ chunk ++ s.buffer.drop (s.begin + chunk.length))[j]? = _
  have hkept := s.length_kept
  by_cases hj : j < s.begin
  · have hlt : j < s.kept.length := by rwa [hkept]
    rw [List.append_assoc, List.getElem?_append_left hlt, kept, List.getElem?_take_of_lt hj]
  · have hle : (s.kept ++ chunk).length ≤ j := by
      rw [List.length_append, hkept]
      omega
    rw [List.getElem?_append_right hle, List.getElem?_drop, List.length_append, hkept]
    congr 1
    omega

/-- Shifting a slice writes to the beginning of the buffer, and nowhere else. -/
lemma getElem?_buffer_shift (s : MqttStream) (slice : Span) {j : ℕ} (h : slice.size ≤ j) :
    (s.shift slice).buffer[j]? = s.buffer[j]? := by
  change (slice.bytes ++ s.buffer.drop slice.size)[j]? = _
  have hle : slice.bytes.length ≤ j := by rwa [slice.length_bytes]
  rw [List.getElem?_append_right hle, List.getElem?_drop, slice.length_bytes]
  congr 1
  omega

end MqttStream

/-! ## The regions that are passed -/

/-- The bytes are in a static array or a vector, or in the buffer of a connection, of which this is
the memory. -/
def Region.Holds (memory : Bytes) (c : ℕ) (bytes : Bytes) (region : Region) : Prop :=
  region = .static bytes ∨ region = .vector bytes ∨
    ∃ offset, region = .stream c offset bytes.length ∧
      (memory.drop offset).take bytes.length = bytes

/-- A call of a handler of the connection that passes what is there, or disconnects it. -/
def Call.Holds (memory : Bytes) (c : ℕ) : Call → Prop
  | .newMessage _ region bytes => region.Holds memory c bytes
  | .disconnect c' => c' = c

section FrameCalls

variable [BoostSplit]

/-- The calls of a request pass what is there. -/
lemma holds_of_mem_call {memory : Bytes} {c offset : ℕ} {msg : Span} {beyond : Bytes} {r : Request}
    (hmsg : msg.bytes = (memory.drop offset).take msg.size)
    (hread : readRequest msg beyond = .ok r) (s : MqttServer ℕ) {call : Call}
    (h : call ∈ (s.handle c r).2.map (r.call c offset)) : call.Holds memory c := by
  obtain ⟨e, he, rfl⟩ := List.mem_map.mp h
  cases r with
  | publish topic bytes =>
    obtain ⟨call, hcall, rfl⟩ := List.mem_map.mp he
    have hbytes := MqttBroker.snd_of_mem_publish hcall
    rw [eq_bytes_of_readRequest hread] at hbytes
    refine Or.inr (Or.inr ⟨offset, rfl, ?_⟩)
    rw [hbytes, Span.length_bytes, ← hmsg]
  | connect =>
    rw [List.mem_singleton.mp he]
    exact Or.inl rfl
  | pingreq =>
    rw [List.mem_singleton.mp he]
    exact Or.inl rfl
  | subscribe msgId topics =>
    rw [List.mem_singleton.mp he]
    exact Or.inr (Or.inl rfl)
  | unsubscribe msgId topics =>
    rw [List.mem_singleton.mp he]
    exact Or.inr (Or.inl rfl)
  | disconnect =>
    rw [List.mem_singleton.mp he]
    rfl
  | unknown => cases he

/-- So do all the calls of a read. -/
lemma holds_of_mem_frameCalls {memory : Bytes} {c : ℕ} {beyond : Span → Bytes} {offset : ℕ}
    {msgs : List Span} (hmsgs : MqttStream.LaidOut memory offset msgs) (s : MqttServer ℕ)
    {call : Call} (h : call ∈ frameCalls c beyond s offset msgs) : call.Holds memory c := by
  induction msgs generalizing s offset with
  | nil => cases h
  | cons msg msgs ih =>
    unfold frameCalls at h
    cases hread : readRequest msg (beyond msg) with
    | error e =>
      rw [hread] at h
      cases h
    | ok r =>
      rw [hread] at h
      rcases List.mem_append.mp h with hfirst | hrest
      · exact holds_of_mem_call hmsgs.1 hread s hfirst
      · exact ih hmsgs.2 _ hrest

end FrameCalls

namespace Network

/-! ## Safe events -/

/-- No byte that a pending write of an open socket has still to transmit is in this part of the
buffer of the connection. -/
def Untouched (n : Network) (p lo hi : ℕ) : Prop :=
  ∀ c, (n.tcp.connection c).isOpen = true → ∀ w ∈ (n.socket c).pending, ∀ offset size,
    w.region = .stream p offset size →
      ∀ j, offset + w.sent ≤ j → j < offset + size → ¬(lo ≤ j ∧ j < hi)

/-- No write from a vector is pending on an open socket. -/
def VectorsSent (n : Network) : Prop :=
  ∀ c, (n.tcp.connection c).isOpen = true → ∀ w ∈ (n.socket c).pending, ∀ bytes,
    w.region ≠ .vector bytes

/-- The event transmits from the oldest write of a socket if from any, and overwrites or frees
nothing that is still to be transmitted: a read writes to the buffer behind what was kept, its end
writes the residue to the beginning, and the vector of a call is gone before the next call. -/
def Safe (n : Network) : NetEvent → Prop
  | .event (.read c chunk _) => n.handler = none → n.CanRead c chunk →
    n.Untouched c (n.tcp.connection c).stream.begin
      ((n.tcp.connection c).stream.begin + chunk.length)
  | .event _ => True
  | .call => ∀ h, n.handler = some h → h.calls ≠ [] → n.VectorsSent
  | .finish => ∀ h, n.handler = some h → h.calls = [] →
    n.VectorsSent ∧ n.Untouched h.connection 0 h.residue.size
  | .transmit c i _ _ =>
    (n.tcp.connection c).isOpen = true → i < (n.socket c).pending.length → i = 0
  | .destroy c => n.handler = none → n.CanDestroy c → ∀ hi, n.Untouched c 0 hi

/-- What the peers have received is the first part of what was passed, in the order of the calls,
and all of it once nothing is pending on an open socket. -/
structure Faithful (n : Network) : Prop where
  isPrefix : ∀ c, (n.socket c).received <+: (n.socket c).passed
  complete : ∀ c, (n.tcp.connection c).isOpen = true → (n.socket c).pending = [] →
    (n.socket c).received = (n.socket c).passed

/-! ## The invariant -/

/-- The handler of a read of a connection that has been made and not been destroyed; its calls pass
what is in the buffer. -/
structure HandlerSound (n : Network) (h : ReadHandler) : Prop where
  lt_made : h.connection < n.tcp.made
  alive : h.connection ∉ n.destroyed
  calls : ∀ call ∈ h.calls, call.Holds (n.buffer h.connection) h.connection

/-- The invariant of the network. -/
structure Sound (n : Network) : Prop where
  isPrefix : ∀ c, (n.socket c).received <+: (n.socket c).passed
  channels : ∀ c, (n.tcp.connection c).isOpen = true → (n.socket c).SoundFor n.contents
  connected : ∀ c, (n.tcp.connection c).isOpen = true → (n.tcp.connection c).connected = true
  reading : ∀ c, (n.tcp.connection c).reading = true → c < n.tcp.made
  registered : ∀ c ∈ n.tcp.connections, c < n.tcp.made
  unmade : ∀ c, n.tcp.made ≤ c → (n.tcp.connection c).isOpen = true
  owners : ∀ c, ∀ w ∈ (n.socket c).pending, ∀ p offset size,
    w.region = .stream p offset size → p < n.tcp.made
  destroyed : ∀ c ∈ n.destroyed, c < n.tcp.made ∧ (n.tcp.connection c).reading = false
  handler : ∀ h, n.handler = some h → n.HandlerSound h

/-- The invariant says that what the peers have received is what was passed. -/
lemma Sound.faithful {n : Network} (h : n.Sound) : n.Faithful where
  isPrefix := h.isPrefix
  complete c hopen hpending := ((h.channels c hopen).sound fun _ => 0).received_eq hpending

/-- A new network is sound. -/
lemma sound_new (useCache : Bool) : (new useCache).Sound where
  isPrefix _ := List.prefix_rfl
  channels _ _ := .new _
  connected _ _ := rfl
  reading c hc := by cases hc
  registered c hc := absurd hc (Finset.notMem_empty c)
  unmade _ _ := rfl
  owners _ w hw := absurd hw List.not_mem_nil
  destroyed c hc := absurd hc (Finset.notMem_empty c)
  handler h hh := by cases hh

/-! ### What is still to be transmitted -/

variable {n n' : Network}

variable (n n') in
/-- It stays where the buffers and the destroyed connections stay. -/
lemma unsent_eq_of_buffer_eq {w : PendingWrite Region} (hdestroyed : n'.destroyed = n.destroyed)
    (hbuffer : ∀ p offset size, w.region = .stream p offset size → n'.buffer p = n.buffer p)
    (garbage : ℕ → UInt8) : w.unsent (n'.contents garbage) = w.unsent (n.contents garbage) := by
  unfold PendingWrite.unsent
  cases hregion : w.region with
  | stream p offset size =>
    rw [contents_stream, contents_stream, hdestroyed, hbuffer p offset size hregion]
  | static bytes => rfl
  | vector bytes => rfl
  | freed size => rfl

variable (n n') in
/-- It stays where one buffer is overwritten in a part that has been transmitted. -/
lemma unsent_eq_of_untouched {w : PendingWrite Region} {p lo hi : ℕ}
    (hdestroyed : n'.destroyed = n.destroyed)
    (hother : ∀ q, q ≠ p → n'.buffer q = n.buffer q)
    (hsame : ∀ j, ¬(lo ≤ j ∧ j < hi) → (n'.buffer p)[j]? = (n.buffer p)[j]?)
    (huntouched : ∀ offset size, w.region = .stream p offset size →
      ∀ j, offset + w.sent ≤ j → j < offset + size → ¬(lo ≤ j ∧ j < hi))
    (garbage : ℕ → UInt8) : w.unsent (n'.contents garbage) = w.unsent (n.contents garbage) := by
  unfold PendingWrite.unsent
  cases hregion : w.region with
  | stream q offset size =>
    rw [contents_stream, contents_stream, hdestroyed]
    split
    · rfl
    · rcases eq_or_ne q p with rfl | hq
      · exact drop_take_drop_eq fun j hlow hhigh =>
          hsame j (huntouched offset size hregion j hlow hhigh)
      · rw [hother q hq]
  | static bytes => rfl
  | vector bytes => rfl
  | freed size => rfl

/-! ### The connections -/

variable (n n') in
/-- An event that writes nothing, makes no connection and opens none, and disconnects none whose
socket is open. -/
structure Rests : Prop where
  made_eq : n'.tcp.made = n.tcp.made
  connections_subset : n'.tcp.connections ⊆ n.tcp.connections
  destroyed_eq : n'.destroyed = n.destroyed
  socket_eq : n'.socket = n.socket
  isOpen_of : ∀ c, (n'.tcp.connection c).isOpen = true → (n.tcp.connection c).isOpen = true
  connected_of : ∀ c, (n'.tcp.connection c).isOpen = true →
    (n.tcp.connection c).connected = true → (n'.tcp.connection c).connected = true
  unmade : ∀ c, n.tcp.made ≤ c → (n.tcp.connection c).isOpen = true →
    (n'.tcp.connection c).isOpen = true

/-- One connection that has been made changes. -/
lemma rests_of_update {c : ℕ} {k : Connection} (hc : c < n.tcp.made)
    (hmade : n'.tcp.made = n.tcp.made) (hconnections : n'.tcp.connections = n.tcp.connections)
    (hdestroyed : n'.destroyed = n.destroyed) (hsocket : n'.socket = n.socket)
    (hconnection : n'.tcp.connection = Function.update n.tcp.connection c k)
    (hopen : k.isOpen = true → (n.tcp.connection c).isOpen = true)
    (hconnected : k.isOpen = true → (n.tcp.connection c).connected = true → k.connected = true) :
    n.Rests n' where
  made_eq := hmade
  connections_subset := hconnections.subset
  destroyed_eq := hdestroyed
  socket_eq := hsocket
  isOpen_of := by
    rw [hconnection]
    exact (Function.forall_update_iff _ fun q (k : Connection) =>
      k.isOpen = true → (n.tcp.connection q).isOpen = true).mpr ⟨hopen, fun q _ hq => hq⟩
  connected_of := by
    rw [hconnection]
    exact (Function.forall_update_iff _ fun q (k : Connection) => k.isOpen = true →
      (n.tcp.connection q).connected = true → k.connected = true).mpr
        ⟨hconnected, fun q _ _ hq => hq⟩
  unmade q hq hqopen := by
    rw [hconnection, Function.update_of_ne (Nat.ne_of_gt (Nat.lt_of_lt_of_le hc hq))]
    exact hqopen

/-- A connection with a read has been made and not been destroyed. -/
lemma Sound.notMem_destroyed (h : n.Sound) {c : ℕ}
    (hreading : (n.tcp.connection c).reading = true) : c ∉ n.destroyed := by
  intro hc
  rw [(h.destroyed c hc).2] at hreading
  cases hreading

/-- The invariant stays in such an event if what is still to be transmitted stays. -/
lemma Sound.rests (h : n.Sound) (hrests : n.Rests n')
    (hreading : ∀ c, (n'.tcp.connection c).reading = true → c < n.tcp.made ∧ c ∉ n.destroyed)
    (hunsent : ∀ c, (n'.tcp.connection c).isOpen = true → ∀ w ∈ (n.socket c).pending, ∀ garbage,
      w.unsent (n'.contents garbage) = w.unsent (n.contents garbage))
    (hhandler : ∀ hd, n'.handler = some hd → n'.HandlerSound hd) : n'.Sound where
  isPrefix := by
    rw [hrests.socket_eq]
    exact h.isPrefix
  channels c hopen := by
    rw [hrests.socket_eq]
    exact (h.channels c (hrests.isOpen_of c hopen)).congr (hunsent c hopen)
  connected c hopen := hrests.connected_of c hopen (h.connected c (hrests.isOpen_of c hopen))
  reading c hc := by
    rw [hrests.made_eq]
    exact (hreading c hc).1
  registered c hc := by
    rw [hrests.made_eq]
    exact h.registered c (hrests.connections_subset hc)
  unmade c hc := by
    rw [hrests.made_eq] at hc
    exact hrests.unmade c hc (h.unmade c hc)
  owners := by
    rw [hrests.made_eq, hrests.socket_eq]
    exact h.owners
  destroyed c hc := by
    rw [hrests.destroyed_eq] at hc
    refine ⟨?_, Bool.eq_false_iff.mpr fun hread => (hreading c hread).2 hc⟩
    rw [hrests.made_eq]
    exact (h.destroyed c hc).1
  handler := hhandler

/-! ### The events of the server -/

/-- The invariant stays when nobody is disconnected or opened and nobody begins to read. -/
lemma Sound.idles (h : n.Sound) {w' : MqttTcpServer} (hidles : n.tcp.Idles w')
    (hnone : n.handler = none)
    (hunmade : ∀ c, n.tcp.made ≤ c → (w'.connection c).isOpen = true) :
    ({ n with tcp := w' } : Network).Sound := by
  have hrests : n.Rests { n with tcp := w' } :=
    { made_eq := hidles.made_eq
      connections_subset := hidles.connections_subset
      destroyed_eq := rfl
      socket_eq := rfl
      isOpen_of := fun c => (hidles.connection c).isOpen_of
      connected_of := fun c _ hc => (hidles.connection c).connected_eq.trans hc
      unmade := fun c hc _ => hunmade c hc }
  refine h.rests hrests (fun c hc => ?_) (fun c _ w _ garbage => ?_) fun hd hhd => ?_
  · have hreading := (hidles.connection c).reading_of hc
    exact ⟨h.reading c hreading, h.notMem_destroyed hreading⟩
  · refine unsent_eq_of_buffer_eq n { n with tcp := w' } rfl (fun p _ _ _ => ?_) garbage
    exact congrArg MqttStream.buffer (hidles.connection p).stream_eq
  · change n.handler = some hd at hhd
    rw [hnone] at hhd
    cases hhd

/-- A new connection has a socket on which nothing has been written. -/
lemma Sound.accept (h : n.Sound) (hnone : n.handler = none) :
    ({ n with tcp := n.tcp.doAccept } : Network).Sound := by
  by_cases hacceptor : n.tcp.acceptorOpen = true
  · have hself := MqttTcpServer.connection_doAccept hacceptor
    have hother := fun c => MqttTcpServer.connection_doAccept_of_ne n.tcp (c := c)
    have hmade := MqttTcpServer.made_doAccept hacceptor
    have hconnections := MqttTcpServer.connections_doAccept hacceptor
    refine ⟨h.isPrefix, fun c hopen => ?_, fun c hopen => ?_, fun c hreading => ?_, fun c hc => ?_,
      fun c hc => ?_, fun c w hw p offset size hregion => ?_, fun c hc => ?_, fun hd hhd => ?_⟩
    · have hbefore : (n.tcp.connection c).isOpen = true := by
        rcases eq_or_ne c n.tcp.made with rfl | hne
        · exact h.unmade _ (Nat.le_refl _)
        · rwa [hother c hne] at hopen
      refine (h.channels c hbefore).congr fun w hw garbage => ?_
      refine unsent_eq_of_buffer_eq n { n with tcp := n.tcp.doAccept } rfl
        (fun p offset size hregion => ?_) garbage
      have hp := h.owners c w hw p offset size hregion
      exact congrArg (fun k : Connection => k.stream.buffer) (hother p (Nat.ne_of_lt hp))
    · rcases eq_or_ne c n.tcp.made with rfl | hne
      · rw [hself]
        rfl
      · rw [hother c hne] at hopen ⊢
        exact h.connected c hopen
    · rw [hmade]
      rcases eq_or_ne c n.tcp.made with rfl | hne
      · exact Nat.lt_succ_self _
      · rw [hother c hne] at hreading
        exact Nat.lt_succ_of_lt (h.reading c hreading)
    · rw [hmade]
      rw [hconnections, Finset.mem_insert] at hc
      rcases hc with rfl | hc
      · exact Nat.lt_succ_self _
      · exact Nat.lt_succ_of_lt (h.registered c hc)
    · rw [hmade] at hc
      rw [hother c (Nat.ne_of_gt hc)]
      exact h.unmade c (Nat.le_of_succ_le hc)
    · rw [hmade]
      exact Nat.lt_succ_of_lt (h.owners c w hw p offset size hregion)
    · obtain ⟨hlt, hreading⟩ := h.destroyed c hc
      refine ⟨?_, ?_⟩
      · rw [hmade]
        exact Nat.lt_succ_of_lt hlt
      · rw [hother c (Nat.ne_of_lt hlt)]
        exact hreading
    · change n.handler = some hd at hhd
      rw [hnone] at hhd
      cases hhd
  · rw [MqttTcpServer.doAccept_of_closed hacceptor]
    exact h

/-- A read that overwrites nothing that is still to be transmitted begins. -/
lemma Sound.beginRead [BoostSplit] (h : n.Sound) {c : ℕ} {chunk : Bytes}
    (hread : n.CanRead c chunk) (beyond : Span → Bytes)
    (huntouched : n.Untouched c (n.tcp.connection c).stream.begin
      ((n.tcp.connection c).stream.begin + chunk.length)) :
    (n.beginRead c chunk beyond).Sound := by
  have hmade := h.reading c hread.1.1
  have hself : (n.beginRead c chunk beyond).tcp.connection c =
      { (n.tcp.connection c).finishRead with
        stream := (n.tcp.connection c).stream.write chunk } := by
    rw [tcp_beginRead, MqttTcpServer.connection_modify_self]
  have hother : ∀ q, q ≠ c →
      (n.beginRead c chunk beyond).tcp.connection q = n.tcp.connection q := by
    intro q hq
    rw [tcp_beginRead, MqttTcpServer.connection_modify_of_ne _ hq]
  have hrests : n.Rests (n.beginRead c chunk beyond) :=
    rests_of_update hmade rfl rfl rfl rfl rfl id fun _ hconnected => hconnected
  have hbuffer : (n.beginRead c chunk beyond).buffer c =
      ((n.tcp.connection c).stream.write chunk).buffer :=
    congrArg (fun k : Connection => k.stream.buffer) hself
  refine h.rests hrests (fun q hq => ?_) (fun q hq w hw garbage => ?_) fun hd hhd => ?_
  · have hne : q ≠ c := by
      rintro rfl
      rw [hself] at hq
      cases hq
    rw [hother q hne] at hq
    exact ⟨h.reading q hq, h.notMem_destroyed hq⟩
  · refine unsent_eq_of_untouched n (n.beginRead c chunk beyond) rfl ?_ ?_
      (huntouched q (hrests.isOpen_of q hq) w hw) garbage
    · exact fun p hp => congrArg (fun k : Connection => k.stream.buffer) (hother p hp)
    · intro j hj
      rw [hbuffer]
      exact MqttStream.getElem?_buffer_write _ chunk hj
  · obtain rfl := Option.some.inj hhd
    refine ⟨hmade, h.notMem_destroyed hread.1.1, fun call hcall => ?_⟩
    change call.Holds ((n.beginRead c chunk beyond).buffer c) c
    rw [hbuffer]
    exact holds_of_mem_frameCalls ((n.tcp.connection c).stream.laidOut_messages chunk)
      n.tcp.mqttServer hcall

/-! ### The steps of a handler -/

/-- What is in a buffer after the vectors have been destroyed was there before. -/
lemma eq_stream_of_free {region : Region} {p offset size : ℕ}
    (h : region.free = .stream p offset size) : region = .stream p offset size := by
  cases region with
  | stream q offset' size' => exact h
  | static bytes => cases h
  | vector bytes => cases h
  | freed size' => cases h

/-- Destroying vectors leaves what is still to be transmitted from a buffer. -/
lemma Untouched.freeVectors {p lo hi : ℕ} (h : n.Untouched p lo hi) :
    n.freeVectors.Untouched p lo hi := by
  intro c hopen w hw offset size hregion
  obtain ⟨w₀, hw₀, rfl⟩ := List.mem_map.mp hw
  exact h c hopen w₀ hw₀ offset size (eq_stream_of_free hregion)

/-- Vectors from which nothing is pending are destroyed. -/
lemma Sound.freeVectors (h : n.Sound) (hsent : n.VectorsSent) : n.freeVectors.Sound where
  isPrefix := h.isPrefix
  channels c hopen := by
    have hself : (n.socket c).mapRegions Region.free = n.socket c := by
      apply Channel.mapRegions_eq_self
      intro w hw
      cases hregion : w.region with
      | vector bytes => exact absurd hregion (hsent c hopen w hw bytes)
      | stream p offset size => rfl
      | static bytes => rfl
      | freed size => rfl
    change ((n.socket c).mapRegions Region.free).SoundFor n.contents
    rw [hself]
    exact h.channels c hopen
  connected := h.connected
  reading := h.reading
  registered := h.registered
  unmade := h.unmade
  owners c w hw p offset size hregion := by
    obtain ⟨w₀, hw₀, rfl⟩ := List.mem_map.mp hw
    exact h.owners c w₀ hw₀ p offset size (eq_stream_of_free hregion)
  destroyed := h.destroyed
  handler hd hhd :=
    { lt_made := (h.handler hd hhd).lt_made
      alive := (h.handler hd hhd).alive
      calls := (h.handler hd hhd).calls }

/-- A region of which the memory holds the bytes holds them in the network. -/
lemma contents_of_holds {c : ℕ} (halive : c ∉ n.destroyed) {region : Region} {bytes : Bytes}
    (h : region.Holds (n.buffer c) c bytes) (garbage : ℕ → UInt8) :
    n.contents garbage region = bytes := by
  rcases h with rfl | rfl | ⟨offset, rfl, hbytes⟩
  · rfl
  · rfl
  · rw [contents_stream, if_neg halive, hbytes]

/-- The socket of one connection changes. -/
lemma Sound.update_socket (h : n.Sound) {c : ℕ} {ch : Channel Region UInt8}
    (hreceived : ch.received <+: ch.passed)
    (hchannel : (n.tcp.connection c).isOpen = true → ch.SoundFor n.contents)
    (howners : ∀ w ∈ ch.pending, ∀ p offset size, w.region = .stream p offset size →
      p < n.tcp.made) :
    ({ n with socket := Function.update n.socket c ch } : Network).Sound where
  isPrefix :=
    (Function.forall_update_iff n.socket fun _ ch => ch.received <+: ch.passed).mpr
      ⟨hreceived, fun q _ => h.isPrefix q⟩
  channels :=
    (Function.forall_update_iff n.socket fun q ch =>
      (n.tcp.connection q).isOpen = true → ch.SoundFor n.contents).mpr
        ⟨hchannel, fun q _ => h.channels q⟩
  connected := h.connected
  reading := h.reading
  registered := h.registered
  unmade := h.unmade
  owners :=
    (Function.forall_update_iff n.socket fun _ ch => ∀ w ∈ ch.pending, ∀ p offset size,
      w.region = .stream p offset size → p < n.tcp.made).mpr ⟨howners, fun q _ => h.owners q⟩
  destroyed := h.destroyed
  handler hd hhd :=
    { lt_made := (h.handler hd hhd).lt_made
      alive := (h.handler hd hhd).alive
      calls := (h.handler hd hhd).calls }

/-- `Connection::newMessage` with bytes that are where they are said to be. -/
lemma Sound.newMessage (h : n.Sound) {c : ℕ} (hmade : c < n.tcp.made) (halive : c ∉ n.destroyed)
    (target : ℕ) {region : Region} {bytes : Bytes}
    (hholds : region.Holds (n.buffer c) c bytes) : (n.newMessage target region bytes).Sound := by
  refine h.update_socket ?_ (fun hopen => ?_) fun w hw p offset size hregion => ?_
  · have hmore := (h.isPrefix target).trans (List.prefix_append _ bytes)
    split
    · exact hmore
    · exact hmore
  · rw [if_pos (h.connected target hopen)]
    exact (h.channels target hopen).start fun garbage => contents_of_holds halive hholds garbage
  · have hcases : w ∈ (n.socket target).pending ∨ w = { region } := by
      split at hw
      · rcases List.mem_append.mp hw with hold | hnew
        · exact Or.inl hold
        · exact Or.inr (List.mem_singleton.mp hnew)
      · exact Or.inl hw
    rcases hcases with hold | rfl
    · exact h.owners target w hold p offset size hregion
    · -- the write that was just started refers to the buffer of the handler
      rcases hholds with hstatic | hvector | ⟨offset', hstream, -⟩
      · cases hregion.symm.trans hstatic
      · cases hregion.symm.trans hvector
      · obtain ⟨rfl, -, -⟩ := Region.stream.inj (hregion.symm.trans hstream)
        exact hmade

/-- `Connection::disconnect`. -/
lemma Sound.disconnect (h : n.Sound) {c : ℕ} (hmade : c < n.tcp.made) :
    ({ n with tcp := n.tcp.modify c Connection.disconnect } : Network).Sound := by
  have hbuffer : ∀ q, ((n.tcp.modify c Connection.disconnect).connection q).stream.buffer =
      n.buffer q :=
    (Function.forall_update_iff _ fun q (k : Connection) => k.stream.buffer = n.buffer q).mpr
      ⟨rfl, fun _ _ => rfl⟩
  have hreading : ∀ q, ((n.tcp.modify c Connection.disconnect).connection q).reading =
      (n.tcp.connection q).reading :=
    (Function.forall_update_iff _ fun q (k : Connection) =>
      k.reading = (n.tcp.connection q).reading).mpr ⟨rfl, fun _ _ => rfl⟩
  have hrests : n.Rests { n with tcp := n.tcp.modify c Connection.disconnect } :=
    rests_of_update hmade rfl rfl rfl rfl rfl (fun hopen => by cases hopen)
      fun hopen => by cases hopen
  refine h.rests hrests (fun q hq => ?_) (fun q hq w hw garbage => ?_) fun hd hhd => ?_
  · have hq' := (hreading q).symm.trans hq
    exact ⟨h.reading q hq', h.notMem_destroyed hq'⟩
  · refine unsent_eq_of_buffer_eq n { n with tcp := n.tcp.modify c Connection.disconnect } rfl
      (fun p _ _ _ => ?_) garbage
    exact hbuffer p
  · refine ⟨(h.handler hd hhd).lt_made, (h.handler hd hhd).alive, ?_⟩
    change ∀ call ∈ hd.calls, call.Holds
      ((n.tcp.modify c Connection.disconnect).connection hd.connection).stream.buffer _
    rw [hbuffer]
    exact (h.handler hd hhd).calls

/-- The handler that runs makes its next call. -/
lemma Sound.callNext (h : n.Sound)
    (hsafe : ∀ hd, n.handler = some hd → hd.calls ≠ [] → n.VectorsSent) : n.callNext.1.Sound := by
  unfold Network.callNext
  split
  · rename_i c call calls residue result hhandler
    obtain ⟨hmade, halive, hcalls⟩ := h.handler _ hhandler
    have hfree := h.freeVectors (hsafe _ hhandler (List.cons_ne_nil _ _))
    have hnext : ({ n.freeVectors with
        handler := some { connection := c, calls, residue, result } } : Network).Sound := by
      refine ⟨hfree.isPrefix, hfree.channels, hfree.connected, hfree.reading, hfree.registered,
        hfree.unmade, hfree.owners, hfree.destroyed, fun hd hhd => ?_⟩
      obtain rfl := Option.some.inj hhd
      exact ⟨hmade, halive, fun call' hcall' => hcalls call' (List.mem_cons_of_mem _ hcall')⟩
    have hholds := hcalls call List.mem_cons_self
    cases call with
    | newMessage target region bytes => exact hnext.newMessage hmade halive target hholds
    | disconnect target =>
      obtain rfl : target = c := hholds
      exact hnext.disconnect hmade
  · exact h

/-- The end of a read changes one connection. -/
lemma connection_finishRead (n : Network) (c : ℕ) (residue : Span) (server : MqttServer ℕ) :
    (n.finishRead c residue server).tcp.connection =
      Function.update n.tcp.connection c (Connection.doRead { n.tcp.connection c with
        stream := (n.tcp.connection c).stream.shift residue }) := by
  change Function.update (Function.update n.tcp.connection c _) c
    (Connection.doRead (Function.update n.tcp.connection c _ c)) = _
  rw [Function.update_idem, Function.update_self]

/-- The handler of a read ends and shifts a residue over nothing that is still to be transmitted. -/
lemma Sound.finishRead (h : n.Sound) {c : ℕ} (hmade : c < n.tcp.made) (halive : c ∉ n.destroyed)
    {residue : Span} (huntouched : n.Untouched c 0 residue.size) (server : MqttServer ℕ) :
    (n.finishRead c residue server).Sound := by
  have hconnection := n.connection_finishRead c residue server
  have hrests : n.Rests (n.finishRead c residue server) := by
    refine rests_of_update hmade rfl rfl rfl rfl hconnection ?_ ?_
    · rw [Connection.isOpen_doRead]
      exact id
    · rw [Connection.connected_doRead]
      exact fun _ hconnected => hconnected
  refine h.rests hrests ?_ (fun q hq w hw garbage => ?_) fun hd hhd => ?_
  · rw [hconnection]
    refine (Function.forall_update_iff _ fun q (k : Connection) => k.reading = true →
      q < n.tcp.made ∧ q ∉ n.destroyed).mpr ⟨fun _ => ⟨hmade, halive⟩, fun q _ hq => ?_⟩
    exact ⟨h.reading q hq, h.notMem_destroyed hq⟩
  · refine unsent_eq_of_untouched n (n.finishRead c residue server) rfl (fun p hp => ?_)
      (fun j hj => ?_) (huntouched q (hrests.isOpen_of q hq) w hw) garbage
    · unfold buffer
      rw [hconnection, Function.update_of_ne hp]
    · unfold buffer
      rw [hconnection, Function.update_self, Connection.stream_doRead]
      exact MqttStream.getElem?_buffer_shift _ residue (by omega)
  · cases hhd

/-- The handler of a read ends when it has made its calls. -/
lemma Sound.finish (h : n.Sound)
    (hsafe : ∀ hd, n.handler = some hd → hd.calls = [] →
      n.VectorsSent ∧ n.Untouched hd.connection 0 hd.residue.size) : Holds Sound n.finish := by
  unfold Network.finish
  split
  · rename_i c residue result hhandler
    obtain ⟨hsent, huntouched⟩ := hsafe _ hhandler rfl
    obtain ⟨hmade, halive, -⟩ := h.handler _ hhandler
    cases result with
    | error e => trivial
    | ok server =>
      exact (h.freeVectors hsent).finishRead hmade halive huntouched.freeVectors server
  · exact h

/-! ### Transmissions and the end of connections -/

/-- A piece of the oldest write of an open socket is transmitted. -/
lemma Sound.transmit (h : n.Sound) {c i : ℕ} (hopen : (n.tcp.connection c).isOpen = true)
    (holdest : i < (n.socket c).pending.length → i = 0) (k : ℕ) (garbage : ℕ → UInt8) :
    ({ n with
      socket := Function.update n.socket c ((n.socket c).transmit (n.contents garbage) i k) } :
        Network).Sound := by
  have hchannel : ((n.socket c).transmit (n.contents garbage) i k).SoundFor n.contents := by
    by_cases hi : i < (n.socket c).pending.length
    · rw [holdest hi]
      exact (h.channels c hopen).transmit_oldest garbage k
    · rw [Channel.transmit_of_length_le (Nat.le_of_not_lt hi)]
      exact h.channels c hopen
  refine h.update_socket (hchannel.sound garbage).isPrefix (fun _ => hchannel)
    fun w hw p offset size hregion => ?_
  obtain ⟨w₀, hw₀, hsame, -⟩ := Channel.mem_pending_transmit hw
  exact h.owners c w₀ hw₀ p offset size (hsame.symm.trans hregion)

/-- A part of a buffer that has been transmitted to its end has nothing left. -/
lemma unsent_eq_nil {w : PendingWrite Region} {p offset size : ℕ}
    (hregion : w.region = .stream p offset size) (hsent : size ≤ w.sent) (garbage : ℕ → UInt8) :
    w.unsent (n.contents garbage) = [] := by
  unfold PendingWrite.unsent
  rw [hregion, contents_stream, List.drop_eq_nil_iff]
  refine Nat.le_trans ?_ hsent
  split
  · exact Nat.le_of_eq ((List.length_map _).trans List.length_range)
  · exact List.length_take_le size _

/-- A connection is destroyed from whose buffer nothing is still to be transmitted. -/
lemma Sound.destroy (h : n.Sound) (hnone : n.handler = none) {c : ℕ} (hc : n.CanDestroy c)
    (huntouched : ∀ hi, n.Untouched c 0 hi) :
    ({ n with destroyed := insert c n.destroyed } : Network).Sound := by
  refine ⟨h.isPrefix, fun q hq => ?_, h.connected, h.reading, h.registered, h.unmade, h.owners,
    fun q hq => ?_, fun hd hhd => ?_⟩
  · refine (h.channels q hq).congr fun w hw garbage => ?_
    by_cases howner : ∃ offset size, w.region = .stream c offset size
    · obtain ⟨offset, size, hregion⟩ := howner
      have hsent : size ≤ w.sent := by
        by_contra hlt
        -- the next byte to be transmitted would be lost
        exact huntouched (offset + w.sent + 1) q hq w hw offset size hregion (offset + w.sent)
          (Nat.le_refl _) (by omega) ⟨Nat.zero_le _, Nat.lt_succ_self _⟩
      rw [unsent_eq_nil hregion hsent, unsent_eq_nil hregion hsent]
    · unfold PendingWrite.unsent
      cases hregion : w.region with
      | stream p offset size =>
        have hne : p ≠ c := by
          rintro rfl
          exact howner ⟨offset, size, hregion⟩
        have hmem : p ∈ insert c n.destroyed ↔ p ∈ n.destroyed := by simp [hne]
        rw [contents_stream, contents_stream]
        simp only [hmem]
        rfl
      | static bytes => rfl
      | vector bytes => rfl
      | freed size => rfl
  · rcases Finset.mem_insert.mp hq with rfl | hold
    · exact ⟨hc.1, hc.2.2⟩
    · exact h.destroyed q hold
  · change n.handler = some hd at hhd
    rw [hnone] at hhd
    cases hhd

/-! ## Steps and runs -/

/-- What a call passes to the socket of a connection. -/
lemma passed_makeCall (n : Network) (call : Call) (c : ℕ) :
    ((n.makeCall call).socket c).passed =
      (n.socket c).passed ++ ([call.effect].filterMap (received c)).flatten := by
  cases call with
  | disconnect c' => exact (List.append_nil _).symm
  | newMessage c' region bytes =>
    change ((Function.update n.socket c' _) c).passed = _
    rcases eq_or_ne c' c with rfl | hne
    · rw [Function.update_self]
      have hreceived : [Call.effect (.newMessage c' region bytes)].filterMap (received c') =
          [bytes] := by simp [Call.effect, received]
      rw [hreceived, List.flatten_singleton]
      split <;> rfl
    · rw [Function.update_of_ne (Ne.symm hne)]
      simp [Call.effect, received, hne]

variable [BoostSplit]

/-- The events of the server other than reads keep the invariant. -/
lemma Sound.event (h : n.Sound) (hnone : n.handler = none) {event : TcpEvent}
    (hevent : ∀ c chunk beyond, event ≠ .read c chunk beyond) :
    Holds Sound ((n.tcp.handle event).1.map fun tcp => { n with tcp }) := by
  cases event with
  | accept => exact h.accept hnone
  | read c chunk beyond => exact absurd rfl (hevent c chunk beyond)
  | readError c =>
    rw [MqttTcpServer.handle]
    split
    · rename_i hreading
      refine h.idles (MqttTcpServer.idles_stop n.tcp c) hnone fun q hq => ?_
      have hne : q ≠ c := fun heq => absurd (h.reading c hreading) (Nat.not_lt.mpr (heq ▸ hq))
      rw [ConnectionManager.stop, MqttTcpServer.connection_modify_of_ne _ hne]
      change ((n.tcp.modify c Connection.finishRead).connection q).isOpen = true
      rw [MqttTcpServer.connection_modify_of_ne _ hne]
      exact h.unmade q hq
    · exact h
  | readAborted c =>
    refine h.idles (MqttTcpServer.idles_finishRead n.tcp c) hnone fun q hq => ?_
    rcases eq_or_ne q c with rfl | hne
    · rw [MqttTcpServer.connection_modify_self]
      exact h.unmade q hq
    · rw [MqttTcpServer.connection_modify_of_ne _ hne]
      exact h.unmade q hq
  | signal =>
    refine h.idles (MqttTcpServer.idles_doAwaitStop n.tcp) hnone fun q hq => ?_
    have hnot : q ∉ n.tcp.connections := fun hmem =>
      absurd (h.registered q hmem) (Nat.not_lt.mpr hq)
    change (if q ∈ n.tcp.connections then (n.tcp.connection q).stop
      else n.tcp.connection q).isOpen = true
    rw [if_neg hnot]
    exact h.unmade q hq

/-- An event of the server waits while a handler runs. -/
lemma step_event {event : TcpEvent} (hevent : ∀ c chunk beyond, event ≠ .read c chunk beyond) :
    (n.step (.event event)).1 =
      if n.handler.isNone then (n.tcp.handle event).1.map fun tcp => { n with tcp } else .ok n := by
  cases event with
  | read c chunk beyond => exact absurd rfl (hevent c chunk beyond)
  | accept => exact apply_ite Prod.fst _ _ _
  | readError c => exact apply_ite Prod.fst _ _ _
  | readAborted c => exact apply_ite Prod.fst _ _ _
  | signal => exact apply_ite Prod.fst _ _ _

/-- No event of the server but a read calls a connection. -/
lemma step_event_quiet {event : TcpEvent}
    (hevent : ∀ c chunk beyond, event ≠ .read c chunk beyond) :
    (n.step (.event event)).2 = [] := by
  have hquiet : (n.tcp.handle event).2 = [] := by
    cases event with
    | accept => rfl
    | read c chunk beyond => exact absurd rfl (hevent c chunk beyond)
    | readError c =>
      rw [MqttTcpServer.handle]
      split <;> rfl
    | readAborted c => rfl
    | signal => rfl
  have hstep : n.step (.event event) =
      if n.handler.isNone then
        ((n.tcp.handle event).1.map fun tcp => { n with tcp }, (n.tcp.handle event).2)
      else (.ok n, []) := by
    cases event with
    | read c chunk beyond => exact absurd rfl (hevent c chunk beyond)
    | accept => rfl
    | readError c => rfl
    | readAborted c => rfl
    | signal => rfl
  rw [hstep]
  split
  · exact hquiet
  · rfl

/-- **Every safe event keeps the invariant.** -/
theorem Sound.step (h : n.Sound) {event : NetEvent} (hsafe : n.Safe event) :
    Holds Sound (n.step event).1 := by
  cases event with
  | event event =>
    by_cases hevent : ∃ c chunk beyond, event = .read c chunk beyond
    · obtain ⟨c, chunk, beyond, rfl⟩ := hevent
      change Sound (if n.handler.isNone ∧ n.CanRead c chunk then n.beginRead c chunk beyond else n)
      split
      · rename_i hread
        have hnone : n.handler = none := Option.isNone_iff_eq_none.mp hread.1
        exact h.beginRead hread.2 beyond (hsafe hnone hread.2)
      · exact h
    · push Not at hevent
      rw [step_event hevent]
      split
      · rename_i hnone
        exact h.event (Option.isNone_iff_eq_none.mp hnone) hevent
      · exact h
  | call => exact h.callNext hsafe
  | finish => exact h.finish hsafe
  | transmit c i k garbage =>
    change Sound (if (n.tcp.connection c).isOpen then _ else n)
    split
    · rename_i hopen
      exact h.transmit hopen (hsafe hopen) k garbage
    · exact h
  | destroy c =>
    change Sound (if n.handler.isNone ∧ n.CanDestroy c then _ else n)
    split
    · rename_i hdestroy
      have hnone : n.handler = none := Option.isNone_iff_eq_none.mp hdestroy.1
      exact h.destroy hnone hdestroy.2 (hsafe hnone hdestroy.2)
    · exact h

/-- The network is sound in every state of a run whose events are safe. -/
theorem always_sound_of_safe {useCache : Bool} {events : List NetEvent}
    (h : networkMachine.Along (BeforeEvent Safe) (.ok (.new useCache)) events) :
    networkMachine.Always (Holds Sound) (.ok (.new useCache)) events := by
  have hstart : Holds Sound (.ok (Network.new useCache)) := sound_new useCache
  refine Machine.always_of_along ?_ hstart h
  rintro (e | n) event hQ hP
  · trivial
  · exact Sound.step hQ hP

/-! ## What is passed to the sockets -/

/-- The effects of a step are what it passes to the sockets. -/
lemma passed_step (n : Network) (event : NetEvent) :
    Holds (fun n' => ∀ c, (n'.socket c).passed =
      (n.socket c).passed ++ ((n.step event).2.filterMap (received c)).flatten)
      (n.step event).1 := by
  have hsame : ∀ {n' : Network}, (∀ c, (n'.socket c).passed = (n.socket c).passed) →
      Holds (fun n' => ∀ c, (n'.socket c).passed =
        (n.socket c).passed ++ (([] : List (Effect ℕ)).filterMap (received c)).flatten) (.ok n') :=
    fun h c => by rw [h c]; exact (List.append_nil _).symm
  cases event with
  | event event =>
    by_cases hread : ∃ c chunk beyond, event = .read c chunk beyond
    · obtain ⟨c, chunk, beyond, rfl⟩ := hread
      apply hsame
      intro c'
      split <;> rfl
    · push Not at hread
      rw [step_event hread, step_event_quiet hread]
      split
      · cases (n.tcp.handle event).1 with
        | error e => trivial
        | ok w => exact hsame fun _ => rfl
      · exact hsame fun _ => rfl
  | call =>
    change Holds _ (.ok n.callNext.1)
    intro c
    change _ = _ ++ (n.callNext.2.filterMap (received c)).flatten
    unfold callNext
    split
    · exact passed_makeCall _ _ c
    · exact (List.append_nil _).symm
  | finish =>
    change Holds _ n.finish
    unfold Network.finish
    split
    · rename_i c residue result hhandler
      cases result with
      | error e => trivial
      | ok server => exact hsame fun _ => rfl
    · exact hsame fun _ => rfl
  | transmit c i k garbage =>
    apply hsame
    intro c'
    split
    · change (Function.update n.socket c _ c').passed = _
      rcases eq_or_ne c' c with rfl | hne
      · rw [Function.update_self, Channel.passed_transmit]
      · rw [Function.update_of_ne hne]
    · rfl
  | destroy c =>
    apply hsame
    intro c'
    split <;> rfl

/-- What has been passed to a socket are the byte strings that its connection has been called
with. -/
lemma passed_eq (useCache : Bool) (events : List NetEvent) :
    let run := networkMachine.run (.ok (.new useCache)) events
    Holds (fun n => ∀ c,
      (n.socket c).passed = (run.2.filterMap (received c)).flatten) run.1 := by
  have hstep : ∀ (n : Except Fault Network) (effects : List (Effect ℕ)) (event : NetEvent),
      Holds (fun n => ∀ c,
          (n.socket c).passed = (effects.filterMap (received c)).flatten) n →
        Holds (fun n' => ∀ c, (n'.socket c).passed =
            ((effects ++ (networkMachine.step n event).2).filterMap (received c)).flatten)
          (networkMachine.step n event).1 := by
    rintro (e | n) effects event h
    · trivial
    · have hpassed := passed_step n event
      rw [networkMachine_step_ok]
      cases hnext : (n.step event).1 with
      | error e => trivial
      | ok n' =>
        rw [hnext] at hpassed
        intro c
        rw [hpassed c, h c, List.filterMap_append, List.flatten_append]
  have hstart : Holds (fun n => ∀ c, (n.socket c).passed =
      (([] : List (Effect ℕ)).filterMap (received c)).flatten) (.ok (Network.new useCache)) :=
    fun _ => rfl
  have hrun := Machine.trace_invariant (M := networkMachine) hstep hstart events
  rw [← Machine.run_snd_eq_trace] at hrun
  exact hrun

end Network

open Network in
/-- **What is written to a socket is what was published**, in every state of a run whose events are
safe: for any number of connections and any order of reads, calls, transmissions and ends of
connections, every peer has received a first part of the byte strings that were passed to its
`newMessage`, in the order of the calls, and all of them when nothing is pending.  What was passed
are the byte strings of the calls that have been made. -/
theorem always_faithful [BoostSplit] (useCache : Bool) (events : List NetEvent)
    (h : networkMachine.Along (BeforeEvent Safe) (.ok (.new useCache)) events) :
    networkMachine.Always (Holds Faithful) (.ok (.new useCache)) events ∧
      ∀ before, before <+: events →
        let run := networkMachine.run (.ok (.new useCache)) before
        Holds (fun n => ∀ c, (n.socket c).passed = (run.2.filterMap (received c)).flatten)
          run.1 := by
  have halways := always_sound_of_safe h
  exact ⟨halways.mono fun r hr => hr.mono fun n => Sound.faithful, fun before _ =>
    passed_eq useCache before⟩

namespace Network

/-! ## A message that is answered or passed on -/

/-- A read of one message that has one effect begins: its handler has one call to make. -/
lemma exists_handler_beginRead [BoostSplit] (n : Network) {c c' : ℕ} {frame answer : Bytes}
    {msg : Span} {r : Request} {beyond : Span → Bytes}
    (hmessages : (n.tcp.connection c).stream.messages frame = [msg])
    (hrequest : readRequest msg (beyond msg) = .ok r)
    (hanswer : (n.tcp.mqttServer.handle c r).2 = [.newMessage c' answer]) :
    (n.beginRead c frame beyond).handler =
      some { connection := c
             calls := [.newMessage c' (r.region c 0 answer) answer]
             residue := (n.tcp.connection c).stream.residue frame
             result := .ok (n.tcp.mqttServer.handle c r).1 } := by
  have hcalls : frameCalls c beyond n.tcp.mqttServer 0 [msg] =
      [.newMessage c' (r.region c 0 answer) answer] := by
    rw [frameCalls, hrequest]
    simp only [hanswer]
    rfl
  have hrequests : readRequests beyond [msg] = ([r], .ok ()) := by
    rw [readRequests, hrequest]
    rfl
  unfold beginRead MqttTcpServer.requests
  simp only [hmessages, hrequests, hcalls]
  rfl

/-- A client of which nothing has been read yet sends a message that has one effect, while nothing
is pending: the read and the call are safe, and after the call the bytes of the effect are all that
is pending. -/
lemma exists_step_message [BoostSplit] {n : Network} (hnone : n.handler = none)
    (hpending : ∀ q, (n.socket q).pending = []) {c c' : ℕ}
    (hself : n.tcp.connection c = (Connection.new MqttTcpServer.numStreamBytes).start)
    (hother : (n.tcp.connection c').connected = true) {answer : Bytes} {r : Request}
    (frame : Bytes) (beyond : Span → Bytes) (hsize : frame.length ≤ MqttTcpServer.numStreamBytes)
    (hcut : MqttStream.messageFramer.cut frame = ([frame], []))
    (hrequest : ∀ msg : Span, msg.bytes = frame → readRequest msg (beyond msg) = .ok r)
    (hanswer : (n.tcp.mqttServer.handle c r).2 = [.newMessage c' answer]) :
    ∃ n' residue, n.Safe (.event (.read c frame beyond)) ∧
      (n.beginRead c frame beyond).Safe .call ∧
      n.step (.event (.read c frame beyond)) = (.ok (n.beginRead c frame beyond), []) ∧
      (n.beginRead c frame beyond).step .call = (.ok n', [.newMessage c' answer]) ∧
      n'.handler = some { connection := c, calls := [], residue
                          result := .ok (n.tcp.mqttServer.handle c r).1 } ∧
      residue.size = 0 ∧ n'.tcp = (n.beginRead c frame beyond).tcp ∧
      n'.socket = Function.update n.socket c'
        ((n.socket c').start (r.region c 0 answer) answer) := by
  have hread : n.CanRead c frame := by
    refine ⟨?_, ?_⟩
    · rw [hself]
      exact ⟨rfl, rfl⟩
    · rw [hself]
      change _ ≤ (MqttStream.new MqttTcpServer.numStreamBytes).readableDataSize
      rwa [MqttStream.readableDataSize_new]
  obtain ⟨msg, hmsgs, hmsg⟩ := MqttStream.exists_messages_eq_of_cut_eq hsize hcut
  have hmessages : (n.tcp.connection c).stream.messages frame = [msg] := by
    rw [hself]
    exact hmsgs
  have hhandler := n.exists_handler_beginRead hmessages (hrequest msg hmsg) hanswer
  have hresidue : ((n.tcp.connection c).stream.residue frame).size = 0 := by
    have hcuts := congrArg Prod.snd (MqttStream.messages_next_eq_cut hread.2)
    have hkept : (n.tcp.connection c).stream.kept = [] := by
      rw [hself]
      rfl
    rw [MqttStream.next_eq_shift hread.2, MqttStream.kept_shift, hkept, List.nil_append, hcut]
      at hcuts
    have hbytes : ((n.tcp.connection c).stream.residue frame).bytes = [] := hcuts
    rw [← Span.length_bytes, hbytes]
    rfl
  have hquiet : ∀ (q : ℕ) (w : PendingWrite Region), w ∉ (n.socket q).pending := by
    intro q w hw
    rw [hpending q] at hw
    cases hw
  refine ⟨(n.beginRead c frame beyond).callNext.1, _, fun _ _ q _ w hw => absurd hw (hquiet q w),
    fun _ _ _ q _ w hw => absurd hw (hquiet q w), ?_, ?_, ?_, hresidue, ?_, ?_⟩
  · change (Except.ok (if n.handler.isNone ∧ n.CanRead c frame then _ else n), _) = _
    rw [if_pos ⟨by rw [hnone]; rfl, hread⟩]
  · change (Except.ok _, (n.beginRead c frame beyond).callNext.2) = _
    rw [callNext_of_handler hhandler]
    rfl
  · rw [callNext_of_handler hhandler]
    rfl
  · rw [callNext_of_handler hhandler]
    rfl
  · have hconnected : ((n.beginRead c frame beyond).tcp.connection c').connected = true := by
      rw [tcp_beginRead]
      rcases eq_or_ne c' c with rfl | hne
      · rw [MqttTcpServer.connection_modify_self]
        exact hother
      · rwa [MqttTcpServer.connection_modify_of_ne _ hne]
    have hfree : (n.beginRead c frame beyond).freeVectors.socket = n.socket :=
      funext fun q => Channel.mapRegions_eq_self fun w hw => absurd hw (hquiet q w)
    rw [callNext_of_handler hhandler]
    change Function.update (n.beginRead c frame beyond).freeVectors.socket c'
      (if ((n.beginRead c frame beyond).tcp.connection c').connected then
        ((n.beginRead c frame beyond).freeVectors.socket c').start _ _ else _) = _
    rw [if_pos hconnected, hfree]

end Network

/-- The bytes of a PUBLISH of one byte on the topic "a". -/
def publishOnA : Bytes := [0x30, 4, 0, 1, 97, 5]

/-- What the server makes of such a message. -/
lemma readRequest_of_publishOnA {msg : Span} (h : msg.bytes = publishOnA) (beyond : Bytes) :
    readRequest msg beyond = .ok (.publish [97] publishOnA) := by
  refine readRequest_eq_of_requestOf ?_ ?_ beyond
  · rw [h]
    rfl
  · rw [h]
    decide

/-- A client subscribes and receives the answer; another one publishes, and a part of what it
publishes has been transmitted when its read ends. -/
def publishInPieces : List NetEvent :=
  [.event .accept, .event .accept, .event (.read 1 subscribeToA fun _ => []), .call,
    .transmit 1 0 5 fun _ => 0, .finish, .event (.read 0 publishOnA fun _ => []), .call,
    .transmit 1 0 2 fun _ => 0, .finish]

section Publication

open Network

/-- A new server to which two clients have connected. -/
def twoAccepted : Network :=
  { Network.new false with tcp := (MqttTcpServer.new false).doAccept.doAccept }

/-- The answer to the SUBSCRIBE is complete when its read ends, and a part of the PUBLISH has been
transmitted: all these events are safe. -/
lemma along_safe_publish :
    (@networkMachine boostSplit).Along (BeforeEvent Safe) (.ok (.new false)) publishInPieces := by
  let _ := boostSplit
  -- the SUBSCRIBE of the second client, and the answer to it
  obtain ⟨n₁, residue, hsafe, hsafe', hread, hcall, hhandler, -, htcp, hsocket⟩ :=
    exists_step_message (n := twoAccepted) rfl (fun _ => rfl)
      (rfl : twoAccepted.tcp.connection 1 = _)
      (rfl : (twoAccepted.tcp.connection 1).connected = true) subscribeToA (fun _ => [])
      (by decide) (by decide +kernel) (fun msg hmsg => readRequest_of_subscribeToA hmsg _) rfl
  refine ⟨trivial, trivial, hsafe, ?_⟩
  change networkMachine.Along _ (twoAccepted.step _).1 _
  rw [hread]
  refine ⟨hsafe', ?_⟩
  change networkMachine.Along _ ((twoAccepted.beginRead _ _ _).step .call).1 _
  rw [hcall]
  have hopen : (n₁.tcp.connection 1).isOpen = true := by
    rw [htcp, tcp_beginRead, MqttTcpServer.connection_modify_self]
    rfl
  refine ⟨fun _ _ => rfl, ?_⟩
  change networkMachine.Along _ (.ok (if (n₁.tcp.connection 1).isOpen then _ else n₁)) _
  rw [if_pos hopen]
  set n₂ : Network := { n₁ with
    socket := Function.update n₁.socket 1 ((n₁.socket 1).transmit (n₁.contents _) 0 5) }
  have hpending : ∀ q, (n₂.socket q).pending = [] := by
    intro q
    change (Function.update n₁.socket 1 _ q).pending = []
    rcases eq_or_ne q 1 with rfl | hne
    · rw [Function.update_self]
      have hall : (PendingWrite.unsent (n₁.contents fun _ => 0)
          { region := .vector (suback 1) }).length ≤ 5 := Nat.le_refl 5
      refine Channel.pending_transmit_oldest ?_ hall
      rw [hsocket, Function.update_self]
      rfl
    · rw [Function.update_of_ne hne, hsocket, Function.update_of_ne hne]
      rfl
  refine ⟨fun _ _ _ => ⟨fun q _ w hw => ?_, fun q _ w hw => ?_⟩, ?_⟩
  · rw [hpending q] at hw
    cases hw
  · rw [hpending q] at hw
    cases hw
  change networkMachine.Along _ n₂.finish _
  rw [finish_of_handler (n := n₂) hhandler]
  -- the PUBLISH of the first client
  set n₃ := n₂.freeVectors.finishRead 1 residue
    (twoAccepted.tcp.mqttServer.handle 1 (.subscribe 1 [{ topic := [97], qos := 0 }])).1
  have hpending' : ∀ q, (n₃.socket q).pending = [] := by
    intro q
    change ((n₂.socket q).pending.map _) = []
    rw [hpending q]
    rfl
  have hself : n₃.tcp.connection 0 = (Connection.new MqttTcpServer.numStreamBytes).start := by
    rw [connection_finishRead]
    change (Function.update n₁.tcp.connection 1 _) 0 = _
    rw [Function.update_of_ne (by decide), htcp]
    rfl
  have hconnected : (n₃.tcp.connection 1).connected = true := by
    rw [connection_finishRead]
    change (Function.update n₁.tcp.connection 1 _ 1).connected = _
    rw [Function.update_self, Connection.connected_doRead]
    change (n₁.tcp.connection 1).connected = true
    rw [htcp, tcp_beginRead, MqttTcpServer.connection_modify_self]
    rfl
  obtain ⟨n₄, residue', hsafe₄, hsafe₄', hread', hcall', hhandler', hresidue', htcp', hsocket'⟩ :=
    exists_step_message (n := n₃) rfl hpending' hself hconnected publishOnA (fun _ => [])
      (by decide) (by decide +kernel) (fun msg hmsg => readRequest_of_publishOnA hmsg _) rfl
  refine ⟨hsafe₄, ?_⟩
  change networkMachine.Along _ (n₃.step _).1 _
  rw [hread']
  refine ⟨hsafe₄', ?_⟩
  change networkMachine.Along _ ((n₃.beginRead _ _ _).step .call).1 _
  rw [hcall']
  have hopen' : (n₄.tcp.connection 1).isOpen = true := by
    rw [htcp', tcp_beginRead, MqttTcpServer.connection_modify_of_ne _ (by decide),
      connection_finishRead]
    change (Function.update n₁.tcp.connection 1 _ 1).isOpen = true
    rw [Function.update_self, Connection.isOpen_doRead]
    exact hopen
  refine ⟨fun _ _ => rfl, ?_⟩
  change networkMachine.Along _ (.ok (if (n₄.tcp.connection 1).isOpen then _ else n₄)) _
  rw [if_pos hopen']
  -- what is left of it is in the buffer, in front of a residue of no bytes
  have hregion : ∀ q, ∀ w ∈ (Function.update n₄.socket 1
      ((n₄.socket 1).transmit (n₄.contents fun _ => 0) 0 2) q).pending,
        w.region = .stream 0 0 6 := by
    intro q w hw
    rcases eq_or_ne q 1 with rfl | hne
    · rw [Function.update_self] at hw
      obtain ⟨w₀, hw₀, hregion, -⟩ := Channel.mem_pending_transmit hw
      rw [hsocket', Function.update_self, Channel.start, hpending' 1] at hw₀
      rw [hregion, List.mem_singleton.mp hw₀]
      rfl
    · rw [Function.update_of_ne hne, hsocket', Function.update_of_ne hne, hpending' q] at hw
      cases hw
  refine ⟨fun hd hhd _ =>
    ⟨fun q _ w hw bytes hvector => ?_, fun q _ w hw offset size _ j _ _ => ?_⟩, trivial⟩
  · cases (hregion q w hw).symm.trans hvector
  · rw [hhandler'] at hhd
    obtain rfl := Option.some.inj hhd
    rw [hresidue']
    omega

/-- The rest of the PUBLISH is transmitted when its read has ended. -/
theorem always_faithful_publish :
    let _ := boostSplit
    let start : Except Fault Network := .ok (.new false)
    let events := publishInPieces ++ [.transmit 1 0 4 fun _ => 0]
    networkMachine.Along (BeforeEvent Safe) start events ∧
      networkMachine.Always (Holds Faithful) start events ∧
        ∀ before, before <+: events →
          let run := networkMachine.run start before
          Holds (fun n => ∀ c, (n.socket c).passed = (run.2.filterMap (received c)).flatten)
            run.1 := by
  intro _ start events
  have hsafe : networkMachine.Along (BeforeEvent Safe) start events := by
    refine along_safe_publish.append ⟨?_, trivial⟩
    cases (networkMachine.run start publishInPieces).1 with
    | error e => trivial
    | ok n => exact fun _ _ => rfl
  exact ⟨hsafe, always_faithful false events hsafe⟩

/-- A client subscribes, and the answer is not transmitted before `MqttServer::newMessage` has
returned: the client receives what is in the memory of the vector afterwards. -/
theorem not_always_faithful_suback :
    let _ := boostSplit
    ¬networkMachine.Always (Holds Faithful) (.ok (.new false))
      [.event .accept, .event (.read 0 subscribeToA fun _ => []), .call, .finish,
        .transmit 0 0 5 fun _ => 0] := by
  intro _ halways
  set n : Network := { Network.new false with tcp := (MqttTcpServer.new false).doAccept }
  obtain ⟨n₁, residue, -, -, hread, hcall, hhandler, -, htcp, hsocket⟩ :=
    exists_step_message (n := n) rfl (fun _ => rfl)
      (rfl : n.tcp.connection 0 = _)
      (rfl : (n.tcp.connection 0).connected = true) subscribeToA (fun _ => [])
      (by decide) (by decide +kernel) (fun msg hmsg => readRequest_of_subscribeToA hmsg _) rfl
  have hread' : networkMachine.Always (Holds Faithful) (n.step _).1 _ := halways.2.2
  rw [hread] at hread'
  have hcall' : networkMachine.Always (Holds Faithful)
      ((n.beginRead _ _ _).step .call).1 _ := hread'.2
  rw [hcall] at hcall'
  have hfinish : networkMachine.Always (Holds Faithful) n₁.finish _ := hcall'.2
  rw [finish_of_handler hhandler] at hfinish
  set n₂ := n₁.freeVectors.finishRead 0 residue
    (n.tcp.mqttServer.handle 0 (.subscribe 1 [{ topic := [97], qos := 0 }])).1
  have htransmit : Holds Faithful (.ok (if (n₂.tcp.connection 0).isOpen then _ else n₂)) :=
    hfinish.2
  have hopen : (n₂.tcp.connection 0).isOpen = true := by
    rw [connection_finishRead, Function.update_self, Connection.isOpen_doRead]
    change (n₁.tcp.connection 0).isOpen = true
    rw [htcp, tcp_beginRead, MqttTcpServer.connection_modify_self]
    rfl
  rw [if_pos hopen] at htransmit
  have hfaithful : Faithful _ := htransmit
  have hsocket' : n₂.socket 0 =
      { pending := [{ region := .freed 5 }], received := [], passed := suback 1 } := by
    change (n₁.socket 0).mapRegions Region.free = _
    rw [hsocket, Function.update_self]
    rfl
  have hprefix : ((n₂.socket 0).transmit (n₂.contents fun _ => 0) 0 5).received <+:
      ((n₂.socket 0).transmit (n₂.contents fun _ => 0) 0 5).passed := by
    have hsent := hfaithful.isPrefix 0
    simp only [Function.update_self] at hsent
    exact hsent
  rw [hsocket'] at hprefix
  have hjunk : [0, 0, 0, 0, 0] <+: suback 1 := hprefix
  exact absurd hjunk (by decide)

end Publication

end MqttCpp
