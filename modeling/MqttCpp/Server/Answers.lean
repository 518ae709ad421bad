import MqttCpp.Message.Inverse
import MqttCpp.Server.AbstractBroker
import MqttCpp.Server.Connection

/-!
# What the server writes

The server answers with arrays of bytes.  They are what the `cerealise` of the messages writes, so
that a client that decodes them with the same classes finds the message id it sent.  And whatever
the server passes to a connection, its answers and the messages that it passes on, is a frame: a
client that takes apart what it receives as the stream of the server does finds just the byte
strings that were passed.
-/

namespace MqttCpp

open MqttStream

/-! ## The answers as messages -/

/-- The answer to a CONNECT is a CONNACK that accepts. -/
lemma written_connack : written MqttConnack.new = .ok connackOk := by
  rw [MqttConnack.written_eq]
  have hheader : MqttConnack.new.header.headerBytes = [32, 2] := by decide +kernel
  rw [hheader]
  rfl

/-- The answer to a SUBSCRIBE is a SUBACK that grants one QoS of 0, to however many topics. -/
lemma written_suback (msgId : UInt16) :
    written (MqttSuback.new msgId [0]) = .ok (suback msgId) := by
  have hheader : (MqttSuback.new msgId [0]).header.headerBytes = [0x90, 3] := by
    change MqttFixedHeader.headerBytes { type := .suback, remaining := UInt32.ofNat 3 } = _
    decide +kernel
  change written (MqttSuback.mk (MqttSuback.new msgId [0]).header msgId [0]) = _
  rw [MqttSuback.written_eq, hheader]
  rfl

/-- The answer to an UNSUBSCRIBE is an UNSUBACK. -/
lemma written_unsuback (msgId : UInt16) :
    written (MqttUnsuback.new msgId) = .ok (unsuback msgId) := by
  have hheader : (MqttUnsuback.new msgId).header.headerBytes = [0xb0, 2] := by
    change MqttFixedHeader.headerBytes { type := .unsuback, remaining := 2 } = _
    decide +kernel
  rw [MqttUnsuback.written_eq, hheader]
  rfl

/-- What was written is read back, if it is short. -/
lemma ReadUndoesWrite.readsAs {M : Type} [Cerealises M] {valid start : M → Prop}
    (h : ReadUndoesWrite valid start) {m old : M} (hm : valid m) (hold : start old) {bytes : Bytes}
    (hbytes : written m = .ok bytes) (hlen : bytes.length < 2 ^ 31) : ReadsAs old m bytes := by
  obtain ⟨bytes', hwritten, hread⟩ := h.read_written m hm
  obtain rfl : bytes = bytes' := Except.ok.inj (hbytes.symm.trans hwritten)
  exact hread hlen old hold

/-- **A client reads back what the server answers**: the message id that it sent, whatever the
members of the message were before. -/
theorem answers_readBack (msgId uninit : UInt16) (h : MqttFixedHeader) (old : MqttUnsuback) :
    ReadsAs MqttConnack.new MqttConnack.new connackOk ∧
      ReadsAs (MqttSuback.ofHeader h uninit) (MqttSuback.new msgId [0]) (suback msgId) ∧
      ReadsAs old (MqttUnsuback.new msgId) (unsuback msgId) := by
  have hqos : (0 : UInt8) ≤ 3 := by decide
  have htwo : (2 : UInt32) ≤ 268435455 := by decide
  have hthree : (3 : UInt32) ≤ 268435455 := by decide
  have hcode : MqttConnack.new.code < 256 := by decide
  refine ⟨?_, ?_, ?_⟩
  · exact MqttConnack.readUndoesWrite.readsAs ⟨⟨hqos, htwo⟩, hcode⟩ hcode written_connack
      (by decide)
  · exact MqttSuback.readUndoesWrite.readsAs ⟨hqos, hthree⟩ trivial (written_suback msgId)
      (by simp [suback])
  · exact MqttUnsuback.readUndoesWrite.readsAs ⟨hqos, htwo⟩ trivial (written_unsuback msgId)
      (by simp [unsuback])

/-! ## Frames -/

/-- A request that passes a frame on, if it passes on anything. -/
def Request.PassesFrame : Request → Prop
  | .publish _ bytes => messageFramer.IsFrame bytes
  | _ => True

/-- The effect passes a frame to a connection, if it passes it anything. -/
def Effect.PassesFrame {C : Type} : Effect C → Prop
  | .newMessage _ bytes => messageFramer.IsFrame bytes
  | .disconnect _ => True

/-- What is made of a message of a stream passes on a frame. -/
lemma passesFrame_of_mem_messages {s : MqttStream} {chunk : Bytes} {msg : Span}
    (hmsg : msg ∈ s.messages chunk) {beyond : Bytes} {r : Request}
    (h : readRequest msg beyond = .ok r) : r.PassesFrame := by
  cases r with
  | publish topic bytes =>
    rw [Request.PassesFrame, eq_bytes_of_readRequest h]
    rw [messages] at hmsg
    split at hmsg
    · obtain ⟨b₀, b₁, rest, hbytes, hrest⟩ := exists_bytes_of_mem_dispatch hmsg
      exact isFrame_of_eq hbytes hrest
    · cases hmsg
  | _ => trivial

variable [BoostSplit]

/-- Answers are frames, and what is passed on is one if the request says so. -/
lemma MqttServer.passesFrame_of_mem_handle {C : Type} [DecidableEq C] (s : MqttServer C) (c : C)
    {r : Request} (hr : r.PassesFrame) {e : Effect C} (h : e ∈ (s.handle c r).2) :
    e.PassesFrame := by
  cases r with
  | publish topic bytes =>
    obtain ⟨call, hcall, rfl⟩ := List.mem_map.mp h
    rw [Effect.PassesFrame, MqttBroker.snd_of_mem_publish hcall]
    exact hr
  | connect =>
    rw [List.mem_singleton.mp h]
    exact isFrame_of_eq rfl rfl
  | pingreq =>
    rw [List.mem_singleton.mp h]
    exact isFrame_of_eq rfl rfl
  | subscribe msgId topics =>
    rw [List.mem_singleton.mp h]
    exact isFrame_of_eq rfl rfl
  | unsubscribe msgId topics =>
    rw [List.mem_singleton.mp h]
    exact isFrame_of_eq rfl rfl
  | disconnect =>
    rw [List.mem_singleton.mp h]
    trivial
  | unknown => cases h

namespace MqttTcpServer

/-- One event. -/
lemma passesFrame_of_mem_handle (w : MqttTcpServer) {event : TcpEvent} {e : Effect ℕ}
    (h : e ∈ (w.handle event).2) : e.PassesFrame := by
  cases event with
  | read c chunk beyond =>
    rw [handle] at h
    split at h
    · rw [handleRead_eq] at h
      have hstep : ∀ (s : MqttServer ℕ) (i : ℕ × Request), True → i.2.PassesFrame →
          True ∧ ∀ o ∈ ((serverMachine ℕ).step s i).2, Effect.PassesFrame o :=
        fun s i _ hi => ⟨trivial, fun o ho => s.passesFrame_of_mem_handle i.1 hi ho⟩
      refine (Machine.run_spec (Q := fun _ => True) hstep trivial fun i hi => ?_).2 e h
      obtain ⟨r, hr, rfl⟩ := List.mem_map.mp hi
      obtain ⟨msg, hmsg, hread⟩ := exists_of_mem_readRequests hr
      exact passesFrame_of_mem_messages hmsg hread
    · cases h
  | readError c =>
    rw [handle] at h
    split at h
    · cases h
    · cases h
  | accept => cases h
  | readAborted c => cases h
  | signal => cases h

/-- **Whatever the server passes to a connection is a frame**, in every run. -/
theorem passesFrame_of_mem_run (useCache : Bool) (events : List TcpEvent) :
    ∀ e ∈ (tcpServerMachine.run (.ok (.new useCache)) events).2, Effect.PassesFrame e := by
  refine (Machine.run_spec (Q := fun _ => True) (P := fun _ => True) ?_ trivial
    fun _ _ => trivial).2
  rintro (e | w) event - -
  · exact ⟨trivial, fun o ho => absurd ho List.not_mem_nil⟩
  · exact ⟨trivial, fun o ho => w.passesFrame_of_mem_handle ho⟩

/-- **A client that takes apart what it was sent finds what was passed**: cutting the concatenation
of the byte strings that a run has passed to a connection, as the stream does, gives them back. -/
theorem cut_received (useCache : Bool) (events : List TcpEvent) (c : ℕ) :
    let sent := (tcpServerMachine.run (.ok (.new useCache)) events).2.filterMap (received c)
    messageFramer.cut sent.flatten = (sent, []) := by
  intro sent
  have hframes : ∀ f ∈ sent, messageFramer.IsFrame f := by
    intro f hf
    obtain ⟨e, he, hreceived⟩ := List.mem_filterMap.mp hf
    have hframe := passesFrame_of_mem_run useCache events e he
    cases e with
    | newMessage c' bytes =>
      rw [received] at hreceived
      split at hreceived
      · rwa [← Option.some.inj hreceived]
      · cases hreceived
    | disconnect c' => cases hreceived
  have hcut := Framer.cut_frames hframes []
  have hnil : messageFramer.cut [] = ([], []) := Framer.cut_of_lt (messageFramer.frameLength_pos [])
  rw [List.append_nil, hnil, List.append_nil] at hcut
  exact hcut

end MqttTcpServer

end MqttCpp
