import MqttCpp.Message.ListMessage
import MqttCpp.Message.PublishTopic
import MqttCpp.Server.Requests

/-!
# Decoding a SUBSCRIBE and an UNSUBSCRIBE

Both messages are a header, a message id and an array without a length: entries up to the end of
the bytes.  The server decodes them from the frame that the stream has cut off, and nothing makes
the lengths inside the frame fit into it: a frame that is not a concatenation of its parts is read
beyond its end, or fails the assertion in `grainRawArray`.
-/

namespace MqttCpp

open Cereal

/-! ## The two messages -/

/-- A SUBSCRIBE is a message that ends in an array. -/
lemma createSubscribe_eq :
    createSubscribe = listMessage MqttSubscribe.Topic.cerealise {} MqttSubscribe.mk := rfl

/-- So is an UNSUBSCRIBE. -/
lemma createUnsubscribe_eq :
    createUnsubscribe = listMessage grainString [] MqttUnsubscribe.mk := rfl

/-! ## What is decoded -/

section Decode

variable {T M : Type} {grain : T → CerealM Decerealiser T} {default : T} {valid : T → Prop}
  {encode : T → Bytes} {mk : MqttFixedHeader → UInt16 → List T → M}

/-- A frame made of a byte of flags, the digits of a length, a message id and entries. -/
def IsListFrame (valid : T → Prop) (encode : T → Bytes) (frame : Bytes) : Prop :=
  ∃ (b : UInt8) (ds : Bytes) (v : UInt16) (ts : List T),
    MqttFixedHeader.IsDigits ds ∧ (∀ t ∈ ts, valid t) ∧
      frame = b :: ds ++ (be16 v ++ ts.flatMap encode)

/-- When the header was read from the frame, decoding goes on from the beginning. -/
lemma decode_of_header {create : MqttFixedHeader → CerealM Decerealiser M} {b : UInt8} {ds : Bytes}
    (hds : MqttFixedHeader.IsDigits ds) {frame beyond : Bytes}
    (hdigits : b :: ds <+: frame ++ beyond) :
    decode create (.new frame beyond) =
      create (.ofFlags b (MqttFixedHeader.digitsValue 1 0 ds)) (.new frame beyond) := by
  have hheader : ({} : MqttFixedHeader).cerealise (Decerealiser.new frame beyond) = .ok _ :=
    (MqttFixedHeader.cerealise_read_iff {} _ rfl).mpr ⟨b, ds, hds, rfl, hdigits, rfl⟩
  rw [decode, StateT.bind_of_eq_ok hheader]
  rfl

/-- **A frame of the right form is decoded**, whatever the memory behind it holds. -/
theorem decode_listMessage_eq_ok
    (hgrain : Parses (grain default) fun t input => valid t ∧ input = encode t)
    (hencode : ∀ t, 0 < (encode t).length) {b : UInt8} {ds : Bytes}
    (hds : MqttFixedHeader.IsDigits ds) (v : UInt16) {ts : List T} (hts : ∀ t ∈ ts, valid t)
    {frame : Bytes} (hsize : frame.length < 2 ^ 31)
    (hframe : frame = b :: ds ++ (be16 v ++ ts.flatMap encode)) (beyond : Bytes) :
    ∃ d, decode (listMessage grain default mk) (.new frame beyond) =
      .ok (mk (.ofFlags b (MqttFixedHeader.digitsValue 1 0 ds)) v ts, d) ∧
        d.pos = frame.length := by
  have hdigits : b :: ds <+: frame ++ beyond := by
    rw [hframe, List.append_assoc]
    exact List.prefix_append _ _
  rw [decode_of_header hds hdigits]
  exact listMessage_eq_ok hgrain hencode _ hds v hts hsize hframe beyond

/-- **Nothing else is decoded** when there is no memory behind the frame. -/
theorem isListFrame_of_decode_eq_ok
    (hgrain : Parses (grain default) fun t input => valid t ∧ input = encode t) {frame : Bytes}
    (hsize : frame.length < 2 ^ 31) {p : M × Decerealiser}
    (h : decode (listMessage grain default mk) (.new frame []) = .ok p) :
    IsListFrame valid encode frame := by
  obtain ⟨hdr, d, hhdr, -⟩ := StateT.bind_eq_ok_iff.mp h
  obtain ⟨b, ds, hds, rfl, hdigits, -⟩ :=
    (MqttFixedHeader.cerealise_read_iff {} hdr rfl).mp hhdr
  have hdigits' : b :: ds <+: frame ++ [] := hdigits
  rw [decode_of_header hds hdigits', listMessage] at h
  obtain ⟨header, d₁, hheader, hbody⟩ := StateT.bind_eq_ok_iff.mp h
  obtain ⟨b', ds', rest, hds', hframe, hbehind⟩ := HasRead.of_cerealise hheader
  obtain ⟨v, d₂, hid, hloop⟩ := StateT.bind_eq_ok_iff.mp hbody
  obtain ⟨rest', rfl, hentries⟩ := hbehind.of_grainUInt16 hid
  obtain ⟨topics, d₃, htopics, -⟩ := StateT.bind_eq_ok_iff.mp hloop
  obtain ⟨ts, hts, hleft⟩ :=
    exists_of_grainRawArray_eq_ok hgrain hentries.pos_le (hentries.length_lt hsize)
      hentries.beyond_eq htopics
  rw [hentries.drop_bytes] at hleft
  exact ⟨b', ds', v, ts, hds', hts, by rw [hframe, hleft]⟩

/-- How decoding fails when there is no memory behind the frame: with a read of it, not with the
assertion and not at a bound of the model. -/
lemma eq_badRead_of_decode_eq_error
    (hgrain : Parses (grain default) fun t input => valid t ∧ input = encode t)
    (hencode : ∀ t, 0 < (encode t).length) (hfails : FailsWith (grain default) (· = .badRead))
    {frame : Bytes} (hsize : frame.length < 2 ^ 31) {e : Fault}
    (h : decode (listMessage grain default mk) (.new frame []) = .error e) : e = .badRead := by
  rcases StateT.bind_eq_error_iff.mp h with hhdr | ⟨hdr, d, hhdr, -⟩
  · exact MqttFixedHeader.eq_of_cerealise_eq_error rfl hhdr
  · obtain ⟨b, ds, hds, rfl, hdigits, -⟩ :=
      (MqttFixedHeader.cerealise_read_iff {} hdr rfl).mp hhdr
    have hdigits' : b :: ds <+: frame ++ [] := hdigits
    rw [decode_of_header hds hdigits', listMessage] at h
    rcases StateT.bind_eq_error_iff.mp h with hheader | ⟨header, d₁, hheader, hbody⟩
    · exact MqttFixedHeader.eq_of_cerealise_eq_error rfl hheader
    · obtain ⟨_, _, rest, -, -, hbehind⟩ := HasRead.of_cerealise hheader
      rcases StateT.bind_eq_error_iff.mp hbody with hid | ⟨v, d₂, hid, hloop⟩
      · exact failsWith_grainUInt16 0 d₁ e hid
      · obtain ⟨rest', -, hentries⟩ := hbehind.of_grainUInt16 hid
        rcases StateT.bind_eq_error_iff.mp hloop with htopics | ⟨topics, d₃, -, hreturn⟩
        · exact grainRawArray_failsWith hgrain hencode hfails hentries.pos_le
            (hentries.length_lt hsize) hentries.beyond_eq htopics
        · cases hreturn

/-- Decoding a frame comes to an end whatever the memory behind it holds, and ends inside it. -/
def StaysInside (create : MqttFixedHeader → CerealM Decerealiser M) (frame : Bytes) : Prop :=
  ∀ beyond, ∃ msg d, decode create (.new frame beyond) = .ok (msg, d) ∧ d.pos ≤ frame.length

/-- **Decoding stays inside the frame exactly when it is made of its parts.** -/
theorem staysInside_listMessage_iff
    (hgrain : Parses (grain default) fun t input => valid t ∧ input = encode t)
    (hencode : ∀ t, 0 < (encode t).length) {frame : Bytes} (hsize : frame.length < 2 ^ 31) :
    StaysInside (listMessage grain default mk) frame ↔ IsListFrame valid encode frame := by
  constructor
  · intro hinside
    obtain ⟨msg, d, hdecode, -⟩ := hinside []
    exact isListFrame_of_decode_eq_ok hgrain hsize hdecode
  · rintro ⟨b, ds, v, ts, hds, hts, hframe⟩ beyond
    obtain ⟨d, hdecode, hpos⟩ :=
      decode_listMessage_eq_ok hgrain hencode hds v hts hsize hframe beyond
    exact ⟨_, d, hdecode, Nat.le_of_eq hpos⟩

/-- **Otherwise a byte behind the frame is read**: where there is no memory, decoding fails with
that read. -/
theorem not_staysInside_listMessage_iff
    (hgrain : Parses (grain default) fun t input => valid t ∧ input = encode t)
    (hencode : ∀ t, 0 < (encode t).length) (hfails : FailsWith (grain default) (· = .badRead))
    {frame : Bytes} (hsize : frame.length < 2 ^ 31) :
    ¬StaysInside (listMessage grain default mk) frame ↔
      decode (listMessage grain default mk) (.new frame []) = .error .badRead := by
  constructor
  · intro hinside
    rw [staysInside_listMessage_iff hgrain hencode hsize] at hinside
    cases hdecode : decode (listMessage grain default mk) (.new frame []) with
    | error e => rw [eq_badRead_of_decode_eq_error hgrain hencode hfails hsize hdecode]
    | ok p => exact absurd (isListFrame_of_decode_eq_ok hgrain hsize hdecode) hinside
  · intro hread hinside
    obtain ⟨msg, d, hdecode, -⟩ := hinside []
    rw [hread] at hdecode
    cases hdecode

end Decode

/-! ## The requests -/

/-- The request of a message that begins like a SUBSCRIBE and is made of its parts. -/
lemma readRequest_of_subscribe {msg : Span} {b : UInt8} {ds : Bytes}
    (htype : MqttType.ofCode (b >>> 4).toNat = .subscribe) (hds : MqttFixedHeader.IsDigits ds)
    (v : UInt16) {ts : List MqttSubscribe.Topic} (hts : ∀ t ∈ ts, t.topic.length < 65536)
    (hsize : msg.bytes.length < 2 ^ 31)
    (hmsg : msg.bytes = b :: ds ++ (be16 v ++ ts.flatMap MqttSubscribe.Topic.encode))
    (beyond : Bytes) : readRequest msg beyond = .ok (.subscribe v ts) := by
  have hlist : ∃ d, decode createSubscribe (.new msg.bytes beyond) =
      .ok (⟨.ofFlags b (MqttFixedHeader.digitsValue 1 0 ds), v, ts⟩, d) ∧
        d.pos = msg.bytes.length :=
    decode_listMessage_eq_ok (MqttSubscribe.Topic.parses_cerealise {})
      MqttSubscribe.Topic.length_encode_pos hds v hts hsize hmsg beyond
  obtain ⟨d, hdecode, -⟩ := hlist
  have hmessage : getMessageType msg = .ok .subscribe :=
    (getMessageType_eq hmsg).trans (congrArg Except.ok htype)
  rw [readRequest_eq_of_subscribe hmessage, hdecode]
  rfl

/-- The request of a message that begins like an UNSUBSCRIBE and is made of its parts. -/
lemma readRequest_of_unsubscribe {msg : Span} {b : UInt8} {ds : Bytes}
    (htype : MqttType.ofCode (b >>> 4).toNat = .unsubscribe) (hds : MqttFixedHeader.IsDigits ds)
    (v : UInt16) {topics : List Str} (htopics : ∀ topic ∈ topics, topic.length < 65536)
    (hsize : msg.bytes.length < 2 ^ 31)
    (hmsg : msg.bytes = b :: ds ++ (be16 v ++ topics.flatMap encodeString))
    (beyond : Bytes) : readRequest msg beyond = .ok (.unsubscribe v topics) := by
  have hlist : ∃ d, decode createUnsubscribe (.new msg.bytes beyond) =
      .ok (⟨.ofFlags b (MqttFixedHeader.digitsValue 1 0 ds), v, topics⟩, d) ∧
        d.pos = msg.bytes.length :=
    decode_listMessage_eq_ok (parses_grainString []) length_encodeString_pos hds v htopics hsize
      hmsg beyond
  obtain ⟨d, hdecode, -⟩ := hlist
  have hmessage : getMessageType msg = .ok .unsubscribe :=
    (getMessageType_eq hmsg).trans (congrArg Except.ok htype)
  rw [readRequest_eq_of_unsubscribe hmessage, hdecode]
  rfl

/-! ## The frames of a stream -/

/-- The bytes of a SUBSCRIBE whose parts make up the frame. -/
def IsSubscribeFrame : Bytes → Prop :=
  IsListFrame (fun t : MqttSubscribe.Topic => t.topic.length < 65536) MqttSubscribe.Topic.encode

/-- The bytes of an UNSUBSCRIBE whose parts make up the frame. -/
def IsUnsubscribeFrame : Bytes → Prop :=
  IsListFrame (fun topic : Str => topic.length < 65536) encodeString

/-- When the server decodes a message, it stays inside. -/
def DecodesInside (msg : Span) : Prop :=
  match getMessageType msg with
  | .ok .subscribe => StaysInside createSubscribe msg.bytes
  | .ok .unsubscribe => StaysInside createUnsubscribe msg.bytes
  | _ => True

/-- When the server decodes a message, its parts make up the frame. -/
def PartsFit (msg : Span) : Prop :=
  match getMessageType msg with
  | .ok .subscribe => IsSubscribeFrame msg.bytes
  | .ok .unsubscribe => IsUnsubscribeFrame msg.bytes
  | _ => True

/-- An `int` can count the bytes of a message that a stream passes on. -/
lemma length_lt_of_mem_allMessages {s : MqttStream} {chunks : List Bytes} {msg : Span}
    (h : msg ∈ s.allMessages chunks) : msg.bytes.length < 2 ^ 31 := by
  obtain ⟨b₀, b₁, rest, hmsg, hrest⟩ := MqttStream.exists_bytes_of_mem_allMessages h
  have hbyte := b₁.toNat_lt
  rw [hmsg, List.length_cons, List.length_cons, hrest]
  omega

/-- So it is with the messages of one read. -/
lemma length_lt_of_mem_messages {s : MqttStream} {chunk : Bytes} :
    ∀ msg ∈ s.messages chunk, msg.bytes.length < 2 ^ 31 := by
  intro msg hmsg
  have hmem : msg ∈ s.allMessages [chunk] := List.mem_append_left _ hmsg
  exact length_lt_of_mem_allMessages hmem

/-- **A SUBSCRIBE or UNSUBSCRIBE that a stream passes on is decoded without going beyond the frame
exactly when the frame is a header, a message id and entries up to its end**, whatever its
remaining length says. -/
theorem decodesInside_iff {size : ℕ} {chunks : List Bytes} {msg : Span}
    (h : msg ∈ (MqttStream.new size).allMessages chunks) :
    DecodesInside msg ↔ PartsFit msg := by
  have hsize := length_lt_of_mem_allMessages h
  unfold DecodesInside PartsFit
  split
  · rw [createSubscribe_eq]
    exact staysInside_listMessage_iff (MqttSubscribe.Topic.parses_cerealise {})
      MqttSubscribe.Topic.length_encode_pos hsize
  · rw [createUnsubscribe_eq]
    exact staysInside_listMessage_iff (parses_grainString []) length_encodeString_pos hsize
  · exact Iff.rfl

/-- A SUBSCRIBE to "a" is decoded inside the frame. -/
theorem decodesInside_iff_one_topic :
    ∃ msg ∈ (MqttStream.new (128 * 1024)).allMessages [[0x82, 6, 0, 1, 0, 1, 97, 0]],
      getMessageType msg = .ok .subscribe ∧ DecodesInside msg := by
  obtain ⟨msg, hmem, hmsg⟩ := MqttStream.exists_message_of_cut_eq
    (by decide : [0x82, 6, 0, 1, 0, 1, 97, (0 : UInt8)].length ≤ 128 * 1024)
    (by decide +kernel : MqttStream.messageFramer.cut [0x82, 6, 0, 1, 0, 1, 97, 0] =
      ([[0x82, 6, 0, 1, 0, 1, 97, 0]], []))
  have htype : getMessageType msg = .ok .subscribe := getMessageType_eq hmsg
  refine ⟨msg, hmem, htype, (decodesInside_iff hmem).mpr ?_⟩
  rw [PartsFit, htype, hmsg]
  exact ⟨0x82, [6], 1, [{ topic := [97], qos := 0 }], by decide, by decide, by decide⟩

/-- **Otherwise the server reads a byte behind the frame.** -/
theorem readRequest_eq_badRead_of_not_decodesInside {size : ℕ} {chunks : List Bytes} {msg : Span}
    (hmem : msg ∈ (MqttStream.new size).allMessages chunks) (h : ¬DecodesInside msg) :
    readRequest msg [] = .error .badRead := by
  have hsize := length_lt_of_mem_allMessages hmem
  unfold DecodesInside at h
  split at h
  · rename_i htype
    rw [createSubscribe_eq, not_staysInside_listMessage_iff
      (MqttSubscribe.Topic.parses_cerealise {}) MqttSubscribe.Topic.length_encode_pos
      (MqttSubscribe.Topic.failsWith_cerealise {}) hsize, ← createSubscribe_eq] at h
    rw [readRequest_eq_of_subscribe htype, h]
    rfl
  · rename_i htype
    rw [createUnsubscribe_eq, not_staysInside_listMessage_iff (parses_grainString [])
      length_encodeString_pos (failsWith_grainString []) hsize, ← createUnsubscribe_eq] at h
    rw [readRequest_eq_of_unsubscribe htype, h]
    rfl
  · exact absurd trivial h

/-- A topic that says it is longer than the frame is read from the memory behind it, and then the
assertion fails. -/
lemma decode_long_topic :
    decode createSubscribe (.new [0x82, 5, 0, 1, 0, 9, 97] (List.replicate 9 0)) =
      .error .assertFailed := by
  have hassert : (decode createSubscribe
      (.new [0x82, 5, 0, 1, 0, 9, 97] (List.replicate 9 0))).map Prod.fst =
        .error .assertFailed := by decide +kernel
  cases hdecode : decode createSubscribe
      (.new [0x82, 5, 0, 1, 0, 9, 97] (List.replicate 9 0)) with
  | error e =>
    rw [hdecode] at hassert
    exact congrArg Except.error (Except.error.inj hassert)
  | ok p =>
    rw [hdecode] at hassert
    cases hassert

/-- So a client can stop the server, whose streams have a size of 128 KiB. -/
theorem decodesInside_fails_on_long_topic :
    ∃ msg ∈ (MqttStream.new (128 * 1024)).allMessages [[0x82, 5, 0, 1, 0, 9, 97]],
      getMessageType msg = .ok .subscribe ∧
        (∃ beyond, decode createSubscribe (.new msg.bytes beyond) = .error .assertFailed) ∧
        ¬DecodesInside msg := by
  obtain ⟨msg, hmem, hmsg⟩ := MqttStream.exists_message_of_cut_eq
    (by decide : [0x82, 5, 0, 1, 0, 9, (97 : UInt8)].length ≤ 128 * 1024)
    (by decide +kernel : MqttStream.messageFramer.cut [0x82, 5, 0, 1, 0, 9, 97] =
      ([[0x82, 5, 0, 1, 0, 9, 97]], []))
  have htype : getMessageType msg = .ok .subscribe := getMessageType_eq hmsg
  refine ⟨msg, hmem, htype, ⟨List.replicate 9 0, ?_⟩, ?_⟩
  · rw [hmsg]
    exact decode_long_topic
  · intro hinside
    rw [DecodesInside, htype] at hinside
    obtain ⟨m, d, hdecode, -⟩ := hinside (List.replicate 9 0)
    rw [hmsg, decode_long_topic] at hdecode
    cases hdecode

end MqttCpp
