import MqttCpp.Message.Header

/-!
# The format of PUBLISH

What `MqttPublish::cerealise` writes and what it reads behind the header.  The reader takes a
message with a qos and a remaining length below 7 for one that has no message id, whatever its
topic and payload are; the writer always writes the id.  The round trip fails just for these.
-/

namespace MqttCpp

open Cereal

namespace MqttPublish

/-! ## Writing -/

/-- The message id as it is written: only with a qos. -/
def idBytes (qos : UInt8) (msgId : UInt16) : Bytes := if qos ≠ 0 then be16 msgId else []

/-- Writing the message id. -/
lemma prints_grainMsgId (m : MqttPublish) (header : MqttFixedHeader) (payloadLen : UInt64) :
    ∃ payloadLen', Prints (m.grainMsgId header payloadLen : CerealM Cerealiser (UInt16 × UInt64))
      (m.msgId, payloadLen') (idBytes header.qos m.msgId) := by
  by_cases hqos : header.qos ≠ 0
  · have hwrite : ¬(header.remaining < 7 ∧ getType Cerealiser = .read) := fun h => nomatch h.2
    refine ⟨payloadLen - 2, ?_⟩
    rw [grainMsgId, if_pos hqos, if_neg hwrite, idBytes, if_pos hqos]
    exact (prints_grainUInt16 m.msgId).bind_pure fun msgId => (msgId, payloadLen - 2)
  · refine ⟨payloadLen, ?_⟩
    rw [grainMsgId, if_neg hqos, idBytes, if_neg hqos]
    exact Prints.pure _

/-- Writing everything behind the header. -/
lemma prints_cerealiseBody {m : MqttPublish} (htopic : m.topic.length < 65536) :
    Prints (m.cerealiseBody m.header : CerealM Cerealiser MqttPublish) m
      (encodeString m.topic ++ (idBytes m.header.qos m.msgId ++ m.payload)) := by
  have hpayload := prints_mapM_grainUInt8 m.payload
  have hresize : ∀ payloadLen : UInt64,
      Prints (resizePayload m.payload payloadLen : CerealM Cerealiser Bytes) m.payload [] :=
    fun payloadLen => Prints.pure m.payload
  obtain ⟨payloadLen, hid⟩ := m.prints_grainMsgId m.header
    (m.header.remaining.toUInt64 -
      (UInt64.ofNat m.topic.length + UInt64.ofNat MqttFixedHeader.SIZE))
  unfold cerealiseBody
  refine (prints_grainString htopic).bind (hid.bind ?_)
  exact (hresize payloadLen).bind (hpayload.bind_pure fun payload => { m with payload := payload })

/-- **The bytes of a PUBLISH**: the header, the topic, with a qos the message id, the payload. -/
theorem encode_cerealise {m : MqttPublish} (htopic : m.topic.length < 65536) :
    Cerealiser.encode m.cerealise =
      .ok (m.header.flagByte :: MqttFixedHeader.remainingDigits m.header.remaining ++
        (encodeString m.topic ++ (idBytes m.header.qos m.msgId ++ m.payload))) :=
  m.header.encode_cerealise_bind (prints_cerealiseBody htopic)

/-! ## Reading -/

/-- The length of what is behind the topic, as the reader computes it. -/
def payloadLen (header : MqttFixedHeader) (topic : Str) : UInt64 :=
  header.remaining.toUInt64 - (UInt64.ofNat topic.length + UInt64.ofNat MqttFixedHeader.SIZE)

/-- The message id as it is read, and the length of the payload behind it. -/
def IdFormat (oldId : UInt16) (header : MqttFixedHeader) (len : UInt64) (p : UInt16 × UInt64)
    (input : Bytes) : Prop :=
  if header.qos ≠ 0 ∧ ¬header.remaining < 7 then input = be16 p.1 ∧ p.2 = len - 2
  else p = (oldId, len) ∧ input = []

/-- The message id is read where there is one and the guard does not take the message for too
short. -/
lemma grainMsgId_read (m : MqttPublish) (header : MqttFixedHeader) (len : UInt64) :
    (m.grainMsgId header len : CerealM Decerealiser (UInt16 × UInt64)) =
      if header.qos ≠ 0 ∧ ¬header.remaining < 7 then (do
        let msgId ← grainUInt16 m.msgId
        return (msgId, len - 2))
      else pure (m.msgId, len) := by
  unfold grainMsgId
  by_cases hqos : header.qos ≠ 0
  · by_cases hseven : header.remaining < 7
    · have hshort : header.remaining < 7 ∧ getType Decerealiser = .read := ⟨hseven, rfl⟩
      rw [if_pos hqos, if_pos hshort, if_neg fun h => h.2 hseven]
    · rw [if_pos hqos, if_neg fun h => hseven h.1, if_pos ⟨hqos, hseven⟩]
  · rw [if_neg hqos, if_neg fun h => hqos h.1]

/-- Reading the message id. -/
lemma parses_grainMsgId (m : MqttPublish) (header : MqttFixedHeader) (len : UInt64) :
    Parses (m.grainMsgId header len : CerealM Decerealiser (UInt16 × UInt64))
      (IdFormat m.msgId header len) := by
  rw [grainMsgId_read]
  split
  · rename_i hid
    refine ((parses_grainUInt16 m.msgId).map fun msgId => (msgId, len - 2)).congr
      fun p input => ?_
    rw [IdFormat, if_pos hid]
    constructor
    · rintro ⟨v, rfl, rfl⟩
      exact ⟨rfl, rfl⟩
    · rintro ⟨rfl, hlen⟩
      exact ⟨p.1, rfl, Prod.ext rfl hlen⟩
  · rename_i hid
    refine (Parses.pure (m.msgId, len)).congr fun p input => ?_
    rw [IdFormat, if_neg hid]

/-- Making room for the payload reads nothing, but fails if the length is too large. -/
lemma parses_resizePayload (payload : Bytes) (len : UInt64) :
    Parses (resizePayload payload len : CerealM Decerealiser Bytes) fun p input =>
      (len ≤ maxSize ∧ p = resize len.toNat 0 payload) ∧ input = [] := by
  have hread : getType Decerealiser = .read := rfl
  by_cases hlen : len > maxSize
  · have hthrow : (resizePayload payload len : CerealM Decerealiser Bytes) =
        throw .lengthError := by
      rw [resizePayload, if_pos hread, if_pos hlen]
    rw [hthrow]
    intro d p d'
    constructor
    · intro h
      cases h
    · rintro ⟨input, ⟨⟨hle, -⟩, -⟩, -⟩
      exact absurd hle (UInt64.not_le.mpr hlen)
  · have hpure : (resizePayload payload len : CerealM Decerealiser Bytes) =
        pure (resize len.toNat 0 payload) := by
      rw [resizePayload, if_pos hread, if_neg hlen]
    rw [hpure]
    refine (Parses.pure (resize len.toNat 0 payload)).congr fun p input => ?_
    have hle : len ≤ maxSize := UInt64.not_lt.mp hlen
    constructor
    · rintro ⟨rfl, rfl⟩
      exact ⟨⟨hle, rfl⟩, rfl⟩
    · rintro ⟨⟨-, rfl⟩, rfl⟩
      exact ⟨rfl, rfl⟩

/-- What is behind the header, as it is read into a message with the id `oldId`. -/
def BodyFormat (oldId : UInt16) (header : MqttFixedHeader) (m : MqttPublish) (input : Bytes) :
    Prop :=
  m.header = header ∧ m.topic.length < 65536 ∧
    ∃ len idPart, IdFormat oldId header (payloadLen header m.topic) (m.msgId, len) idPart ∧
      len ≤ maxSize ∧ m.payload.length = len.toNat ∧
      input = encodeString m.topic ++ (idPart ++ m.payload)

/-- **Reading everything behind the header.** -/
theorem parses_cerealiseBody (old : MqttPublish) (header : MqttFixedHeader) :
    Parses (old.cerealiseBody header : CerealM Decerealiser MqttPublish)
      (BodyFormat old.msgId header) := by
  unfold cerealiseBody
  refine ((parses_grainString old.topic).bind fun topic =>
    (old.parses_grainMsgId header (payloadLen header topic)).bind fun p =>
      (parses_resizePayload old.payload p.2).bind fun payload =>
        (Parses.mapM parses_grainUInt8 payload).map fun payload =>
          ({ header, topic, payload, msgId := p.1 } : MqttPublish)).congr fun m input => ?_
  constructor
  · rintro ⟨topic, _, _, ⟨htopic, rfl⟩, ⟨p, idPart, _, hid, ⟨_, _, _, ⟨⟨hle, rfl⟩, rfl⟩,
      ⟨payload, ⟨hlen, rfl⟩, rfl⟩, rfl⟩, rfl⟩, rfl⟩
    rw [length_resize] at hlen
    exact ⟨rfl, htopic, p.2, idPart, hid, hle, hlen, rfl⟩
  · rintro ⟨rfl, htopic, len, idPart, hid, hle, hlen, rfl⟩
    refine ⟨m.topic, _, _, ⟨htopic, rfl⟩, ⟨(m.msgId, len), idPart, _, hid,
      ⟨_, [], m.payload, ⟨⟨hle, rfl⟩, rfl⟩, ⟨m.payload, ⟨?_, rfl⟩, rfl⟩, rfl⟩, rfl⟩, rfl⟩
    rw [length_resize, hlen]

/-! ## The round trip -/

/-- Reading a PUBLISH that begins with a header: everything behind it is read. -/
lemma cerealise_read_digits (old : MqttPublish) {b : UInt8} {ds : Bytes}
    (hds : MqttFixedHeader.IsDigits ds) {m : MqttPublish} {body : Bytes}
    (hbody : BodyFormat old.msgId (.ofFlags b (MqttFixedHeader.digitsValue 1 0 ds)) m body)
    (beyond : Bytes) :
    ∃ d : Decerealiser,
      old.cerealise (Decerealiser.new (b :: ds ++ body) beyond) = .ok (m, d) ∧
        d.pos = (b :: ds ++ body).length := by
  have hunread : Cursor.unread (Decerealiser.new (b :: ds ++ body) beyond) =
      b :: ds ++ (body ++ beyond) := List.append_assoc _ _ _
  obtain ⟨d, hheader, hrest, hpos, -⟩ := old.header.cerealise_read_digits hds rfl hunread
  have hprefix : body <+: Cursor.unread d := by
    rw [hrest]
    exact List.prefix_append _ _
  refine ⟨Cursor.advance body.length d, ?_, ?_⟩
  · rw [cerealise, StateT.bind_of_eq_ok hheader]
    exact (old.parses_cerealiseBody _).eq_ok hbody hprefix
  · change d.pos + body.length = _
    rw [hpos, Decerealiser.pos_new, List.length_append, Nat.zero_add]

/-- Reading a PUBLISH of which the header was written. -/
lemma cerealise_read (old : MqttPublish) {h : MqttFixedHeader} (hqos : h.qos ≤ 3)
    {m : MqttPublish} {body : Bytes} (hbody : BodyFormat old.msgId h m body) (beyond : Bytes) :
    ∃ d : Decerealiser,
      old.cerealise (Decerealiser.new (h.headerBytes ++ body) beyond) = .ok (m, d) ∧
        d.pos = (h.headerBytes ++ body).length := by
  rw [← MqttFixedHeader.ofFlags_digitsValue hqos] at hbody
  exact old.cerealise_read_digits (MqttFixedHeader.isDigits_remainingDigits _) hbody beyond

/-- The length of the topic with its length field. -/
lemma toNat_topicLen {topic : Str} (htopic : topic.length < 65536) :
    (UInt64.ofNat topic.length + UInt64.ofNat MqttFixedHeader.SIZE).toNat = topic.length + 2 := by
  have hsize : (UInt64.ofNat MqttFixedHeader.SIZE).toNat = 2 := rfl
  have hlen : (UInt64.ofNat topic.length).toNat = topic.length :=
    UInt64.toNat_ofNat_of_lt' (Nat.lt_trans htopic (by decide))
  rw [UInt64.toNat_add, hlen, hsize]
  omega

/-- The length of what is behind the topic, if the remaining length has room for the topic. -/
lemma toNat_payloadLen {header : MqttFixedHeader} {topic : Str} (htopic : topic.length < 65536)
    (h : topic.length + 2 ≤ header.remaining.toNat) :
    (payloadLen header topic).toNat = header.remaining.toNat - (topic.length + 2) := by
  rw [payloadLen, UInt64.toNat_sub_of_le, toNat_topicLen htopic, UInt32.toNat_toUInt64]
  rw [UInt64.le_iff_toNat_le, toNat_topicLen htopic, UInt32.toNat_toUInt64]
  exact h

/-- A length of 32 bits is not too large for a vector. -/
lemma le_maxSize_of_toNat_lt {len : UInt64} (h : len.toNat < 4294967296) : len ≤ maxSize := by
  rw [UInt64.le_iff_toNat_le]
  have hmax : maxSize.toNat = 9223372036854775807 := rfl
  omega

/-- What the reader gets from the bytes of a PUBLISH: the message itself, unless it has a qos and
no more than two bytes of topic and payload together; then the message id is taken for payload. -/
def readBack (m : MqttPublish) : MqttPublish :=
  if m.header.qos = 0 then { m with msgId := 0 }
  else if m.topic.length + m.payload.length < 3 then
    { m with msgId := 0, payload := be16 m.msgId ++ m.payload }
  else m

/-- The body of a PUBLISH without a qos, as it is read. -/
lemma bodyFormat_of_qos_eq_zero {m : MqttPublish} (hqos : m.header.qos = 0)
    (htopic : m.topic.length < 65536)
    (hremaining : m.header.remaining.toNat = m.topic.length + 2 + m.payload.length) :
    BodyFormat 0 m.header { m with msgId := 0 }
      (encodeString m.topic ++ (idBytes m.header.qos m.msgId ++ m.payload)) := by
  have hbound := m.header.remaining.toNat_lt
  have hlen : (payloadLen m.header m.topic).toNat = m.payload.length := by
    rw [toNat_payloadLen htopic (by omega)]
    omega
  refine ⟨rfl, htopic, payloadLen m.header m.topic, [], ?_, ?_, hlen.symm, ?_⟩
  · have hid : ¬(m.header.qos ≠ 0 ∧ ¬m.header.remaining < 7) := fun h => h.1 hqos
    rw [IdFormat, if_neg hid]
    exact ⟨rfl, rfl⟩
  · exact le_maxSize_of_toNat_lt (by omega)
  · rw [idBytes, if_neg (not_not_intro hqos)]

/-- The body of a PUBLISH with a qos and a remaining length below 7, as it is read. -/
lemma bodyFormat_of_remaining_lt {m : MqttPublish} (hqos : m.header.qos ≠ 0)
    (htopic : m.topic.length < 65536)
    (hremaining : m.header.remaining.toNat = m.topic.length + 4 + m.payload.length)
    (hseven : m.header.remaining < 7) :
    BodyFormat 0 m.header { m with msgId := 0, payload := be16 m.msgId ++ m.payload }
      (encodeString m.topic ++ (idBytes m.header.qos m.msgId ++ m.payload)) := by
  have hbound := m.header.remaining.toNat_lt
  have hlen : (payloadLen m.header m.topic).toNat = (be16 m.msgId ++ m.payload).length := by
    rw [toNat_payloadLen htopic (by omega), List.length_append, length_be16]
    omega
  refine ⟨rfl, htopic, payloadLen m.header m.topic, [], ?_, ?_, hlen.symm, ?_⟩
  · have hid : ¬(m.header.qos ≠ 0 ∧ ¬m.header.remaining < 7) := fun h => h.2 hseven
    rw [IdFormat, if_neg hid]
    exact ⟨rfl, rfl⟩
  · apply le_maxSize_of_toNat_lt
    rw [hlen, List.length_append, length_be16]
    omega
  · rw [idBytes, if_pos hqos, List.nil_append]

/-- The body of any other PUBLISH with a qos, as it is read. -/
lemma bodyFormat_of_le_remaining {m : MqttPublish} (hqos : m.header.qos ≠ 0)
    (htopic : m.topic.length < 65536)
    (hremaining : m.header.remaining.toNat = m.topic.length + 4 + m.payload.length)
    (hseven : ¬m.header.remaining < 7) :
    BodyFormat 0 m.header m
      (encodeString m.topic ++ (idBytes m.header.qos m.msgId ++ m.payload)) := by
  have hbound := m.header.remaining.toNat_lt
  have htwo : (2 : UInt64).toNat = 2 := rfl
  have hbehind : (payloadLen m.header m.topic).toNat = m.payload.length + 2 := by
    rw [toNat_payloadLen htopic (by omega)]
    omega
  have hlen : (payloadLen m.header m.topic - 2).toNat = m.payload.length := by
    rw [UInt64.toNat_sub_of_le, hbehind, htwo, Nat.add_sub_cancel]
    rw [UInt64.le_iff_toNat_le, hbehind, htwo]
    exact Nat.le_add_left _ _
  refine ⟨rfl, htopic, payloadLen m.header m.topic - 2, be16 m.msgId, ?_, ?_, hlen.symm, ?_⟩
  · rw [IdFormat, if_pos ⟨hqos, hseven⟩]
    exact ⟨rfl, rfl⟩
  · exact le_maxSize_of_toNat_lt (by omega)
  · rw [idBytes, if_pos hqos]

/-- The remaining length that the constructor writes, when it is not cut off. -/
lemma toNat_remaining_new (dup : Bool) (qos : UInt8) (retain : Bool) {topic : Str}
    {payload : Bytes} (msgId : UInt16) (hlen : remainingLength qos topic payload ≤ 268435455) :
    (new dup qos retain topic payload msgId).header.remaining.toNat =
      remainingLength qos topic payload :=
  UInt32.toNat_ofNat_of_lt' (Nat.lt_of_le_of_lt hlen (by decide))

/-- The body that was written for a PUBLISH is read as `readBack` says. -/
lemma bodyFormat_readBack (dup : Bool) (qos : UInt8) (retain : Bool) {topic : Str}
    {payload : Bytes} (msgId : UInt16) (htopic : topic.length < 65536)
    (hlen : remainingLength qos topic payload ≤ 268435455) :
    let m := new dup qos retain topic payload msgId
    BodyFormat 0 m.header m.readBack
      (encodeString m.topic ++ (idBytes m.header.qos m.msgId ++ m.payload)) := by
  intro m
  have hremaining : m.header.remaining.toNat = remainingLength qos topic payload :=
    toNat_remaining_new dup qos retain msgId hlen
  by_cases hqos : qos = 0
  · have hheader : m.header.qos = 0 := hqos
    have hzero : remainingLength qos topic payload = m.topic.length + 2 + m.payload.length := by
      rw [remainingLength, if_neg (not_not_intro hqos)]
      rfl
    rw [readBack, if_pos hheader]
    exact bodyFormat_of_qos_eq_zero hqos htopic (hremaining.trans hzero)
  · have hheader : ¬m.header.qos = 0 := hqos
    have hid : remainingLength qos topic payload = m.topic.length + 4 + m.payload.length := by
      rw [remainingLength, if_pos hqos]
      rfl
    have hseven : m.header.remaining < 7 ↔ m.topic.length + m.payload.length < 3 := by
      have h7 : (7 : UInt32).toNat = 7 := rfl
      rw [UInt32.lt_iff_toNat_lt, hremaining, hid, h7]
      omega
    rw [readBack, if_neg hheader]
    by_cases hshort : m.topic.length + m.payload.length < 3
    · rw [if_pos hshort]
      exact bodyFormat_of_remaining_lt hqos htopic (hremaining.trans hid) (hseven.mpr hshort)
    · rw [if_neg hshort]
      exact bodyFormat_of_le_remaining hqos htopic (hremaining.trans hid)
        fun h => hshort (hseven.mp h)

/-- **Reading what was written for a PUBLISH** gives what `readBack` says and consumes every
byte. -/
theorem cerealise_read_encode (dup : Bool) {qos : UInt8} (retain : Bool) {topic : Str}
    {payload : Bytes} (msgId : UInt16) (hqos : qos ≤ 3) (htopic : topic.length ≤ 65535)
    (hlen : remainingLength qos topic payload ≤ 268435455) {bytes : Bytes}
    (hbytes : Cerealiser.encode (new dup qos retain topic payload msgId).cerealise = .ok bytes)
    (h : MqttFixedHeader) (beyond : Bytes) :
    ∃ d : Decerealiser, ({ header := h } : MqttPublish).cerealise
      (Decerealiser.new bytes beyond) =
        .ok ((new dup qos retain topic payload msgId).readBack, d) ∧ d.pos = bytes.length := by
  have hlt : (new dup qos retain topic payload msgId).topic.length < 65536 :=
    Nat.lt_succ_of_le htopic
  rw [encode_cerealise hlt] at hbytes
  obtain rfl := Except.ok.inj hbytes
  exact cerealise_read { header := h } hqos (bodyFormat_readBack dup qos retain msgId hlt hlen)
    beyond

/-- Reading does not lose the topic. -/
@[simp] lemma topic_readBack (m : MqttPublish) : m.readBack.topic = m.topic := by
  unfold readBack
  split
  · rfl
  · split <;> rfl

/-- What is read back is the message itself exactly without a qos or with at least three bytes of
topic and payload together. -/
lemma readBack_eq_iff (m : MqttPublish) :
    m.readBack = { m with msgId := if m.header.qos = 0 then 0 else m.msgId } ↔
      m.header.qos = 0 ∨ 3 ≤ m.topic.length + m.payload.length := by
  rw [readBack]
  by_cases hqos : m.header.qos = 0
  · rw [if_pos hqos, if_pos hqos]
    exact ⟨fun _ => Or.inl hqos, fun _ => rfl⟩
  · rw [if_neg hqos, if_neg hqos]
    by_cases hshort : m.topic.length + m.payload.length < 3
    · rw [if_pos hshort]
      constructor
      · -- the message id has become part of the payload
        intro hback
        have hpayload := congrArg (fun m : MqttPublish => m.payload.length) hback
        change (be16 m.msgId ++ m.payload).length = m.payload.length at hpayload
        rw [List.length_append, length_be16] at hpayload
        omega
      · intro hcond
        exact absurd hshort (Nat.not_lt.mpr (hcond.resolve_left hqos))
    · rw [if_neg hshort]
      exact ⟨fun _ => Or.inr (Nat.not_lt.mp hshort), fun _ => rfl⟩

/-- **The round trip of PUBLISH.**  Reading what was written for a message gives back the message
(with the message id 0 if it has no qos) and consumes every byte exactly when it has no qos or at
least three bytes of topic and payload together. -/
theorem cerealise_round_trip_iff (dup : Bool) (qos : UInt8) (retain : Bool) (topic : Str)
    (payload : Bytes) (msgId : UInt16) (hqos : qos ≤ 3) (htopic : topic.length ≤ 65535)
    (hlen : remainingLength qos topic payload ≤ 268435455) (h : MqttFixedHeader)
    (beyond : Bytes) :
    let m := new dup qos retain topic payload msgId
    ∃ bytes, Cerealiser.encode m.cerealise = .ok bytes ∧
      ((∃ d : Decerealiser, ({ header := h } : MqttPublish).cerealise
          (Decerealiser.new bytes beyond) =
            .ok ({ m with msgId := if qos = 0 then 0 else msgId }, d) ∧ d.pos = bytes.length) ↔
        qos = 0 ∨ 3 ≤ topic.length + payload.length) := by
  intro m
  have hencode : Cerealiser.encode m.cerealise = _ := encode_cerealise (Nat.lt_succ_of_le htopic)
  obtain ⟨d, hread, hpos⟩ :=
    cerealise_read_encode dup retain msgId hqos htopic hlen hencode h beyond
  refine ⟨_, hencode, Iff.trans ?_ m.readBack_eq_iff⟩
  rw [hread]
  constructor
  · rintro ⟨d', hok, -⟩
    exact (Prod.mk.inj (Except.ok.inj hok)).1
  · intro hback
    exact ⟨d, congrArg (fun m => Except.ok (m, d)) hback, hpos⟩

/-- A message with qos 1 and the topic "a" but no payload: the message id 7 becomes its payload. -/
theorem cerealise_reads_msgId_as_payload :
    let m := new false 1 false [97] [] 7
    ¬∃ bytes, Cerealiser.encode m.cerealise = .ok bytes ∧
      ∃ d : Decerealiser, ({ header := {} } : MqttPublish).cerealise
        (Decerealiser.new bytes []) = .ok (m, d) ∧ d.pos = bytes.length := by
  rintro m ⟨bytes, hbytes, d, hread, -⟩
  have hencode : Cerealiser.encode m.cerealise =
      .ok [0x32, 5, 0, 1, 97, 0, 7] := by decide +kernel
  rw [hencode] at hbytes
  obtain rfl := Except.ok.inj hbytes
  have hpayload : (({ header := {} } : MqttPublish).cerealise
      (Decerealiser.new [0x32, 5, 0, 1, 97, 0, 7] [])).map (fun p => p.1.payload) =
        .ok [0, 7] := by decide +kernel
  rw [hread] at hpayload
  cases hpayload

/-- A message with qos 1, a topic of one byte and a payload of two comes back. -/
theorem cerealise_round_trip_three_bytes :
    let m := new true 1 true [97] [1, 2] 7
    ∃ bytes, Cerealiser.encode m.cerealise = .ok bytes ∧
      ∃ d : Decerealiser, ({ header := {} } : MqttPublish).cerealise
        (Decerealiser.new bytes []) = .ok (m, d) ∧ d.pos = bytes.length := by
  obtain ⟨bytes, hbytes, hiff⟩ := cerealise_round_trip_iff true 1 true [97] [1, 2] 7 (by decide)
    (by decide) (by decide) {} []
  exact ⟨bytes, hbytes, hiff.mpr (by decide)⟩

end MqttPublish

end MqttCpp
