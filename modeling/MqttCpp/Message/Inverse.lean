import MqttCpp.Message.ListMessage
import MqttCpp.Message.RemainingLength

/-!
# Reading and writing undo each other

For SUBSCRIBE, UNSUBSCRIBE, SUBACK, UNSUBACK and CONNACK: what was written is read back, and what
was read is written as it was, if its length is in minimal digits.  The three that end in an array
are read up to where no bytes are left, which the reader counts in an `int`; so the first is true
only of messages that are shorter than `2 ^ 31` bytes.
-/

namespace MqttCpp

open Cereal

/-! ## Messages -/

/-- A type with a member function `cerealise`, which `Cereal::grain` calls. -/
class Cerealises (M : Type) where
  cerealise {C : Type} [Cereal C] : M → CerealM C M

instance : Cerealises MqttConnect := ⟨MqttConnect.cerealise⟩

instance : Cerealises MqttPublish := ⟨MqttPublish.cerealise⟩

instance : Cerealises MqttSubscribe := ⟨MqttSubscribe.cerealise⟩

instance : Cerealises MqttUnsubscribe := ⟨MqttUnsubscribe.cerealise⟩

instance : Cerealises MqttSuback := ⟨MqttSuback.cerealise⟩

instance : Cerealises MqttUnsuback := ⟨MqttUnsuback.cerealise⟩

instance : Cerealises MqttConnack := ⟨MqttConnack.cerealise⟩

section Inverse

variable {M : Type} [Cerealises M]

/-- The bytes that a fresh cerealiser holds when the message was written. -/
def written (m : M) : Except Fault Bytes := Cerealiser.encode (Cerealises.cerealise m)

/-- Reading the bytes into `old` gives the message and consumes every byte, whatever the memory
behind them holds. -/
def ReadsAs (old m : M) (bytes : Bytes) : Prop :=
  ∀ beyond, ∃ d : Decerealiser,
    Cerealises.cerealise old (Decerealiser.new bytes beyond) = .ok (m, d) ∧ d.pos = bytes.length

/-- The bytes begin with a byte of flags and a length in minimal digits. -/
def HasMinimalLength (bytes : Bytes) : Prop :=
  ∃ b ds rest, bytes = b :: ds ++ rest ∧ MqttFixedHeader.IsMinimal ds

/-- Reading and writing undo each other: a message of `valid` is read back into any of `start`, if
an `int` can count its bytes; and what was read into one of `start` from bytes that were all
consumed is written as these bytes, if their length is in minimal digits. -/
structure ReadUndoesWrite (valid start : M → Prop) : Prop where
  read_written : ∀ m, valid m → ∃ bytes, written m = .ok bytes ∧
    (bytes.length < 2 ^ 31 → ∀ old, start old → ReadsAs old m bytes)
  written_read : ∀ (old : M) (bytes beyond : Bytes) (m : M) (d : Decerealiser), start old →
    Cerealises.cerealise old (Decerealiser.new bytes beyond) = .ok (m, d) →
      d.pos = bytes.length → HasMinimalLength bytes → written m = .ok bytes

end Inverse

/-- What all messages demand of their header. -/
def MqttFixedHeader.Encodable (h : MqttFixedHeader) : Prop := h.qos ≤ 3 ∧ h.remaining ≤ 268435455

namespace MqttFixedHeader

/-- The bytes of a header that was read from minimal digits. -/
lemma headerBytes_ofFlags (b : UInt8) {ds : Bytes} (h : IsMinimal ds) :
    (ofFlags b (digitsValue 1 0 ds)).headerBytes = b :: ds := by
  have hremaining : (ofFlags b (digitsValue 1 0 ds)).remaining = digitsValue 1 0 ds := rfl
  rw [headerBytes, flagByte_ofFlags, hremaining, remainingDigits_digitsValue h]

/-- **What was read from bytes that are all consumed** is a header and an input of the format of
what is behind it; the bytes are those of the header and that input. -/
theorem exists_of_read {M : Type} {body : MqttFixedHeader → CerealM Decerealiser M}
    {R : MqttFixedHeader → M → Bytes → Prop} (hbody : ∀ h, Consumes (body h) (R h))
    {hdr : MqttFixedHeader} {bytes beyond : Bytes} {m : M} {d : Decerealiser}
    (hread : (hdr.cerealise >>= body) (Decerealiser.new bytes beyond) = .ok (m, d))
    (hpos : d.pos = bytes.length) (hmin : HasMinimalLength bytes) :
    ∃ h input, R h m input ∧ bytes = h.headerBytes ++ input := by
  obtain ⟨b, ds, rest, rfl, hds⟩ := hmin
  have hunread : Cursor.unread (Decerealiser.new (b :: ds ++ rest) beyond) =
      b :: ds ++ (rest ++ beyond) := List.append_assoc _ _ _
  obtain ⟨d₁, hheader, hrest, hpos₁, -⟩ := hdr.cerealise_read_digits hds.isDigits rfl hunread
  rw [StateT.bind_of_eq_ok hheader] at hread
  obtain ⟨input, hinput, hprefix, rfl⟩ := hbody _ d₁ m d hread
  refine ⟨_, input, hinput, ?_⟩
  -- the input is as long as the rest of the bytes, and both begin what is read
  have hlen : input.length = rest.length := by
    change d₁.pos + input.length = _ at hpos
    rw [hpos₁, Decerealiser.pos_new, List.length_append] at hpos
    omega
  have hinput' : input = rest := by
    rw [hrest] at hprefix
    exact List.IsPrefix.eq_of_length (List.prefix_of_prefix_length_le hprefix
      (List.prefix_append rest beyond) hlen.le) hlen
  rw [headerBytes_ofFlags b hds, hinput']

/-- **What was written is read back** when what is behind the header is a format. -/
theorem read_of_parses {M : Type} {body : MqttFixedHeader → CerealM Decerealiser M}
    {R : MqttFixedHeader → M → Bytes → Prop} (hbody : ∀ h, Parses (body h) (R h))
    {h : MqttFixedHeader} (hqos : h.qos ≤ 3) {m : M} {input : Bytes} (hinput : R h m input)
    (hdr : MqttFixedHeader) (beyond : Bytes) :
    ∃ d : Decerealiser, (hdr.cerealise >>= body)
      (Decerealiser.new (h.headerBytes ++ input) beyond) = .ok (m, d) ∧
        d.pos = (h.headerBytes ++ input).length := by
  have hunread : Cursor.unread (Decerealiser.new (h.headerBytes ++ input) beyond) =
      h.headerBytes ++ (input ++ beyond) := List.append_assoc _ _ _
  obtain ⟨d, hheader, hrest, hpos, -⟩ := hdr.cerealise_read_headerBytes hqos rfl hunread
  have hprefix : input <+: Cursor.unread d := by
    rw [hrest]
    exact List.prefix_append _ _
  refine ⟨Cursor.advance input.length d, ?_, ?_⟩
  · rw [StateT.bind_of_eq_ok hheader]
    exact (hbody h).eq_ok hinput hprefix
  · change d.pos + input.length = _
    rw [hpos, Decerealiser.pos_new, List.length_append, Nat.zero_add]

end MqttFixedHeader

/-! ## The messages that end in an array -/

section ListMessage

variable {T M : Type} {grain : T → CerealM Decerealiser T} {default : T} {valid : T → Prop}
  {encode : T → Bytes} {mk : MqttFixedHeader → UInt16 → List T → M}

/-- What is behind the header, as it is read for a message with the header `h`. -/
def ListFormat (valid : T → Prop) (encode : T → Bytes)
    (mk : MqttFixedHeader → UInt16 → List T → M) (h : MqttFixedHeader) (m : M) (input : Bytes) :
    Prop :=
  ∃ v ts, m = mk h v ts ∧ (∀ t ∈ ts, valid t) ∧ input = be16 v ++ ts.flatMap encode

/-- What was read for a message that ends in an array. -/
lemma exists_of_listMessage
    (hgrain : Parses (grain default) fun t input => valid t ∧ input = encode t)
    {hdr : MqttFixedHeader} {bytes beyond : Bytes} {m : M} {d : Decerealiser}
    (hread : listMessage grain default mk hdr (Decerealiser.new bytes beyond) = .ok (m, d))
    (hpos : d.pos = bytes.length) (hmin : HasMinimalLength bytes) :
    ∃ h v ts, m = mk h v ts ∧ (∀ t ∈ ts, valid t) ∧
      bytes = h.headerBytes ++ (be16 v ++ ts.flatMap encode) := by
  have hbody : ∀ h, Consumes (do
      let msgId ← grainUInt16 0
      let ts ← grainRawArray grain default []
      return mk h msgId ts : CerealM Decerealiser M) (ListFormat valid encode mk h) := by
    intro h s m s' hok
    obtain ⟨_, ⟨v, _, _, rfl, ⟨ts, ⟨hts, rfl⟩, rfl⟩, rfl⟩, hprefix, rfl⟩ :=
      ((parses_grainUInt16 0).consumes.bind fun v =>
        (consumes_grainRawArray hgrain []).map (mk h v)) s m s' hok
    exact ⟨_, ⟨v, ts, rfl, hts, rfl⟩, hprefix, rfl⟩
  obtain ⟨h, _, ⟨v, ts, rfl, hts, rfl⟩, hbytes⟩ :=
    MqttFixedHeader.exists_of_read hbody hread hpos hmin
  exact ⟨h, v, ts, rfl, hts, hbytes⟩

/-- What was written for a message that ends in an array is read back, if an `int` can count it. -/
lemma listMessage_read
    (hgrain : Parses (grain default) fun t input => valid t ∧ input = encode t)
    (hencode : ∀ t, 0 < (encode t).length) {h : MqttFixedHeader} (hqos : h.qos ≤ 3) (v : UInt16)
    {ts : List T} (hts : ∀ t ∈ ts, valid t)
    (hsize : (h.headerBytes ++ (be16 v ++ ts.flatMap encode)).length < 2 ^ 31)
    (hdr : MqttFixedHeader) (beyond : Bytes) :
    ∃ d, listMessage grain default mk hdr
      (Decerealiser.new (h.headerBytes ++ (be16 v ++ ts.flatMap encode)) beyond) =
        .ok (mk h v ts, d) ∧
      d.pos = (h.headerBytes ++ (be16 v ++ ts.flatMap encode)).length := by
  have hds := MqttFixedHeader.isDigits_remainingDigits h.remaining
  have hheader := MqttFixedHeader.ofFlags_digitsValue hqos
  obtain ⟨d, hread, hpos⟩ := listMessage_eq_ok hgrain hencode hdr hds v hts hsize rfl beyond
  refine ⟨d, ?_, hpos⟩
  rwa [hheader] at hread

/-- The bytes of a message that ends in an array. -/
lemma encode_listMessage {grain : T → CerealM Cerealiser T} {ts : List T}
    (hgrain : ∀ t ∈ ts, Prints (grain t) t (encode t)) (default : T)
    (mk : MqttFixedHeader → UInt16 → List T → M) (h : MqttFixedHeader) (v : UInt16) :
    Cerealiser.encode (do
      let header ← h.cerealise
      let msgId ← grainUInt16 v
      let ts ← grainRawArray grain default ts
      return mk header msgId ts) = .ok (h.headerBytes ++ (be16 v ++ ts.flatMap encode)) := by
  have hts : Prints (grainRawArray grain default ts : CerealM Cerealiser (List T)) ts
      (ts.flatMap encode) := Prints.mapM hgrain
  have hbody : Prints (do
      let msgId ← grainUInt16 v
      let ts ← grainRawArray grain default ts
      return mk h msgId ts : CerealM Cerealiser M) (mk h v ts) (be16 v ++ ts.flatMap encode) :=
    (prints_grainUInt16 v).bind (hts.bind_pure (mk h v))
  exact h.encode_cerealise_bind hbody

variable (mk) in
/-- **Reading and writing undo each other** for a message that ends in an array of entries of which
this is true. -/
theorem readUndoesWrite_of_list [Cerealises M] {Encodable : M → Prop}
    (hgrain : Parses (grain default) fun t input => valid t ∧ input = encode t)
    (hencode : ∀ t, 0 < (encode t).length)
    (hread : ∀ old : M, ∃ hdr, Cerealises.cerealise old = listMessage grain default mk hdr)
    (hwrite : ∀ h v ts, (∀ t ∈ ts, valid t) →
      written (mk h v ts) = .ok (h.headerBytes ++ (be16 v ++ ts.flatMap encode)))
    (hvalid : ∀ m, Encodable m → ∃ h v ts, m = mk h v ts ∧ h.qos ≤ 3 ∧ ∀ t ∈ ts, valid t) :
    ReadUndoesWrite Encodable fun _ => True where
  read_written m hm := by
    obtain ⟨h, v, ts, rfl, hqos, hts⟩ := hvalid m hm
    refine ⟨_, hwrite h v ts hts, fun hsize old _ beyond => ?_⟩
    obtain ⟨hdr, hlist⟩ := hread old
    rw [hlist]
    exact listMessage_read hgrain hencode hqos v hts hsize hdr beyond
  written_read old bytes beyond m d _ hok hpos hmin := by
    obtain ⟨hdr, hlist⟩ := hread old
    rw [hlist] at hok
    obtain ⟨h, v, ts, rfl, hts, rfl⟩ := exists_of_listMessage hgrain hok hpos hmin
    exact hwrite h v ts hts

end ListMessage

/-- Writing an entry of a SUBSCRIBE. -/
lemma MqttSubscribe.Topic.prints_cerealise {t : MqttSubscribe.Topic}
    (h : t.topic.length < 65536) :
    Prints (t.cerealise : CerealM Cerealiser MqttSubscribe.Topic) t t.encode := by
  unfold cerealise encode
  exact (prints_grainString h).bind ((prints_grainUInt8 t.qos).bind_pure
    fun qos => ({ topic := t.topic, qos } : MqttSubscribe.Topic))

/-- A SUBSCRIBE that can be written. -/
def MqttSubscribe.Encodable (m : MqttSubscribe) : Prop :=
  m.header.Encodable ∧ ∀ t ∈ m.topics, t.topic.length ≤ 65535

/-- An UNSUBSCRIBE that can be written. -/
def MqttUnsubscribe.Encodable (m : MqttUnsubscribe) : Prop :=
  m.header.Encodable ∧ ∀ topic ∈ m.topics, topic.length ≤ 65535

/-- A SUBACK that can be written. -/
def MqttSuback.Encodable (m : MqttSuback) : Prop := m.header.Encodable

/-- Reading and writing a SUBSCRIBE. -/
theorem MqttSubscribe.readUndoesWrite :
    ReadUndoesWrite MqttSubscribe.Encodable fun _ => True := by
  refine readUndoesWrite_of_list MqttSubscribe.mk (Topic.parses_cerealise {})
    Topic.length_encode_pos (fun old => ⟨old.header, rfl⟩) ?_ ?_
  · intro h v ts hts
    exact encode_listMessage (fun t ht => Topic.prints_cerealise (hts t ht)) {} MqttSubscribe.mk h v
  · intro m hm
    exact ⟨m.header, m.msgId, m.topics, rfl, hm.1.1, fun t ht => Nat.lt_succ_of_le (hm.2 t ht)⟩

/-- Reading and writing an UNSUBSCRIBE. -/
theorem MqttUnsubscribe.readUndoesWrite :
    ReadUndoesWrite MqttUnsubscribe.Encodable fun _ => True := by
  refine readUndoesWrite_of_list MqttUnsubscribe.mk (parses_grainString [])
    length_encodeString_pos (fun old => ⟨old.header, rfl⟩) ?_ ?_
  · intro h v ts hts
    exact encode_listMessage (fun t ht => prints_grainString (hts t ht)) [] MqttUnsubscribe.mk h v
  · intro m hm
    exact ⟨m.header, m.msgId, m.topics, rfl, hm.1.1, fun t ht => Nat.lt_succ_of_le (hm.2 t ht)⟩

/-- Reading an entry of a SUBACK. -/
lemma parses_grainQos : Parses (grainUInt8 0 : CerealM Decerealiser UInt8) fun qos input =>
    True ∧ input = [qos] :=
  (parses_grainUInt8 0).congr fun _ _ => (and_iff_right trivial).symm

/-- The bytes of a SUBACK. -/
lemma MqttSuback.written_eq (h : MqttFixedHeader) (v : UInt16) (qos : List UInt8) :
    written (MqttSuback.mk h v qos) = .ok (h.headerBytes ++ (be16 v ++ qos.flatMap fun q => [q])) :=
  encode_listMessage (fun q _ => prints_grainUInt8 q) 0 MqttSuback.mk h v

/-- Reading and writing a SUBACK. -/
theorem MqttSuback.readUndoesWrite : ReadUndoesWrite MqttSuback.Encodable fun _ => True := by
  refine readUndoesWrite_of_list MqttSuback.mk parses_grainQos
    (fun _ => Nat.one_pos) (fun old => ⟨old.header, rfl⟩) ?_ ?_
  · intro h v ts _
    exact written_eq h v ts
  · intro m hm
    exact ⟨m.header, m.msgId, m.qos, rfl, hm.1, fun _ _ => trivial⟩

/-! ## The messages of fixed length -/

section Fixed

variable {M : Type} [Cerealises M] {body : MqttFixedHeader → CerealM Decerealiser M}
  {R : MqttFixedHeader → M → Bytes → Prop}

/-- **Reading and writing undo each other** for a message that has a format behind its header. -/
theorem readUndoesWrite_of_parses {Encodable start : M → Prop}
    (hbody : ∀ h, Parses (body h) (R h))
    (hread : ∀ old, start old → ∃ hdr : MqttFixedHeader,
      Cerealises.cerealise old = hdr.cerealise >>= body)
    (hwrite : ∀ h m input, R h m input → written m = .ok (h.headerBytes ++ input))
    (hvalid : ∀ m, Encodable m → ∃ h input, R h m input ∧ h.qos ≤ 3) :
    ReadUndoesWrite Encodable start where
  read_written m hm := by
    obtain ⟨h, input, hinput, hqos⟩ := hvalid m hm
    refine ⟨_, hwrite h m input hinput, fun _ old hold beyond => ?_⟩
    obtain ⟨hdr, hlist⟩ := hread old hold
    rw [hlist]
    exact MqttFixedHeader.read_of_parses hbody hqos hinput hdr beyond
  written_read old bytes beyond m d hold hok hpos hmin := by
    obtain ⟨hdr, hlist⟩ := hread old hold
    rw [hlist] at hok
    obtain ⟨h, input, hinput, rfl⟩ :=
      MqttFixedHeader.exists_of_read (fun h => (hbody h).consumes) hok hpos hmin
    exact hwrite h m input hinput

end Fixed

/-- An UNSUBACK that can be written. -/
def MqttUnsuback.Encodable (m : MqttUnsuback) : Prop := m.header.Encodable

/-- A CONNACK that can be written. -/
def MqttConnack.Encodable (m : MqttConnack) : Prop := m.header.Encodable ∧ m.code < 256

/-- The bytes of an UNSUBACK. -/
lemma MqttUnsuback.written_eq (m : MqttUnsuback) :
    written m = .ok (m.header.headerBytes ++ be16 m.msgId) := by
  change Cerealiser.encode (do
    let header ← m.header.cerealise
    let msgId ← grainUInt16 m.msgId
    return { header, msgId : MqttUnsuback }) = _
  exact m.header.encode_cerealise_bind
    ((prints_grainUInt16 m.msgId).bind_pure (MqttUnsuback.mk m.header))

/-- Reading and writing an UNSUBACK. -/
theorem MqttUnsuback.readUndoesWrite : ReadUndoesWrite MqttUnsuback.Encodable fun _ => True := by
  have hbody : ∀ h, Parses (do
      let msgId ← grainUInt16 0
      return { header := h, msgId } : CerealM Decerealiser MqttUnsuback) fun m input =>
        m.header = h ∧ input = be16 m.msgId := by
    intro h
    refine ((parses_grainUInt16 0).map (MqttUnsuback.mk h)).congr fun m input => ?_
    constructor
    · rintro ⟨v, rfl, rfl⟩
      exact ⟨rfl, rfl⟩
    · rintro ⟨rfl, rfl⟩
      exact ⟨m.msgId, rfl, rfl⟩
  refine readUndoesWrite_of_parses hbody (fun old _ => ⟨old.header, rfl⟩) ?_ ?_
  · rintro h m _ ⟨rfl, rfl⟩
    exact m.written_eq
  · intro m hm
    exact ⟨m.header, _, ⟨rfl, rfl⟩, hm.1⟩

/-- A code of one byte is that byte. -/
lemma toUInt32_toUInt8 {code : UInt32} (h : code < 256) : code.toUInt8.toUInt32 = code := by
  have hlt : code.toNat < 256 := UInt32.lt_iff_toNat_lt.mp h
  apply UInt32.toNat.inj
  rw [UInt8.toNat_toUInt32, UInt32.toNat_toUInt8]
  omega

/-- It has no other bits. -/
lemma and_eq_zero_of_lt {code : UInt32} (h : code < 256) : code &&& 0xffffff00 = 0 := by
  have hall : ∀ n < 256, UInt32.ofNat n &&& 0xffffff00 = 0 := by decide +kernel
  have hcode := hall code.toNat (UInt32.lt_iff_toNat_lt.mp h)
  rwa [UInt32.ofNat_toNat] at hcode

/-- The bytes of a CONNACK. -/
lemma MqttConnack.written_eq (m : MqttConnack) :
    written m = .ok (m.header.headerBytes ++ [m.reserved, m.code.toUInt8]) := by
  change Cerealiser.encode (do
    let header ← m.header.cerealise
    let reserved ← grainUInt8 m.reserved
    let low ← grainUInt8 m.code.toUInt8
    return { header, reserved, code := (m.code &&& 0xffffff00) ||| low.toUInt32 :
      MqttConnack }) = _
  exact m.header.encode_cerealise_bind ((prints_grainUInt8 m.reserved).bind
    ((prints_grainUInt8 m.code.toUInt8).bind_pure fun low =>
      MqttConnack.mk m.header m.reserved ((m.code &&& 0xffffff00) ||| low.toUInt32)))

/-- Reading and writing a CONNACK. -/
theorem MqttConnack.readUndoesWrite :
    ReadUndoesWrite MqttConnack.Encodable fun old => old.code < 256 := by
  have hbody : ∀ h, Parses (do
      let reserved ← grainUInt8 0
      let low ← grainUInt8 0
      return { header := h, reserved, code := low.toUInt32 } :
        CerealM Decerealiser MqttConnack) fun m input =>
          m.header = h ∧ m.code < 256 ∧ input = [m.reserved, m.code.toUInt8] := by
    intro h
    refine ((parses_grainUInt8 0).bind fun reserved => (parses_grainUInt8 0).map fun low =>
      MqttConnack.mk h reserved low.toUInt32).congr fun m input => ?_
    constructor
    · rintro ⟨reserved, _, _, rfl, ⟨low, rfl, rfl⟩, rfl⟩
      have hlow : low.toUInt32 < 256 := by
        rw [UInt32.lt_iff_toNat_lt, UInt8.toNat_toUInt32]
        exact low.toNat_lt
      exact ⟨rfl, hlow, by rw [UInt8.toUInt8_toUInt32]; rfl⟩
    · rintro ⟨rfl, hcode, rfl⟩
      refine ⟨m.reserved, _, _, rfl, ⟨m.code.toUInt8, rfl, ?_⟩, rfl⟩
      rw [toUInt32_toUInt8 hcode]
  refine readUndoesWrite_of_parses hbody (fun old hold => ⟨old.header, ?_⟩) ?_ ?_
  · have hcode : ∀ low : UInt8, (old.code &&& 0xffffff00) ||| low.toUInt32 = low.toUInt32 := by
      intro low
      rw [and_eq_zero_of_lt hold, UInt32.zero_or]
    change MqttConnack.cerealise old = _
    unfold MqttConnack.cerealise
    simp only [hcode]
    rfl
  · rintro h m _ ⟨rfl, -, rfl⟩
    exact m.written_eq
  · intro m hm
    exact ⟨m.header, _, ⟨rfl, hm.2, rfl⟩, hm.1.1⟩

/-- The reader starts with the code of a new CONNACK. -/
example : MqttConnack.new.code < 256 := by decide

/-! ## All five -/

/-- **Reading and writing undo each other** for SUBSCRIBE, UNSUBSCRIBE, SUBACK, UNSUBACK and
CONNACK, for messages that are shorter than `2 ^ 31` bytes and length fields in minimal digits. -/
theorem readUndoesWrite_all :
    ReadUndoesWrite MqttSubscribe.Encodable (fun _ => True) ∧
      ReadUndoesWrite MqttUnsubscribe.Encodable (fun _ => True) ∧
      ReadUndoesWrite MqttSuback.Encodable (fun _ => True) ∧
      ReadUndoesWrite MqttUnsuback.Encodable (fun _ => True) ∧
      ReadUndoesWrite MqttConnack.Encodable (fun old => old.code < 256) :=
  ⟨MqttSubscribe.readUndoesWrite, MqttUnsubscribe.readUndoesWrite, MqttSuback.readUndoesWrite,
    MqttUnsuback.readUndoesWrite, MqttConnack.readUndoesWrite⟩

/-- A SUBSCRIBE with two topics. -/
def twoTopics : MqttSubscribe where
  header := { type := .subscribe, qos := 1, remaining := 13 }
  msgId := 33
  topics := [{ topic := [97, 98], qos := 1 }, { topic := [99, 47, 100], qos := 2 }]

/-- Its bytes. -/
def twoTopicsBytes : Bytes := [0x82, 13, 0, 33, 0, 2, 97, 98, 1, 0, 3, 99, 47, 100, 2]

/-- They are read as this SUBSCRIBE, whatever is behind them, and written for what was read. -/
theorem readUndoesWrite_two_topics :
    (∀ beyond, ∃ d : Decerealiser, Cerealises.cerealise ({ header := {} } : MqttSubscribe)
      (Decerealiser.new twoTopicsBytes beyond) = .ok (twoTopics, d) ∧ d.pos = 15) ∧
      written twoTopics = .ok twoTopicsBytes := by
  have hdigits : MqttFixedHeader.remainingDigits 13 = [13] :=
    MqttFixedHeader.remainingDigits_of_lt (by decide)
  have hheader : twoTopics.header.headerBytes = [0x82, 13] := by
    change _ :: MqttFixedHeader.remainingDigits 13 = _
    rw [hdigits]
    rfl
  have hmin : HasMinimalLength twoTopicsBytes := by
    refine ⟨0x82, [13], [0, 33, 0, 2, 97, 98, 1, 0, 3, 99, 47, 100, 2], rfl, ?_, ?_, ?_⟩
    · decide
    · decide
    · intro ds' hds' _
      cases ds' with
      | nil => cases hds'
      | cons => exact Nat.succ_le_succ (Nat.zero_le _)
  have hshort : ∀ t ∈ twoTopics.topics, t.topic.length ≤ 65535 := by decide
  have hwritten : written twoTopics = .ok (twoTopics.header.headerBytes ++
      (be16 33 ++ twoTopics.topics.flatMap MqttSubscribe.Topic.encode)) :=
    encode_listMessage (fun t ht =>
      MqttSubscribe.Topic.prints_cerealise (Nat.lt_succ_of_le (hshort t ht))) {}
      MqttSubscribe.mk twoTopics.header 33
  obtain ⟨bytes, hbytes, hread⟩ :=
    readUndoesWrite_all.1.read_written twoTopics ⟨⟨by decide, by decide⟩, hshort⟩
  obtain rfl : bytes = twoTopicsBytes := by
    rw [hwritten, hheader] at hbytes
    exact (Except.ok.inj hbytes).symm
  have hback := hread (by decide) { header := {} } trivial
  obtain ⟨d, hok, hpos⟩ := hback []
  exact ⟨hback, readUndoesWrite_all.1.written_read _ _ [] twoTopics d trivial hok hpos hmin⟩

/-! ## Messages that an `int` cannot count -/

/-- From `2 ^ 31` to `2 ^ 32` bytes the number of bytes that are left is negative. -/
lemma bytesLeft_neg {d : Decerealiser} (h : d.pos ≤ d.bytes.length)
    (hlong : 2 ^ 31 ≤ (d.bytes.drop d.pos).length) (hlt : (d.bytes.drop d.pos).length < 2 ^ 32) :
    bytesLeft d < 0 := by
  rw [List.length_drop] at hlong hlt
  change ((d.bytes.length : Int) - d.pos).bmod (2 ^ 32) < 0
  rw [Int.bmod_def]
  split <;> omega

/-- So a SUBACK with as many entries is read as one without any. -/
lemma MqttSuback.read_long {h : MqttFixedHeader} (hqos : h.qos ≤ 3) (v : UInt16)
    {qos : List UInt8} (hlong : 2 ^ 31 ≤ qos.length) (hlt : qos.length < 2 ^ 32)
    (old : MqttSuback) (beyond : Bytes) :
    ∃ d : Decerealiser, Cerealises.cerealise old
      (Decerealiser.new (h.headerBytes ++ (be16 v ++ qos.flatMap fun q => [q])) beyond) =
        .ok (MqttSuback.mk h v [], d) := by
  rw [List.flatMap_singleton']
  let frame := h.headerBytes ++ (be16 v ++ qos)
  have hds := MqttFixedHeader.isDigits_remainingDigits h.remaining
  have hdigits : h.headerBytes <+: frame ++ beyond :=
    (List.prefix_append _ _).trans (List.prefix_append _ _)
  let d₁ := Cursor.advance (MqttFixedHeader.remainingDigits h.remaining).length
    (MqttFixedHeader.afterFlags h.flagByte (Decerealiser.new frame beyond))
  have hheader : old.header.cerealise (Decerealiser.new frame beyond) = .ok (h, d₁) := by
    refine (MqttFixedHeader.cerealise_read_iff _ _ rfl).mpr ⟨_, _, hds, ?_, hdigits, rfl⟩
    exact (MqttFixedHeader.ofFlags_digitsValue hqos).symm
  have hbehind : HasRead frame beyond h.headerBytes (be16 v ++ qos) d₁ := HasRead.header rfl
  have hid : be16 v <+: Cursor.unread d₁ := by
    rw [hbehind.unread, List.append_assoc]
    exact List.prefix_append _ _
  let d₂ := Cursor.advance (be16 v).length d₁
  have hentries : HasRead frame beyond (h.headerBytes ++ be16 v) qos d₂ := hbehind.advance rfl
  have hleft := hentries.drop_bytes
  have hneg : bytesLeft d₂ < 0 := bytesLeft_neg hentries.pos_le (by rwa [hleft]) (by rwa [hleft])
  have hloop : grainRawArray grainUInt8 0 [] d₂ = .ok ([], d₂) :=
    grainRawArrayLoop_of_le hneg.le _ []
  refine ⟨d₂, ?_⟩
  change listMessage grainUInt8 0 MqttSuback.mk old.header (Decerealiser.new frame beyond) = _
  rw [listMessage, StateT.bind_of_eq_ok hheader,
    StateT.bind_of_eq_ok ((parses_grainUInt16 0).eq_ok rfl hid), StateT.bind_of_eq_ok hloop]
  rfl

/-- **Nothing bounds the list of a SUBACK**, but the reader counts its bytes in an `int`: one of
`2 ^ 31` entries is not read back. -/
theorem not_readsAs_long_suback :
    ¬∀ m : MqttSuback, m.Encodable → ∃ bytes, written m = .ok bytes ∧
      ∀ old : MqttSuback, ReadsAs old m bytes := by
  intro hall
  obtain ⟨qos, hlen⟩ : ∃ qos : List UInt8, qos.length = 2 ^ 31 :=
    ⟨List.replicate (2 ^ 31) 0, List.length_replicate⟩
  let m : MqttSuback := { header := { type := .suback, remaining := 2 }, msgId := 1, qos }
  have hheader : MqttFixedHeader.Encodable { type := .suback, remaining := 2 } :=
    ⟨by decide, by decide⟩
  obtain ⟨bytes, hbytes, hread⟩ := hall m hheader
  have hwritten : written m = _ := MqttSuback.written_eq m.header m.msgId qos
  rw [hwritten] at hbytes
  obtain rfl := Except.ok.inj hbytes
  obtain ⟨d, hback, -⟩ := hread m []
  have hlt : qos.length < 2 ^ 32 := by
    rw [hlen]
    decide
  obtain ⟨d', hempty⟩ := MqttSuback.read_long hheader.1 m.msgId hlen.ge hlt m []
  rw [hempty] at hback
  have hqos := congrArg MqttSuback.qos (Prod.mk.inj (Except.ok.inj hback)).1
  have hzero : qos.length = 0 := by
    change [] = qos at hqos
    rw [← hqos]
    rfl
  omega

end MqttCpp
