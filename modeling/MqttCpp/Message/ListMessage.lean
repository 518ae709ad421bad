import MqttCpp.Message.Header

/-!
# Messages that end in an array

SUBSCRIBE, UNSUBSCRIBE and SUBACK are a header, a message id and an array without a length: entries
up to the end of the bytes.  So how one of them is read depends on where the bytes end, and not only
on what stands at their front.
-/

namespace MqttCpp

open Cereal

/-! ## The messages as one -/

section ListMessage

variable {T M : Type} (grain : T → CerealM Decerealiser T) (default : T)
  (mk : MqttFixedHeader → UInt16 → List T → M)

/-- A header, a message id and an array without a length, read after a header `hdr` was read. -/
def listMessage (hdr : MqttFixedHeader) : CerealM Decerealiser M := do
  let header ← hdr.cerealise
  let msgId ← grainUInt16 0
  let topics ← grainRawArray grain default []
  return mk header msgId topics

end ListMessage

/-! ## The entries -/

/-- An entry of a SUBSCRIBE: a filter behind its length, and a qos. -/
def MqttSubscribe.Topic.encode (t : MqttSubscribe.Topic) : Bytes := encodeString t.topic ++ [t.qos]

/-- Reading an entry of a SUBSCRIBE. -/
lemma MqttSubscribe.Topic.parses_cerealise (old : MqttSubscribe.Topic) :
    Parses (old.cerealise : CerealM Decerealiser MqttSubscribe.Topic) fun t input =>
      t.topic.length < 65536 ∧ input = t.encode := by
  unfold cerealise
  refine ((parses_grainString old.topic).bind fun topic =>
    (parses_grainUInt8 old.qos).map fun qos => ({ topic, qos } : MqttSubscribe.Topic)).congr
      fun t input => ?_
  constructor
  · rintro ⟨topic, _, _, ⟨htopic, rfl⟩, ⟨qos, rfl, rfl⟩, rfl⟩
    exact ⟨htopic, rfl⟩
  · rintro ⟨htopic, rfl⟩
    exact ⟨t.topic, _, _, ⟨htopic, rfl⟩, ⟨t.qos, rfl, rfl⟩, rfl⟩

/-- How reading an entry of a SUBSCRIBE fails. -/
lemma MqttSubscribe.Topic.failsWith_cerealise (old : MqttSubscribe.Topic) :
    FailsWith (old.cerealise : CerealM Decerealiser MqttSubscribe.Topic) (· = .badRead) := by
  unfold cerealise
  exact (failsWith_grainString _).bind fun _ => (failsWith_grainUInt8 _).bind fun _ => .pure _

/-- An entry takes at least the bytes of its length. -/
lemma MqttSubscribe.Topic.length_encode_pos (t : MqttSubscribe.Topic) : 0 < t.encode.length := by
  rw [encode, List.length_append, length_encodeString]
  omega

/-- So does a filter of an UNSUBSCRIBE. -/
lemma length_encodeString_pos (s : Str) : 0 < (encodeString s).length := by
  rw [length_encodeString]
  omega

/-! ## Parts of a frame -/

/-- A decerealiser that was given `frame` has read `before` and not yet `rest`. -/
structure HasRead (frame beyond before rest : Bytes) (d : Decerealiser) : Prop where
  bytes_eq : d.bytes = frame
  beyond_eq : d.beyond = beyond
  frame_eq : frame = before ++ rest
  pos_eq : d.pos = before.length

namespace HasRead

variable {frame beyond before rest : Bytes} {d : Decerealiser}

/-- What can be read is the rest of the frame, and what is behind it. -/
lemma unread (h : HasRead frame beyond before rest d) : Cursor.unread d = rest ++ beyond := by
  change (d.bytes ++ d.beyond).drop d.pos = _
  rw [h.bytes_eq, h.beyond_eq, h.pos_eq, h.frame_eq, List.append_assoc, List.drop_left]

/-- The bytes that are left are the rest of the frame. -/
lemma drop_bytes (h : HasRead frame beyond before rest d) : d.bytes.drop d.pos = rest := by
  rw [h.bytes_eq, h.pos_eq, h.frame_eq, List.drop_left]

/-- The iterator is inside the frame. -/
lemma pos_le (h : HasRead frame beyond before rest d) : d.pos ≤ d.bytes.length := by
  rw [h.bytes_eq, h.pos_eq, h.frame_eq, List.length_append]
  exact Nat.le_add_right _ _

/-- An `int` can count the bytes if it can count those of the frame. -/
lemma length_lt (h : HasRead frame beyond before rest d) (hsize : frame.length < 2 ^ 31) :
    d.bytes.length < 2 ^ 31 := by
  rwa [h.bytes_eq]

/-- A part of the rest is read. -/
lemma advance {part rest' : Bytes} (h : HasRead frame beyond before rest d)
    (hrest : rest = part ++ rest') :
    HasRead frame beyond (before ++ part) rest' (Cursor.advance part.length d) where
  bytes_eq := h.bytes_eq
  beyond_eq := h.beyond_eq
  frame_eq := by rw [h.frame_eq, hrest, List.append_assoc]
  pos_eq := by
    rw [List.length_append, ← h.pos_eq]
    rfl

/-- The header is read. -/
lemma header {b : UInt8} {ds : Bytes} (hframe : frame = b :: ds ++ rest) :
    HasRead frame beyond (b :: ds) rest
      (Cursor.advance ds.length (MqttFixedHeader.afterFlags b (.new frame beyond))) where
  bytes_eq := rfl
  beyond_eq := rfl
  frame_eq := hframe
  pos_eq := by
    rw [List.length_cons, Nat.add_comm]
    exact congrArg (· + ds.length) (Nat.zero_add 1)

/-- A header that was read from the frame, when there is no memory behind it. -/
lemma of_cerealise {old hdr : MqttFixedHeader}
    (h : old.cerealise (Decerealiser.new frame []) = .ok (hdr, d)) :
    ∃ b ds rest, MqttFixedHeader.IsDigits ds ∧ frame = b :: ds ++ rest ∧
      HasRead frame [] (b :: ds) rest d := by
  obtain ⟨b, ds, hds, -, ⟨rest, hrest⟩, rfl⟩ :=
    (MqttFixedHeader.cerealise_read_iff old hdr rfl).mp h
  have hframe : frame = b :: ds ++ rest := (List.append_nil frame).symm.trans hrest.symm
  exact ⟨b, ds, rest, hds, hframe, HasRead.header hframe⟩

/-- A 16-bit number that was read from the rest of the frame. -/
lemma of_grainUInt16 (h : HasRead frame [] before rest d) {old v : UInt16} {d' : Decerealiser}
    (hread : grainUInt16 old d = .ok (v, d')) :
    ∃ rest', rest = be16 v ++ rest' ∧ HasRead frame [] (before ++ be16 v) rest' d' := by
  obtain ⟨_, rfl, ⟨rest', hrest⟩, rfl⟩ := (parses_grainUInt16 old d v d').mp hread
  rw [h.unread, List.append_nil] at hrest
  exact ⟨rest', hrest.symm, h.advance hrest.symm⟩

end HasRead

/-! ## The messages in whole -/

section Read

variable {T M : Type} {grain : T → CerealM Decerealiser T} {default : T} {valid : T → Prop}
  {encode : T → Bytes} {mk : MqttFixedHeader → UInt16 → List T → M}

/-- **A frame of the right form is read**, whatever the memory behind it holds. -/
theorem listMessage_eq_ok
    (hgrain : Parses (grain default) fun t input => valid t ∧ input = encode t)
    (hencode : ∀ t, 0 < (encode t).length) (hdr : MqttFixedHeader) {b : UInt8} {ds : Bytes}
    (hds : MqttFixedHeader.IsDigits ds) (v : UInt16) {ts : List T} (hts : ∀ t ∈ ts, valid t)
    {frame : Bytes} (hsize : frame.length < 2 ^ 31)
    (hframe : frame = b :: ds ++ (be16 v ++ ts.flatMap encode)) (beyond : Bytes) :
    ∃ d, listMessage grain default mk hdr (.new frame beyond) =
      .ok (mk (.ofFlags b (MqttFixedHeader.digitsValue 1 0 ds)) v ts, d) ∧
        d.pos = frame.length := by
  have hdigits : b :: ds <+: frame ++ beyond := by
    rw [hframe, List.append_assoc]
    exact List.prefix_append _ _
  have hheader : hdr.cerealise (Decerealiser.new frame beyond) = .ok _ :=
    (MqttFixedHeader.cerealise_read_iff _ _ rfl).mpr ⟨b, ds, hds, rfl, hdigits, rfl⟩
  let d₁ := Cursor.advance ds.length (MqttFixedHeader.afterFlags b (.new frame beyond))
  have hbehind : HasRead frame beyond (b :: ds) _ d₁ := HasRead.header hframe
  have hid : be16 v <+: Cursor.unread d₁ := by
    rw [hbehind.unread, List.append_assoc]
    exact List.prefix_append _ _
  have hentries := hbehind.advance rfl
  have hloop := grainRawArray_eq_ok hgrain hencode hts hentries.pos_le
    (hentries.length_lt hsize) hentries.drop_bytes []
  rw [listMessage, StateT.bind_of_eq_ok hheader,
    StateT.bind_of_eq_ok ((parses_grainUInt16 0).eq_ok rfl hid), StateT.bind_of_eq_ok hloop]
  exact ⟨_, rfl, congrArg List.length hentries.bytes_eq⟩

end Read

end MqttCpp
