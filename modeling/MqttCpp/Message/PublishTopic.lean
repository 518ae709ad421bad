import MqttCpp.Message.Publish
import MqttCpp.Stream.Framing

/-!
# The topic of a PUBLISH, without decoding it

`getPublishTopic` reads the length of the topic at the fixed offsets 2 and 3 and takes the topic
from offset 4 on.  The offsets are right for a remaining length of one digit.  The test for the
size of the message lets messages of four bytes pass, although a fifth byte is looked at, and
nothing compares the length of the topic with what is there.
-/

namespace MqttCpp

/-! ## What is read at the offsets -/

/-- The type of a message is in the upper half of its first byte. -/
lemma getMessageType_eq {msg : Span} {b : UInt8} {rest : Bytes} (h : msg.bytes = b :: rest) :
    getMessageType msg = .ok (MqttType.ofCode (b >>> 4).toNat) := by
  have hfirst : msg.get 0 = .ok b := Span.get_eq_ok (by rw [h]; rfl)
  rw [getMessageType, hfirst]
  rfl

/-- A message of less than four bytes has no topic. -/
lemma getPublishTopic_of_size_lt {msg : Span} (h : msg.size < 4) :
    getPublishTopic msg = .ok { mem := [], size := 0 } := by
  rw [getPublishTopic, if_pos h]
  rfl

/-- What is looked at in a message of at least four bytes. -/
lemma getPublishTopic_of_le_size {msg : Span} {b₀ b₁ high low : UInt8} {behind : Bytes}
    (h : msg.bytes = b₀ :: b₁ :: high :: low :: behind) :
    getPublishTopic msg = msg.get 4 >>= fun _ =>
      .ok { mem := msg.mem.drop 4, size := high.toNat * 256 + low.toNat } := by
  have hlen := congrArg List.length h
  rw [Span.length_bytes, List.length_cons, List.length_cons, List.length_cons,
    List.length_cons] at hlen
  have hsize : ¬msg.size < 4 := by omega
  have hhigh : msg.get 2 = .ok high := Span.get_eq_ok (by rw [h]; rfl)
  have hlow : msg.get 3 = .ok low := Span.get_eq_ok (by rw [h]; rfl)
  rw [getPublishTopic, if_neg hsize, hhigh, hlow, ← Nat.shiftLeft_eq high.toNat 8]
  rfl

/-- A message of just four bytes is indexed behind its end. -/
lemma getPublishTopic_of_size_eq {msg : Span} (h : msg.size = 4) :
    getPublishTopic msg = .error .terminate := by
  have hlen : msg.bytes.length = 4 := by rw [Span.length_bytes, h]
  match hbytes : msg.bytes, hlen with
  | [b₀, b₁, high, low], _ =>
    rw [getPublishTopic_of_le_size hbytes, Span.get_eq_terminate (Nat.le_of_eq h)]
    rfl

/-- A message of more than four bytes has a fifth. -/
lemma exists_bytes_eq_of_lt_size {msg : Span} (h : 4 < msg.size) :
    ∃ (b₀ b₁ high low b₄ : UInt8) (rest : Bytes),
      msg.bytes = b₀ :: b₁ :: high :: low :: b₄ :: rest := by
  rw [← msg.length_bytes] at h
  match msg.bytes, h with
  | b₀ :: b₁ :: high :: low :: b₄ :: rest, _ => exact ⟨b₀, b₁, high, low, b₄, rest, rfl⟩

/-- In a longer message the length is taken from the third and the fourth byte. -/
lemma getPublishTopic_of_lt_size {msg : Span} {b₀ b₁ high low b₄ : UInt8} {rest : Bytes}
    (h : msg.bytes = b₀ :: b₁ :: high :: low :: b₄ :: rest) :
    getPublishTopic msg =
      .ok { mem := msg.mem.drop 4, size := high.toNat * 256 + low.toNat } := by
  have hfifth : msg.get 4 = .ok b₄ := Span.get_eq_ok (by rw [h]; rfl)
  rw [getPublishTopic_of_le_size h, hfifth]
  rfl

/-! ## Inside the message -/

/-- The span shows bytes of the message, if any. -/
def CStringSpan.Within (t : CStringSpan) (msg : Span) : Prop :=
  t.size = 0 ∨ ∃ offset, t.mem = msg.mem.drop offset ∧ offset + t.size ≤ msg.size

/-- The topic is looked for and found inside the message. -/
def TopicInside (msg : Span) : Prop := ∃ t, getPublishTopic msg = .ok t ∧ t.Within msg

/-- A message is too short for a topic, or has a fifth byte and a topic that fits into it. -/
def TopicFits : Bytes → Prop
  | _ :: _ :: high :: low :: rest => rest ≠ [] ∧ high.toNat * 256 + low.toNat ≤ rest.length
  | _ => True

instance : (msg : Bytes) → Decidable (TopicFits msg)
  | [] => isTrue trivial
  | [_] => isTrue trivial
  | [_, _] => isTrue trivial
  | [_, _, _] => isTrue trivial
  | _ :: _ :: high :: low :: rest =>
    inferInstanceAs (Decidable (rest ≠ [] ∧ high.toNat * 256 + low.toNat ≤ rest.length))

/-- A message of less than four bytes is too short for a topic. -/
lemma topicFits_of_length_lt {msg : Bytes} (h : msg.length < 4) : TopicFits msg := by
  match msg, h with
  | [], _ => trivial
  | [_], _ => trivial
  | [_, _], _ => trivial
  | [_, _, _], _ => trivial
  | _ :: _ :: _ :: _ :: rest, h =>
    rw [List.length_cons, List.length_cons, List.length_cons, List.length_cons] at h
    omega

/-- The bytes from the fifth on are inside the message just as far as it goes. -/
lemma within_drop_four_iff {msg : Span} (h : 4 < msg.size) (n : ℕ) :
    CStringSpan.Within { mem := msg.mem.drop 4, size := n } msg ↔ 4 + n ≤ msg.size := by
  have hmem := msg.size_le
  constructor
  · rintro (hzero | ⟨offset, hdrop, hle⟩)
    · have hn : n = 0 := hzero
      omega
    · -- no other offset shows the same memory
      have hlen := congrArg List.length hdrop
      rw [List.length_drop, List.length_drop] at hlen
      have hn : offset + n ≤ msg.size := hle
      omega
  · exact fun hle => Or.inr ⟨4, rfl, hle⟩

/-- **The topic of a PUBLISH is found inside it exactly when the message is too short for one, or
has a fifth byte and room for as many bytes as the third and the fourth announce.** -/
theorem topicInside_iff (msg : Span) : TopicInside msg ↔ TopicFits msg.bytes := by
  have hsize := msg.length_bytes
  rcases Nat.lt_trichotomy msg.size 4 with hlt | heq | hgt
  · have hfits : TopicFits msg.bytes := topicFits_of_length_lt (by omega)
    have hinside : TopicInside msg := ⟨_, getPublishTopic_of_size_lt hlt, Or.inl rfl⟩
    exact ⟨fun _ => hfits, fun _ => hinside⟩
  · constructor
    · rintro ⟨t, ht, -⟩
      rw [getPublishTopic_of_size_eq heq] at ht
      cases ht
    · intro hfits
      match hbytes : msg.bytes, hsize.trans heq with
      | [b₀, b₁, high, low], _ =>
        rw [hbytes] at hfits
        exact absurd rfl hfits.1
  · obtain ⟨b₀, b₁, high, low, b₄, rest, hbytes⟩ := exists_bytes_eq_of_lt_size hgt
    have hroom : 4 + (b₄ :: rest).length = msg.size := by
      rw [hbytes] at hsize
      simp only [List.length_cons] at hsize ⊢
      omega
    have hget := getPublishTopic_of_lt_size hbytes
    have hinside : TopicInside msg ↔
        4 + (high.toNat * 256 + low.toNat) ≤ 4 + (b₄ :: rest).length := by
      rw [hroom, ← within_drop_four_iff hgt]
      constructor
      · rintro ⟨t, ht, hwithin⟩
        rw [hget] at ht
        obtain rfl := Except.ok.inj ht
        exact hwithin
      · exact fun hwithin => ⟨_, hget, hwithin⟩
    rw [hinside, hbytes, TopicFits, Nat.add_le_add_iff_left]
    exact ⟨fun h => ⟨List.cons_ne_nil b₄ rest, h⟩, fun h => h.2⟩

/-- A PUBLISH of four bytes is passed on by a stream that has room for it, and looking for its
topic terminates the process. -/
lemma exists_message_of_four_bytes {size : ℕ} (h : 4 ≤ size) :
    ∃ msg ∈ (MqttStream.new size).allMessages [[0x30, 2, 0, 0]],
      getMessageType msg = .ok .publish ∧ getPublishTopic msg = .error .terminate := by
  obtain ⟨msg, hmem, hmsg⟩ := MqttStream.exists_message_of_cut_eq h
    (by decide +kernel : MqttStream.messageFramer.cut [0x30, 2, 0, 0] = ([[0x30, 2, 0, 0]], []))
  have hsize : msg.size = 4 := by
    rw [← msg.length_bytes, hmsg]
    rfl
  exact ⟨msg, hmem, getMessageType_eq hmsg, getPublishTopic_of_size_eq hsize⟩

/-- So a client can terminate the server, whose streams have a size of 128 KiB. -/
theorem topicInside_fails_on_four_bytes :
    ∃ msg ∈ (MqttStream.new (128 * 1024)).allMessages [[0x30, 2, 0, 0]],
      getMessageType msg = .ok .publish ∧ ¬TopicInside msg := by
  obtain ⟨msg, hmem, htype, hterminate⟩ :=
    exists_message_of_four_bytes (by decide : 4 ≤ 128 * 1024)
  refine ⟨msg, hmem, htype, ?_⟩
  rintro ⟨t, ht, -⟩
  rw [hterminate] at ht
  cases ht

/-! ## The topic that was written -/

/-- What is read as the topic is `topic`. -/
def TopicReadAs (msg : Span) (topic : Str) : Prop :=
  ∃ t, getPublishTopic msg = .ok t ∧ t.toString = .ok topic

/-- The bytes behind the fourth are those of the span, as far as it goes. -/
lemma take_drop_four_mem {msg : Span} {n : ℕ} (h : 4 + n ≤ msg.size) :
    (msg.mem.drop 4).take n = (msg.bytes.drop 4).take n := by
  rw [Span.bytes, List.drop_take, List.take_take, Nat.min_eq_left (by omega)]

/-- A topic is read from a message exactly when the third and the fourth byte are its length and
it starts at the fifth. -/
lemma topicReadAs_iff {msg : Span} {b₀ b₁ high low : UInt8} {behind : Bytes}
    (h : msg.bytes = b₀ :: b₁ :: high :: low :: behind) (hne : behind ≠ []) {topic : Str}
    (hroom : topic.length ≤ behind.length) :
    TopicReadAs msg topic ↔
      topic.length = high.toNat * 256 + low.toNat ∧ topic <+: behind := by
  have hsize : msg.size = 4 + behind.length := by
    rw [← msg.length_bytes, h]
    simp only [List.length_cons]
    omega
  have hdrop : (msg.mem.drop 4).take topic.length = behind.take topic.length := by
    rw [take_drop_four_mem (by omega), h]
    rfl
  have hmem : topic.length ≤ (msg.mem.drop 4).length := by
    have hle := msg.size_le
    rw [List.length_drop]
    omega
  have hget : getPublishTopic msg =
      .ok { mem := msg.mem.drop 4, size := high.toNat * 256 + low.toNat } := by
    cases behind with
    | nil => exact absurd rfl hne
    | cons b₄ rest => exact getPublishTopic_of_lt_size h
  constructor
  · rintro ⟨t, ht, htopic⟩
    rw [hget] at ht
    obtain rfl := Except.ok.inj ht
    by_cases hin : high.toNat * 256 + low.toNat ≤ (msg.mem.drop 4).length
    · rw [CStringSpan.toString, if_pos hin] at htopic
      have htake := Except.ok.inj htopic
      have hlen : topic.length = high.toNat * 256 + low.toNat := by
        rw [← htake, List.length_take, Nat.min_eq_left hin]
      refine ⟨hlen, ?_⟩
      rw [← hlen, hdrop] at htake
      exact htake ▸ List.take_prefix _ _
    · rw [CStringSpan.toString, if_neg hin] at htopic
      cases htopic
  · rintro ⟨hlen, hprefix⟩
    refine ⟨_, hget, ?_⟩
    rw [CStringSpan.toString, ← hlen, if_pos hmem, hdrop, ← List.prefix_iff_eq_take.mp hprefix]

/-- The topic happens to be what is read at the fixed offsets when the remaining length has three
or four digits: the second and the third are its length, and it repeats the digits from the
fourth on and its own length. -/
def Coincides (remaining : UInt32) (topic : Str) : Prop :=
  match MqttFixedHeader.remainingDigits remaining with
  | _ :: d₁ :: d₂ :: ds =>
    topic.length = d₁.toNat * 256 + d₂.toNat ∧ topic <+: ds ++ (d₁ :: d₂ :: topic)
  | _ => False

section Written

variable {msg : Span} {flags : UInt8} {remaining : UInt32} {topic : Str} {tail : Bytes}

/-- The bytes of a length that fits into 16 bits. -/
lemma toNat_bytes_of_length (htopic : topic.length < 65536) :
    topic.length = (UInt16.ofNat topic.length >>> 8).toUInt8.toNat * 256 +
      (UInt16.ofNat topic.length &&& 0xff).toUInt8.toNat := by
  rw [toNat_high, toNat_low, toNat_ofNat_length htopic]
  omega

/-- Behind one digit the topic is read. -/
lemma topicReadAs_of_one_digit
    (hmsg : msg.bytes = flags :: MqttFixedHeader.remainingDigits remaining ++
      (encodeString topic ++ tail))
    (hne : topic ≠ []) (htopic : topic.length < 65536) (hone : remaining.toNat < 128) :
    TopicReadAs msg topic := by
  rw [MqttFixedHeader.remainingDigits_of_lt hone] at hmsg
  have hbehind : topic ++ tail ≠ [] := List.append_ne_nil_of_left_ne_nil hne tail
  have hroom : topic.length ≤ (topic ++ tail).length := by
    rw [List.length_append]
    exact Nat.le_add_right _ _
  exact (topicReadAs_iff hmsg hbehind hroom).mpr
    ⟨toNat_bytes_of_length htopic, List.prefix_append _ _⟩

/-- Behind two digits it is not: the length that is read is larger than the message. -/
lemma not_topicReadAs_of_two_digits
    (hmsg : msg.bytes = flags :: MqttFixedHeader.remainingDigits remaining ++
      (encodeString topic ++ tail))
    (htopic : topic.length < 65536) (hroom : topic.length + 2 ≤ remaining.toNat)
    (hone : 128 ≤ remaining.toNat) (htwo : remaining.toNat < 16384) :
    ¬TopicReadAs msg topic := by
  have hdiv : (remaining / 128).toNat = remaining.toNat / 128 :=
    MqttFixedHeader.toNat_div remaining
  have hlast : (remaining / 128).toNat < 128 := by omega
  rw [MqttFixedHeader.remainingDigits_of_le hone,
    MqttFixedHeader.remainingDigits_of_lt hlast] at hmsg
  have hdigit : (UInt8.ofNat (remaining / 128).toNat).toNat = remaining.toNat / 128 := by
    rw [UInt8.toNat_ofNat_of_lt' (Nat.lt_trans hlast (by decide)), hdiv]
  have hbytes : msg.bytes = flags :: (UInt8.ofNat (remaining.toNat % 128) ||| 0x80) ::
      UInt8.ofNat (remaining / 128).toNat :: (UInt16.ofNat topic.length >>> 8).toUInt8 ::
        ((UInt16.ofNat topic.length &&& 0xff).toUInt8 :: (topic ++ tail)) := hmsg
  have hbehind : topic.length ≤
      ((UInt16.ofNat topic.length &&& 0xff).toUInt8 :: (topic ++ tail)).length := by
    rw [List.length_cons, List.length_append]
    omega
  intro hread
  have hlen := ((topicReadAs_iff hbytes (List.cons_ne_nil _ _) hbehind).mp hread).1
  rw [hdigit] at hlen
  omega

/-- With two digits there is no coincidence. -/
lemma not_coincides_of_two_digits (hone : 128 ≤ remaining.toNat)
    (htwo : remaining.toNat < 16384) : ¬Coincides remaining topic := by
  have hdiv : (remaining / 128).toNat = remaining.toNat / 128 :=
    MqttFixedHeader.toNat_div remaining
  have hlast : (remaining / 128).toNat < 128 := by omega
  rw [Coincides, MqttFixedHeader.remainingDigits_of_le hone,
    MqttFixedHeader.remainingDigits_of_lt hlast]
  exact not_false

/-- A string whose length has these two bytes. -/
lemma encodeString_of_length_eq {d₁ d₂ : UInt8}
    (hlen : topic.length = d₁.toNat * 256 + d₂.toNat) :
    encodeString topic = d₁ :: d₂ :: topic := by
  have hbound : topic.length < 65536 := by
    have h₁ := d₁.toNat_lt
    have h₂ := d₂.toNat_lt
    omega
  have hjoin : UInt16.ofNat topic.length = (d₁.toUInt16 <<< 8) + d₂.toUInt16 := by
    apply UInt16.toNat.inj
    rw [toNat_ofNat_length hbound, toNat_join, hlen]
  rw [encodeString, hjoin, be16_join]
  rfl

/-- Behind more digits it is read just when it happens to be what stands there. -/
lemma topicReadAs_iff_of_three_digits
    (hmsg : msg.bytes = flags :: MqttFixedHeader.remainingDigits remaining ++
      (encodeString topic ++ tail)) (hthree : 16384 ≤ remaining.toNat) :
    TopicReadAs msg topic ↔ Coincides remaining topic := by
  have hdiv : (remaining / 128).toNat = remaining.toNat / 128 :=
    MqttFixedHeader.toNat_div remaining
  obtain ⟨d₂, ds, hds⟩ := List.exists_cons_of_length_pos
    (MqttFixedHeader.length_remainingDigits_pos (remaining / 128 / 128))
  have hfirst := MqttFixedHeader.remainingDigits_of_le (by omega : 128 ≤ remaining.toNat)
  rw [MqttFixedHeader.remainingDigits_of_le (by omega : 128 ≤ (remaining / 128).toNat),
    hds] at hfirst
  obtain ⟨d₀, d₁, hdigits⟩ : ∃ d₀ d₁,
      MqttFixedHeader.remainingDigits remaining = d₀ :: d₁ :: d₂ :: ds := ⟨_, _, hfirst⟩
  rw [hdigits] at hmsg
  have hbytes : msg.bytes = flags :: d₀ :: d₁ :: d₂ :: (ds ++ (encodeString topic ++ tail)) := hmsg
  have hbehind : topic.length + 2 ≤ (ds ++ (encodeString topic ++ tail)).length := by
    rw [List.length_append, List.length_append, length_encodeString]
    omega
  rw [topicReadAs_iff hbytes (List.ne_nil_of_length_pos (by omega)) (by omega), Coincides, hdigits]
  refine and_congr_right fun hlen => ?_
  rw [encodeString_of_length_eq hlen, ← List.append_assoc]
  constructor
  · intro hprefix
    apply List.prefix_of_prefix_length_le hprefix (List.prefix_append _ tail)
    rw [List.length_append, List.length_cons, List.length_cons]
    omega
  · exact fun hprefix => hprefix.trans (List.prefix_append _ _)

/-- **A topic is read from the bytes of a message exactly when its remaining length has one digit,
or it happens to be what stands at the fixed offsets.** -/
theorem topicReadAs_written_iff
    (hmsg : msg.bytes = flags :: MqttFixedHeader.remainingDigits remaining ++
      (encodeString topic ++ tail))
    (hne : topic ≠ []) (htopic : topic.length < 65536)
    (hroom : topic.length + 2 ≤ remaining.toNat) :
    TopicReadAs msg topic ↔ remaining ≤ 127 ∨ Coincides remaining topic := by
  have hle : remaining ≤ 127 ↔ remaining.toNat < 128 :=
    UInt32.le_iff_toNat_le.trans Nat.lt_succ_iff.symm
  rw [hle]
  by_cases hone : remaining.toNat < 128
  · have hread := topicReadAs_of_one_digit hmsg hne htopic hone
    exact ⟨fun _ => Or.inl hone, fun _ => hread⟩
  · by_cases hthree : 16384 ≤ remaining.toNat
    · rw [topicReadAs_iff_of_three_digits hmsg hthree]
      exact ⟨Or.inr, fun h => h.resolve_left hone⟩
    · have hnot := not_topicReadAs_of_two_digits hmsg htopic hroom (Nat.not_lt.mp hone)
        (Nat.not_le.mp hthree)
      have hno : ¬Coincides remaining topic :=
        not_coincides_of_two_digits (Nat.not_lt.mp hone) (Nat.not_le.mp hthree)
      exact ⟨fun h => absurd h hnot, fun h => absurd h (not_or.mpr ⟨hone, hno⟩)⟩

end Written

/-- **The topic of a PUBLISH is found by `getPublishTopic` exactly when its remaining length is at
most 127**, or the topic happens to stand at the fixed offsets; `MqttPublish::cerealise` reads it
back from every message. -/
theorem getPublishTopic_encode_iff (dup : Bool) (qos : UInt8) (retain : Bool) (topic : Str)
    (payload : Bytes) (msgId : UInt16) (hqos : qos ≤ 3) (hne : topic ≠ [])
    (htopic : topic.length ≤ 65535)
    (hlen : MqttPublish.remainingLength qos topic payload ≤ 268435455) (msg : Span)
    (hmsg : Cerealiser.encode (MqttPublish.new dup qos retain topic payload msgId).cerealise =
      .ok msg.bytes) :
    let remaining := (MqttPublish.new dup qos retain topic payload msgId).header.remaining
    (TopicReadAs msg topic ↔ remaining ≤ 127 ∨ Coincides remaining topic) ∧
      ∀ (h : MqttFixedHeader) (beyond : Bytes), ∃ (m : MqttPublish) (d : Decerealiser),
        ({ header := h } : MqttPublish).cerealise (Decerealiser.new msg.bytes beyond) =
          .ok (m, d) ∧ m.topic = topic := by
  intro remaining
  have hlt : (MqttPublish.new dup qos retain topic payload msgId).topic.length < 65536 :=
    Nat.lt_succ_of_le htopic
  have hremaining := MqttPublish.toNat_remaining_new dup qos retain msgId hlen
  have hroom : topic.length + 2 ≤ remaining.toNat := by
    rw [hremaining, MqttPublish.remainingLength]
    split <;> omega
  have hbytes := hmsg
  rw [MqttPublish.encode_cerealise hlt] at hbytes
  refine ⟨?_, fun h beyond => ?_⟩
  · exact topicReadAs_written_iff (Except.ok.inj hbytes).symm hne hlt hroom
  · obtain ⟨d, hread, -⟩ :=
      MqttPublish.cerealise_read_encode dup retain msgId hqos htopic hlen hmsg h beyond
    exact ⟨_, d, hread, MqttPublish.topic_readBack _⟩

/-- A topic of one byte before a payload of 125: the digit behind the first is taken for the high
byte of the length, and the topic for 256 bytes long. -/
theorem getPublishTopic_misses_topic :
    ∃ msg : Span, Cerealiser.encode
        (MqttPublish.new false 0 false [97] (List.replicate 125 0) 0).cerealise = .ok msg.bytes ∧
      ¬TopicReadAs msg [97] := by
  refine ⟨Span.ofBytes (0x30 :: 0x80 :: 1 :: 0 :: 1 :: 97 :: List.replicate 125 0),
    by decide +kernel, ?_⟩
  rintro ⟨t, ht, htopic⟩
  rw [getPublishTopic_of_lt_size (Span.bytes_ofBytes _)] at ht
  obtain rfl := Except.ok.inj ht
  have hfault : CStringSpan.toString
      { mem := (0x30 :: 0x80 :: 1 :: 0 :: 1 :: 97 :: List.replicate 125 0 : Bytes).drop 4
        size := (1 : UInt8).toNat * 256 + (0 : UInt8).toNat } = .error .badRead := by
    decide +kernel
  exact nomatch hfault.symm.trans htopic

/-- A topic of one byte before a payload of two is found. -/
theorem getPublishTopic_encode_iff_short :
    TopicReadAs (Span.ofBytes [0x30, 5, 0, 1, 97, 1, 2]) [97] :=
  (getPublishTopic_encode_iff false 0 false [97] [1, 2] 0 (by decide) (by decide) (by decide)
    (by decide) (Span.ofBytes [0x30, 5, 0, 1, 97, 1, 2]) (by decide +kernel)).1.mpr
      (Or.inl (by decide))

end MqttCpp
