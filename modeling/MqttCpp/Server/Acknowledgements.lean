import MqttCpp.Server.Answers
import MqttCpp.Server.Decoding

/-!
# Acknowledgements and the messages they stand for

The answers to SUBSCRIBE and UNSUBSCRIBE are put together by hand from the decoded message id.  The
one is what an `MqttUnsuback` with that id is written as.  The other is what an `MqttSuback` is
written as that grants one QoS of 0, to however many topics: it is a SUBACK with a QoS for each
topic only when there is one topic.
-/

namespace MqttCpp

open MqttFixedHeader

/-- A well-formed message: a byte of flags that begins with the type, a remaining length of up to
four digits that counts what follows, and that. -/
def IsMessage (type : MqttType) (body bytes : Bytes) : Prop :=
  ∃ (b : UInt8) (ds : Bytes), MqttType.ofCode (b >>> 4).toNat = type ∧ IsDigits ds ∧
    ds.length ≤ 4 ∧ digitSum ds = body.length ∧ bytes = b :: ds ++ body

/-- A well-formed SUBSCRIBE with a message id and entries. -/
def IsSubscribe (m : UInt16) (ts : List MqttSubscribe.Topic) (msg : Span) : Prop :=
  ts ≠ [] ∧ (∀ t ∈ ts, t.topic.length < 65536) ∧
    IsMessage .subscribe (be16 m ++ ts.flatMap MqttSubscribe.Topic.encode) msg.bytes

/-- A well-formed UNSUBSCRIBE with a message id and filters. -/
def IsUnsubscribe (m : UInt16) (topics : List Str) (msg : Span) : Prop :=
  topics ≠ [] ∧ (∀ topic ∈ topics, topic.length < 65536) ∧
    IsMessage .unsubscribe (be16 m ++ topics.flatMap encodeString) msg.bytes

/-- An `int` can count the bytes of a well-formed message. -/
lemma IsMessage.length_lt {type : MqttType} {body bytes : Bytes} (h : IsMessage type body bytes) :
    bytes.length < 2 ^ 31 := by
  obtain ⟨b, ds, -, -, hdigits, hlen, rfl⟩ := h
  have hsum := digitSum_lt ds
  have hpow : 128 ^ ds.length ≤ 128 ^ 4 := Nat.pow_le_pow_right (by decide) hdigits
  have hmax : 128 ^ 4 + 5 < 2 ^ 31 := by decide
  rw [List.length_append, List.length_cons]
  omega

/-- What a well-formed SUBSCRIBE asks for. -/
lemma IsSubscribe.readRequest_eq {m : UInt16} {ts : List MqttSubscribe.Topic} {msg : Span}
    (h : IsSubscribe m ts msg) (beyond : Bytes) :
    readRequest msg beyond = .ok (.subscribe m ts) := by
  have hsize := h.2.2.length_lt
  obtain ⟨-, hts, b, ds, htype, hds, -, -, hmsg⟩ := h
  exact readRequest_of_subscribe htype hds m hts hsize hmsg beyond

/-- What a well-formed UNSUBSCRIBE asks for. -/
lemma IsUnsubscribe.readRequest_eq {m : UInt16} {topics : List Str} {msg : Span}
    (h : IsUnsubscribe m topics msg) (beyond : Bytes) :
    readRequest msg beyond = .ok (.unsubscribe m topics) := by
  have hsize := h.2.2.length_lt
  obtain ⟨-, htopics, b, ds, htype, hds, -, -, hmsg⟩ := h
  exact readRequest_of_unsubscribe htype hds m htopics hsize hmsg beyond

/-- The answer to a SUBSCRIBE is the SUBACK that grants one QoS of 0, and no other. -/
lemma written_suback_iff (m : UInt16) (q : List UInt8) :
    written (MqttSuback.new m q) = .ok (suback m) ↔ q = [0] := by
  constructor
  · intro h
    have hwritten : written (MqttSuback.new m q) = _ := MqttSuback.written_eq _ _ _
    have hbytes := Except.ok.inj (hwritten.symm.trans h)
    rw [List.flatMap_singleton'] at hbytes
    have hlength : (remainingDigits (UInt32.ofNat (q.length + 2))).length + q.length = 2 := by
      have hall := congrArg List.length hbytes
      simp only [headerBytes, List.length_append, List.length_cons, length_be16, suback,
        List.length_nil] at hall
      omega
    have hpos := length_remainingDigits_pos (UInt32.ofNat (q.length + 2))
    rcases q with _ | ⟨b, _ | ⟨c, q⟩⟩
    · -- a length of 2 has one digit
      have hone : (remainingDigits 2).length = 1 := by decide +kernel
      exact absurd (hone.symm.trans hlength) (by decide)
    · have hlast := congrArg List.getLast? hbytes
      simp only [suback, List.getLast?_append, List.getLast?_singleton, Option.some_or,
        List.getLast?_cons_cons, Option.some.injEq] at hlast
      rw [hlast]
    · simp only [List.length_cons] at hlength hpos
      omega
  · rintro rfl
    exact written_suback m

section Newmessage

variable [BoostSplit] {C : Type} [DecidableEq C]

/-- What the server does with a well-formed SUBSCRIBE. -/
lemma IsSubscribe.newMessage_eq {m : UInt16} {ts : List MqttSubscribe.Topic} {msg : Span}
    (h : IsSubscribe m ts msg) (s : MqttServer C) (c : C) (beyond : Bytes) :
    s.newMessage c msg beyond =
      .ok ({ broker := s.broker.subscribe c ts }, [.newMessage c (suback m)]) := by
  rw [s.newMessage_eq, h.readRequest_eq]
  rfl

/-- What the server does with a well-formed UNSUBSCRIBE. -/
lemma IsUnsubscribe.newMessage_eq {m : UInt16} {topics : List Str} {msg : Span}
    (h : IsUnsubscribe m topics msg) (s : MqttServer C) (c : C) (beyond : Bytes) :
    s.newMessage c msg beyond =
      .ok ({ broker := s.broker.unsubscribeTopics c topics }, [.newMessage c (unsuback m)]) := by
  rw [s.newMessage_eq, h.readRequest_eq]
  rfl

/-- **What the server acknowledges with.**  In every state, the answer to a well-formed SUBSCRIBE
is what a SUBACK with its message id and one QoS of 0 is written as, so that it has a QoS for each
topic just when there is one topic; and the answer to a well-formed UNSUBSCRIBE is what an UNSUBACK
with its message id is written as. -/
theorem newMessage_acknowledges (s : MqttServer C) (c : C) (m : UInt16) (msg : Span)
    (beyond : Bytes) :
    (∀ ts, IsSubscribe m ts msg → ∃ s' reply,
      s.newMessage c msg beyond = .ok (s', [.newMessage c reply]) ∧
        written (MqttSuback.new m [0]) = .ok reply ∧
          ((∃ q, q.length = ts.length ∧ written (MqttSuback.new m q) = .ok reply) ↔
            ts.length = 1)) ∧
      ∀ topics, IsUnsubscribe m topics msg → ∃ s' reply,
        s.newMessage c msg beyond = .ok (s', [.newMessage c reply]) ∧
          written (MqttUnsuback.new m) = .ok reply := by
  constructor
  · intro ts hts
    refine ⟨_, suback m, hts.newMessage_eq s c beyond, written_suback m, ?_⟩
    constructor
    · rintro ⟨q, hlength, hwritten⟩
      rw [← hlength, (written_suback_iff m q).mp hwritten]
      rfl
    · intro hone
      exact ⟨[0], hone.symm, written_suback m⟩
  · intro topics htopics
    exact ⟨_, unsuback m, htopics.newMessage_eq s c beyond, written_unsuback m⟩

end Newmessage

/-- A SUBSCRIBE to "a" and "b". -/
def subscribeTwo : Span := .ofBytes [0x82, 10, 0, 7, 0, 1, 97, 0, 0, 1, 98, 0]

/-- It is well-formed. -/
lemma isSubscribe_subscribeTwo :
    IsSubscribe 7 [{ topic := [97] }, { topic := [98] }] subscribeTwo :=
  ⟨by decide, by decide, 0x82, [10], by decide, by decide, by decide, by decide, by decide⟩

/-- The answer to it is what a SUBACK with one QoS of 0 is written as. -/
theorem newMessage_acknowledges_two_topics :
    let _ := boostSplit
    ∃ s' reply, (MqttServer.new true : MqttServer ℕ).newMessage 1 subscribeTwo [] =
        .ok (s', [.newMessage 1 reply]) ∧ written (MqttSuback.new 7 [0]) = .ok reply := by
  let _ := boostSplit
  obtain ⟨s', reply, hreply, hwritten, -⟩ :=
    (newMessage_acknowledges (MqttServer.new true : MqttServer ℕ) 1 7 subscribeTwo []).1 _
      isSubscribe_subscribeTwo
  exact ⟨s', reply, hreply, hwritten⟩

/-- It is not what a SUBACK with a QoS for each of the two topics is written as. -/
theorem suback_fails_on_two_topics :
    let _ := boostSplit
    IsSubscribe 7 [{ topic := [97] }, { topic := [98] }] subscribeTwo ∧
      ∃ s' reply, (MqttServer.new true : MqttServer ℕ).newMessage 1 subscribeTwo [] =
          .ok (s', [.newMessage 1 reply]) ∧
        ∀ q, q.length = 2 → written (MqttSuback.new 7 q) ≠ .ok reply := by
  let _ := boostSplit
  refine ⟨isSubscribe_subscribeTwo, _, suback 7,
    isSubscribe_subscribeTwo.newMessage_eq (MqttServer.new true) 1 [], ?_⟩
  intro q hlength hwritten
  rw [(written_suback_iff 7 q).mp hwritten] at hlength
  exact absurd hlength (by decide)

end MqttCpp
