import MqttCpp.Broker.Recorded
import MqttCpp.Server.Decoding

/-!
# What an UNSUBSCRIBE removes

`unsubscribeImpl` filters the leaves of every node, so what it keeps stays in its order.  With a
list of topics it removes the leaves of the subscriber for these.  But the empty list is also how
`unsubscribe` says that everything is to go, and an UNSUBSCRIBE without topics decodes to it.
-/

namespace MqttCpp

section Listed

variable {S : Type} [DecidableEq S]

/-- At every node the leaves after are those before, in their order, without those of the
subscriber for the listed topics. -/
def RemovesListed (before after : Node S) (subscriber : S) (topics : List Str) : Prop :=
  ∀ path, after.valuesAt path = (before.valuesAt path).filter fun e =>
    ¬(e.subscriber = subscriber ∧ e.topic ∈ topics)

/-- With a list of topics, the leaves of the subscriber for these count as its own. -/
lemma Subscription.isSubscriber_of_ne_nil {topics : List Str} (h : topics ≠ [])
    (e : Subscription S) (s : S) :
    e.isSubscriber s topics = decide (e.subscriber = s ∧ e.topic ∈ topics) := by
  unfold isSubscriber
  simp [h, and_comm]

/-- Without one, all of them do. -/
lemma Subscription.isSubscriber_nil (e : Subscription S) (s : S) :
    e.isSubscriber s [] = decide (e.subscriber = s) := by
  unfold isSubscriber
  simp

namespace MqttBroker

/-- A list of topics removes what it lists. -/
lemma removesListed_of_ne_nil (b : MqttBroker S) (s : S) {topics : List Str} (h : topics ≠ []) :
    RemovesListed b.tree (b.unsubscribeTopics s topics).tree s topics := by
  intro path
  rw [tree_unsubscribeTopics, unsubscribeImpl, PrefixTree.valuesAt_filterValues]
  apply List.filter_congr
  intro e _
  simp [Subscription.isSubscriber_of_ne_nil h]

/-- The empty list removes all the leaves of the subscriber. -/
lemma removesListed_nil_iff (b : MqttBroker S) (s : S) :
    RemovesListed b.tree (b.unsubscribeTopics s []).tree s [] ↔ ¬b.InTree s := by
  have hvalues : ∀ path, (b.unsubscribeTopics s []).tree.valuesAt path =
      (b.tree.valuesAt path).filter fun e => e.subscriber ≠ s := by
    intro path
    rw [tree_unsubscribeTopics, unsubscribeImpl, PrefixTree.valuesAt_filterValues]
    simp [Subscription.isSubscriber_nil]
  have hall : ∀ path, ((b.tree.valuesAt path).filter fun e =>
      ¬(e.subscriber = s ∧ e.topic ∈ ([] : List Str))) = b.tree.valuesAt path := by
    intro path
    simp
  unfold RemovesListed
  rw [inTree_iff]
  constructor
  · rintro hremoves ⟨path, e, he, hs⟩
    have hkept := hremoves path
    rw [hvalues, hall, List.filter_eq_self] at hkept
    simpa [hs] using hkept e he
  · intro hnone path
    rw [hvalues, hall, List.filter_eq_self]
    intro e he
    simpa using fun hs : e.subscriber = s => hnone ⟨path, e, he, hs⟩

/-- **Unsubscribing removes exactly what is listed** if something is listed or the subscriber has
no leaf. -/
theorem removesListed_iff (b : MqttBroker S) (s : S) (topics : List Str) :
    RemovesListed b.tree (b.unsubscribeTopics s topics).tree s topics ↔
      topics ≠ [] ∨ ¬b.InTree s := by
  rcases eq_or_ne topics [] with rfl | h
  · rw [removesListed_nil_iff]
    simp
  · simp [h, b.removesListed_of_ne_nil s h]

end MqttBroker

/-! ## The message -/

variable [BoostSplit]

/-- What the server does with an UNSUBSCRIBE that it decodes. -/
lemma MqttServer.newMessage_of_unsubscribe (s : MqttServer S) (c : S) {msg : Span} {beyond : Bytes}
    {u : MqttUnsubscribe} {d : Decerealiser} (htype : getMessageType msg = .ok .unsubscribe)
    (hdecode : decode createUnsubscribe (.new msg.bytes beyond) = .ok (u, d)) :
    s.newMessage c msg beyond =
      .ok ({ broker := s.broker.unsubscribeTopics c u.topics },
        [.newMessage c (unsuback u.msgId)]) := by
  rw [s.newMessage_eq, readRequest_eq_of_unsubscribe htype, hdecode]
  rfl

/-- **An UNSUBSCRIBE removes exactly what it lists**, in every state of the server, if and only if
it lists something or the connection has no subscription. -/
theorem newMessage_unsubscribe_iff (s : MqttServer S) (c : S) {msg : Span} {beyond : Bytes}
    {u : MqttUnsubscribe} {d : Decerealiser} (htype : getMessageType msg = .ok .unsubscribe)
    (hdecode : decode createUnsubscribe (.new msg.bytes beyond) = .ok (u, d)) :
    ∃ s' effects, s.newMessage c msg beyond = .ok (s', effects) ∧
      (RemovesListed s.broker.tree s'.broker.tree c u.topics ↔
        u.topics ≠ [] ∨ ¬s.broker.InTree c) :=
  ⟨_, _, s.newMessage_of_unsubscribe c htype hdecode, s.broker.removesListed_iff c u.topics⟩

end Listed

/-- A server with the subscriptions of connection 0 to "a" and of connection 1 to "b". -/
def twoSubscriptions [BoostSplit] : MqttServer ℕ :=
  ((serverMachine ℕ).run (.new false) [(0, .subscribe 1 [{ topic := [97], qos := 0 }]),
    (1, .subscribe 1 [{ topic := [98], qos := 0 }])]).1

/-- Connection 0 unsubscribes from "a". -/
theorem newMessage_unsubscribe_iff_a :
    let _ := boostSplit
    ∃ s' effects,
      twoSubscriptions.newMessage 0 (.ofBytes [0xa2, 5, 0, 1, 0, 1, 97]) [] = .ok (s', effects) ∧
        RemovesListed twoSubscriptions.broker.tree s'.broker.tree 0 [[97]] := by
  let _ := boostSplit
  have hdecode : ∃ d, decode createUnsubscribe (.new [0xa2, 5, 0, 1, 0, 1, 97] []) =
      .ok (⟨.ofFlags 0xa2 5, 1, [[97]]⟩, d) ∧ d.pos = 7 :=
    decode_listMessage_eq_ok (parses_grainString []) length_encodeString_pos
      (by decide : MqttFixedHeader.IsDigits [5]) 1 (by decide) (by decide) (by decide) []
  have htype : getMessageType (.ofBytes [0xa2, 5, 0, 1, 0, 1, 97]) = .ok .unsubscribe := by decide
  obtain ⟨d, hdecode, -⟩ := hdecode
  obtain ⟨s', effects, hnew, hremoves⟩ :=
    newMessage_unsubscribe_iff twoSubscriptions 0 htype hdecode
  exact ⟨s', effects, hnew, hremoves.mpr (Or.inl (List.cons_ne_nil _ _))⟩

/-- Connection 0 sends an UNSUBSCRIBE without topics and loses its subscription. -/
theorem not_removesListed_without_topics :
    let _ := boostSplit
    ∃ s' effects,
      twoSubscriptions.newMessage 0 (.ofBytes [0xa2, 2, 0, 1]) [] = .ok (s', effects) ∧
        ¬RemovesListed twoSubscriptions.broker.tree s'.broker.tree 0 [] := by
  let _ := boostSplit
  have hrequest : readRequest (.ofBytes [0xa2, 2, 0, 1]) [] = .ok (.unsubscribe 1 []) := by
    decide +kernel
  refine ⟨{ broker := twoSubscriptions.broker.unsubscribeTopics 0 [] },
    [.newMessage 0 (unsuback 1)], ?_, ?_⟩
  · rw [MqttServer.newMessage_eq, hrequest]
    rfl
  · rw [MqttBroker.removesListed_nil_iff]
    simp only [not_not]
    refine ⟨{ subscriber := 0, topic := [97] }, ?_, rfl⟩
    decide +kernel

end MqttCpp
