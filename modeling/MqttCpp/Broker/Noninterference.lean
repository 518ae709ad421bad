import MqttCpp.Broker.Recorded

/-!
# Subscribers do not interfere

What others subscribe to and unsubscribe from changes the tree and the cache, but not the leaves
of one subscriber nor their order at any node; and a walk visits these in an order that the topic
alone decides.  So a subscriber is called as if it were the only one.
-/

namespace MqttCpp

section Subscribers

variable {S : Type} [DecidableEq S]

/-! ## The leaves of one subscriber -/

/-- The leaves of one subscriber at the node of a path. -/
def entriesAt (tree : Node S) (subscriber : S) (path : List Str) : List (Subscription S) :=
  (tree.valuesAt path).filter fun e => e.subscriber = subscriber

/-- Unsubscribing filters the leaves of every subscriber. -/
lemma entriesAt_unsubscribeImpl (tree : Node S) (s : S) (topics : List Str) (B : S)
    (path : List Str) :
    entriesAt (unsubscribeImpl tree s topics) B path =
      (entriesAt tree B path).filter fun e => !e.isSubscriber s topics := by
  rw [entriesAt, unsubscribeImpl, PrefixTree.valuesAt_filterValues, entriesAt, List.filter_filter,
    List.filter_filter]
  exact List.filter_congr fun e _ => Bool.and_comm _ _

/-- It leaves those of others. -/
lemma entriesAt_unsubscribeImpl_of_ne {s B : S} (h : s ≠ B) (tree : Node S) (topics : List Str)
    (path : List Str) :
    entriesAt (unsubscribeImpl tree s topics) B path = entriesAt tree B path := by
  rw [entriesAt_unsubscribeImpl, List.filter_eq_self]
  intro e he
  have hB : e.subscriber = B := by simpa using List.of_mem_filter he
  have hne : e.subscriber ≠ s := fun hs => h (hs.symm.trans hB)
  simp [Subscription.isSubscriber, hne]

/-- The calls of one subscriber among the calls that are made for some leaves. -/
lemma filter_map_calls (B : S) (es : List (Subscription S)) (bytes : Bytes) :
    ((es.map fun e => (e.subscriber, bytes)).filter fun call => call.1 = B) =
      (es.filter fun e => e.subscriber = B).map fun e => (e.subscriber, bytes) := by
  rw [List.filter_map]
  rfl

variable [BoostSplit]

/-- Adding a leaf adds it to those of its subscriber at the node of its topic. -/
lemma entriesAt_addLeaf (tree : Node S) (s : S) (topic : Str) (B : S) (path : List Str) :
    entriesAt (MqttBroker.addLeaf s tree topic) B path = entriesAt tree B path ++
      if path = split topic ∧ s = B then [{ subscriber := s, topic := topic }] else [] := by
  rw [entriesAt, MqttBroker.addLeaf, addOrFindNode_eq_alterAt, PrefixTree.valuesAt_alterAt_push,
    entriesAt]
  by_cases hpath : path = split topic
  · rw [if_pos hpath, List.filter_append, ← hpath]
    by_cases hs : s = B
    · simp [hs]
    · simp [hs]
  · simp [hpath]

/-- Adding leaves adds them in their order. -/
lemma entriesAt_foldl_addLeaf (tree : Node S) (s : S) (topics : List Str) (B : S)
    (path : List Str) :
    entriesAt (topics.foldl (MqttBroker.addLeaf s) tree) B path = entriesAt tree B path ++
      topics.flatMap fun topic =>
        if path = split topic ∧ s = B then [{ subscriber := s, topic := topic }] else [] := by
  induction topics generalizing tree with
  | nil => rw [List.foldl_nil, List.flatMap_nil, List.append_nil]
  | cons topic topics ih =>
    rw [List.foldl_cons, ih, entriesAt_addLeaf, List.flatMap_cons, List.append_assoc]

/-- It adds nothing to those of others. -/
lemma entriesAt_foldl_addLeaf_of_ne {s B : S} (h : s ≠ B) (tree : Node S) (topics : List Str)
    (path : List Str) :
    entriesAt (topics.foldl (MqttBroker.addLeaf s) tree) B path = entriesAt tree B path := by
  have hnone : (topics.flatMap fun topic => if path = split topic ∧ s = B then
      [({ subscriber := s, topic := topic } : Subscription S)] else []) = [] := by
    rw [List.flatMap_eq_nil_iff]
    intro topic _
    rw [if_neg fun hboth => h hboth.2]
  rw [entriesAt_foldl_addLeaf, hnone, List.append_nil]

/-- What a walk visits of one subscriber are its leaves along the routes of the topic. -/
lemma filter_visited (b : MqttBroker S) (topic : Str) (B : S) :
    ((b.visited topic).filter fun e => e.subscriber = B) =
      (wildcards.routes (split topic)).flatMap (entriesAt b.tree B) := by
  rw [MqttBroker.visited, Wildcards.collect, List.filter_flatMap]
  rfl

/-! ## Two brokers that seem the same -/

/-- To a subscriber the brokers seem the same: it has the same leaves in both, whatever else is in
their trees. -/
structure SeemsSame (B : S) (b b' : MqttBroker S) : Prop where
  entriesAt_eq : ∀ path, entriesAt b.tree B path = entriesAt b'.tree B path
  cacheSound : b.CacheSound
  cacheSound' : b'.CacheSound

/-- A call concerns a subscriber if it is a call of its own or a call of `publish`. -/
def BrokerCall.concerns (B : S) : BrokerCall S → Bool
  | .subscribe s _ => decide (s = B)
  | .subscribeStrings s _ => decide (s = B)
  | .unsubscribe s => decide (s = B)
  | .unsubscribeTopics s _ => decide (s = B)
  | .publish _ _ => true

namespace SeemsSame

variable {B : S} {b b' : MqttBroker S}

/-- New brokers have no leaves. -/
lemma new (B : S) (useCache useCache' : Bool) :
    SeemsSame B (MqttBroker.new useCache) (MqttBroker.new useCache') where
  entriesAt_eq _ := rfl
  cacheSound := MqttBroker.cacheSound_new useCache
  cacheSound' := MqttBroker.cacheSound_new useCache'

/-- A subscription of anybody is added to both. -/
lemma subscribe (h : SeemsSame B b b') (s : S) (topics : List MqttSubscribe.Topic) :
    SeemsSame B (b.subscribe s topics) (b'.subscribe s topics) where
  entriesAt_eq path := by
    rw [MqttBroker.tree_subscribe, MqttBroker.tree_subscribe, entriesAt_foldl_addLeaf,
      entriesAt_foldl_addLeaf, h.entriesAt_eq]
  cacheSound := h.cacheSound.subscribe s topics
  cacheSound' := h.cacheSound'.subscribe s topics

/-- A subscription of another is not seen. -/
lemma subscribe_of_ne (h : SeemsSame B b b') {s : S} (hs : s ≠ B)
    (topics : List MqttSubscribe.Topic) : SeemsSame B (b.subscribe s topics) b' where
  entriesAt_eq path := by
    rw [MqttBroker.tree_subscribe, entriesAt_foldl_addLeaf_of_ne hs, h.entriesAt_eq]
  cacheSound := h.cacheSound.subscribe s topics
  cacheSound' := h.cacheSound'

/-- Anybody is unsubscribed from both. -/
lemma unsubscribeTopics (h : SeemsSame B b b') (s : S) (topics : List Str) :
    SeemsSame B (b.unsubscribeTopics s topics) (b'.unsubscribeTopics s topics) where
  entriesAt_eq path := by
    rw [MqttBroker.tree_unsubscribeTopics, MqttBroker.tree_unsubscribeTopics,
      entriesAt_unsubscribeImpl, entriesAt_unsubscribeImpl, h.entriesAt_eq]
  cacheSound := h.cacheSound.unsubscribeTopics s topics
  cacheSound' := h.cacheSound'.unsubscribeTopics s topics

/-- That another is unsubscribed is not seen. -/
lemma unsubscribeTopics_of_ne (h : SeemsSame B b b') {s : S} (hs : s ≠ B) (topics : List Str) :
    SeemsSame B (b.unsubscribeTopics s topics) b' where
  entriesAt_eq path := by
    rw [MqttBroker.tree_unsubscribeTopics, entriesAt_unsubscribeImpl_of_ne hs, h.entriesAt_eq]
  cacheSound := h.cacheSound.unsubscribeTopics s topics
  cacheSound' := h.cacheSound'

/-- Publishing changes nothing but the caches. -/
lemma publish (h : SeemsSame B b b') (topic : Str) (bytes : Bytes) :
    SeemsSame B (b.publish topic bytes).1 (b'.publish topic bytes).1 where
  entriesAt_eq path := by
    rw [MqttBroker.tree_publish, MqttBroker.tree_publish, h.entriesAt_eq]
  cacheSound := h.cacheSound.publish topic bytes
  cacheSound' := h.cacheSound'.publish topic bytes

/-- Both brokers visit the same leaves of the subscriber in the same order. -/
lemma filter_visited_eq (h : SeemsSame B b b') (topic : Str) :
    ((b.visited topic).filter fun e => e.subscriber = B) =
      (b'.visited topic).filter fun e => e.subscriber = B := by
  rw [filter_visited, filter_visited]
  exact List.flatMap_congr fun path _ => h.entriesAt_eq path

/-- So both make the same calls to it. -/
lemma filter_calls_publish (h : SeemsSame B b b') (topic : Str) (bytes : Bytes) :
    ((b.publish topic bytes).2.filter fun call => call.1 = B) =
      (b'.publish topic bytes).2.filter fun call => call.1 = B := by
  rw [h.cacheSound.calls_publish, h.cacheSound'.calls_publish, filter_map_calls,
    filter_map_calls, h.filter_visited_eq]

/-- **A call that concerns the subscriber** is seen by it alike in both brokers. -/
theorem call (h : SeemsSame B b b') (c : BrokerCall S) :
    SeemsSame B (b.call c).1 (b'.call c).1 ∧
      ((b.call c).2.filter fun call => call.1 = B) =
        (b'.call c).2.filter fun call => call.1 = B := by
  cases c with
  | subscribe s topics => exact ⟨h.subscribe s topics, rfl⟩
  | subscribeStrings s topics => exact ⟨h.subscribe s _, rfl⟩
  | unsubscribe s => exact ⟨h.unsubscribeTopics s [], rfl⟩
  | unsubscribeTopics s topics => exact ⟨h.unsubscribeTopics s topics, rfl⟩
  | publish topic bytes => exact ⟨h.publish topic bytes, h.filter_calls_publish topic bytes⟩

/-- **A call that does not** is not seen by it. -/
theorem call_of_not_concerns (h : SeemsSame B b b') {c : BrokerCall S}
    (hc : c.concerns B = false) :
    SeemsSame B (b.call c).1 b' ∧ ((b.call c).2.filter fun call => call.1 = B) = [] := by
  cases c with
  | subscribe s topics => exact ⟨h.subscribe_of_ne (of_decide_eq_false hc) topics, rfl⟩
  | subscribeStrings s topics => exact ⟨h.subscribe_of_ne (of_decide_eq_false hc) _, rfl⟩
  | unsubscribe s => exact ⟨h.unsubscribeTopics_of_ne (of_decide_eq_false hc) [], rfl⟩
  | unsubscribeTopics s topics =>
    exact ⟨h.unsubscribeTopics_of_ne (of_decide_eq_false hc) topics, rfl⟩
  | publish topic bytes => cases hc

end SeemsSame

/-! ## Runs -/

/-- What a subscriber receives in a run: the byte strings that its `newMessage` is called with. -/
def receives (B : S) (useCache : Bool) (calls : List (BrokerCall S)) : List Bytes :=
  (((brokerMachine S).run (MqttBroker.new useCache) calls).2.filter fun call =>
    call.1 = B).map Prod.snd

/-- A subscriber receives what it receives if nobody else calls. -/
lemma receives_eq_receives_filter (B : S) (useCache useCache' : Bool)
    (calls : List (BrokerCall S)) :
    receives B useCache calls = receives B useCache' (calls.filter (BrokerCall.concerns B)) := by
  have hsame : ∀ (b b' : MqttBroker S) (c : BrokerCall S), SeemsSame B b b' →
      c.concerns B = true → SeemsSame B (b.call c).1 (b'.call c).1 ∧
        ((b.call c).2.filter fun call => call.1 = B) =
          (b'.call c).2.filter fun call => call.1 = B := fun b b' c h _ => h.call c
  have hother : ∀ (b b' : MqttBroker S) (c : BrokerCall S), SeemsSame B b b' →
      c.concerns B = false → SeemsSame B (b.call c).1 b' ∧
        ((b.call c).2.filter fun call => call.1 = B) = [] :=
    fun b b' c h hc => h.call_of_not_concerns hc
  exact congrArg (List.map Prod.snd) (Machine.observed_run_eq (M := brokerMachine S) hsame hother
    (SeemsSame.new B useCache useCache') calls)

/-- **Subscribers do not interfere.**  In two runs of a broker, each with or without a cache, that
contain the same calls of a subscriber and the same calls of `publish` in the same order, the
subscriber receives the same byte strings in the same order, whatever others subscribe to and
unsubscribe from in between. -/
theorem receives_eq_of_concerns_eq (B : S) (useCache useCache' : Bool)
    (calls calls' : List (BrokerCall S))
    (h : calls.filter (BrokerCall.concerns B) = calls'.filter (BrokerCall.concerns B)) :
    receives B useCache calls = receives B useCache' calls' := by
  rw [receives_eq_receives_filter B useCache useCache calls, h,
    ← receives_eq_receives_filter B useCache' useCache calls']

end Subscribers

/-- Another subscriber comes to the same node first, and another goes. -/
theorem receives_eq_two_runs :
    let _ := boostSplit
    receives 1 true [.subscribeStrings 2 [[97], [35]], .subscribeStrings 1 [[97]],
        .publish [97] [7], .unsubscribe 2, .publish [97] [8]] =
      receives 1 false [.subscribeStrings 1 [[97]], .publish [97] [7],
        .unsubscribeTopics 3 [[97]], .publish [97] [8]] := by
  let _ := boostSplit
  exact receives_eq_of_concerns_eq 1 true false _ _ rfl

end MqttCpp
