import MqttCpp.Broker.FlatSpec

/-!
# The cache is invisible

A broker with a cache simulates one without: both have the same tree, and every list the cache
remembers is the list of subscribers that a walk of the current tree would call
(`CacheCurrent`).  Whatever changes the tree forgets the whole cache, and publishing adds to the
cache only what the walk has just called.
-/

namespace MqttCpp

variable {S : Type} [BoostSplit]

/-- Every remembered list is what a walk of the tree calls now. -/
def CacheCurrent (b : MqttBroker S) : Prop :=
  ∀ topic subscribers, b.cache.lookup topic = some subscribers →
    subscribers = (b.visited topic).map (·.subscriber)

/-- A broker that remembers nothing has a current cache. -/
lemma cacheCurrent_of_cache_eq_empty {b : MqttBroker S} (h : b.cache = ∅) : CacheCurrent b := by
  intro topic subscribers hlookup
  rw [h, AList.lookup_empty] at hlookup
  cases hlookup

/-- A remembered topic calls the subscribers that the walk would call. -/
lemma CacheCurrent.publish_of_mem {b : MqttBroker S} (h : CacheCurrent b) {topic : Str}
    (hmem : b.useCache = true ∧ topic ∈ b.cache) (bytes : Bytes) :
    b.publish topic bytes = (b, (b.visited topic).map fun e => (e.subscriber, bytes)) := by
  obtain ⟨subscribers, hlookup⟩ := Option.isSome_iff_exists.mp
    (AList.lookup_isSome.mpr hmem.2)
  rw [MqttBroker.publish, if_pos hmem, hlookup, Option.getD_some, h topic subscribers hlookup,
    List.map_map]
  rfl

/-- With or without a remembered list, publishing calls what the walk would call. -/
lemma CacheCurrent.calls_publish {b : MqttBroker S} (h : CacheCurrent b) (topic : Str)
    (bytes : Bytes) :
    (b.publish topic bytes).2 = (b.visited topic).map fun e => (e.subscriber, bytes) := by
  by_cases hmem : b.useCache = true ∧ topic ∈ b.cache
  · rw [h.publish_of_mem hmem]
  · rw [MqttBroker.publish_of_notMem_cache hmem]

/-- Publishing keeps the cache current: it adds what the walk has called. -/
lemma CacheCurrent.publish {b : MqttBroker S} (h : CacheCurrent b) (hcache : b.useCache = true)
    (topic : Str) (bytes : Bytes) : CacheCurrent (b.publish topic bytes).1 := by
  by_cases hmem : b.useCache = true ∧ topic ∈ b.cache
  · rwa [h.publish_of_mem hmem]
  · have hnone : b.cache.lookup topic = none :=
      AList.lookup_eq_none.mpr fun hin => hmem ⟨hcache, hin⟩
    rw [MqttBroker.publish_of_notMem_cache hmem, if_pos hcache]
    intro topic' subscribers hlookup
    rcases eq_or_ne topic' topic with rfl | htopic
    · -- the list that has just been built up
      have hadded := lookup_foldl_rememberOne topic' b.cache
        ((b.visited topic').map (·.subscriber))
      rw [hlookup, hnone] at hadded
      exact hadded
    · rw [lookup_foldl_rememberOne_of_ne htopic] at hlookup
      exact h topic' subscribers hlookup

/-! ## The simulation -/

/-- The two brokers have the same tree, and the cache of the first is current. -/
structure SameButCache (cached uncached : MqttBroker S) : Prop where
  useCache_cached : cached.useCache = true
  useCache_uncached : uncached.useCache = false
  tree_eq : cached.tree = uncached.tree
  current : CacheCurrent cached

/-- Two new brokers are the same but for the cache. -/
lemma sameButCache_new :
    SameButCache (MqttBroker.new true : MqttBroker S) (MqttBroker.new false) where
  useCache_cached := rfl
  useCache_uncached := rfl
  tree_eq := rfl
  current := cacheCurrent_of_cache_eq_empty rfl

namespace SameButCache

variable {b b' : MqttBroker S}

/-- A published topic is walked to the same subscriptions. -/
lemma visited_eq (h : SameButCache b b') (topic : Str) : b.visited topic = b'.visited topic := by
  rw [MqttBroker.visited, MqttBroker.visited, h.tree_eq]

/-- `subscribe` grows both trees alike and forgets the cache. -/
lemma subscribe (h : SameButCache b b') (s : S) (topics : List MqttSubscribe.Topic) :
    SameButCache (b.subscribe s topics) (b'.subscribe s topics) where
  useCache_cached := b.useCache_invalidateCache.trans h.useCache_cached
  useCache_uncached := b'.useCache_invalidateCache.trans h.useCache_uncached
  tree_eq := by rw [MqttBroker.tree_subscribe, MqttBroker.tree_subscribe, h.tree_eq]
  current := cacheCurrent_of_cache_eq_empty (MqttBroker.cache_invalidateCache h.useCache_cached)

/-- `unsubscribe` prunes both trees alike and forgets the cache. -/
lemma unsubscribeTopics [DecidableEq S] (h : SameButCache b b') (s : S) (topics : List Str) :
    SameButCache (b.unsubscribeTopics s topics) (b'.unsubscribeTopics s topics) where
  useCache_cached := b.useCache_invalidateCache.trans h.useCache_cached
  useCache_uncached := b'.useCache_invalidateCache.trans h.useCache_uncached
  tree_eq := by
    rw [MqttBroker.tree_unsubscribeTopics, MqttBroker.tree_unsubscribeTopics, h.tree_eq]
  current := cacheCurrent_of_cache_eq_empty (MqttBroker.cache_invalidateCache h.useCache_cached)

/-- `publish` leaves both trees and keeps the cache current. -/
lemma publish (h : SameButCache b b') (topic : Str) (bytes : Bytes) :
    SameButCache (b.publish topic bytes).1 (b'.publish topic bytes).1 where
  useCache_cached := (b.useCache_publish topic bytes).trans h.useCache_cached
  useCache_uncached := (b'.useCache_publish topic bytes).trans h.useCache_uncached
  tree_eq := by rw [MqttBroker.tree_publish, MqttBroker.tree_publish, h.tree_eq]
  current := h.current.publish h.useCache_cached topic bytes

/-- Both brokers make the same calls for a published topic. -/
lemma calls_publish (h : SameButCache b b') (topic : Str) (bytes : Bytes) :
    (b.publish topic bytes).2 = (b'.publish topic bytes).2 := by
  rw [h.current.calls_publish, MqttBroker.publish_of_useCache_eq_false h.useCache_uncached,
    h.visited_eq]

end SameButCache

variable [DecidableEq S]

/-- **A call keeps the brokers the same but for the cache**, and they make the same calls. -/
theorem brokerMachine_simulates :
    (brokerMachine S).Simulates (brokerMachine S) SameButCache := by
  intro b b' c h
  cases c with
  | subscribe s topics => exact ⟨h.subscribe s topics, rfl⟩
  | subscribeStrings s topics => exact ⟨h.subscribe s _, rfl⟩
  | unsubscribe s => exact ⟨h.unsubscribeTopics s [], rfl⟩
  | unsubscribeTopics s topics => exact ⟨h.unsubscribeTopics s topics, rfl⟩
  | publish topic bytes => exact ⟨h.publish topic bytes, h.calls_publish topic bytes⟩

/-- **The cache is invisible.**  With and without it, any calls of the public functions make the
broker call `newMessage` of the same subscribers, in the same order, with the same bytes. -/
theorem calls_with_cache_eq_without (calls : List (BrokerCall S)) :
    ((brokerMachine S).run (MqttBroker.new true) calls).2 =
      ((brokerMachine S).run (MqttBroker.new false) calls).2 := by
  obtain ⟨-, hcalls⟩ := Machine.run_simulation brokerMachine_simulates sameButCache_new calls
  exact hcalls

end MqttCpp
