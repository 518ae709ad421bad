import MqttCpp.Broker.Cache

/-!
# Whom the broker points to

The broker keeps pointers to its subscribers in two places: at the leaves of its tree and in the
lists of its cache.  Whatever it calls, it calls through one of them.  A subscriber comes into the
tree by `subscribe` only, and into the cache only from the tree.
-/

namespace MqttCpp

namespace MqttBroker

variable {S : Type}

/-- Some leaf of the tree points to the subscriber. -/
def InTree (b : MqttBroker S) (s : S) : Prop := ∃ e ∈ b.tree.allValues, e.subscriber = s

/-- Some list of the cache points to the subscriber. -/
def InCache (b : MqttBroker S) (s : S) : Prop :=
  ∃ topic subscribers, b.cache.lookup topic = some subscribers ∧ s ∈ subscribers

/-- A new broker points to nobody. -/
lemma not_inTree_new (useCache : Bool) (s : S) : ¬(new useCache).InTree s := by
  rintro ⟨e, he, -⟩
  cases he

/-- A leaf stands at the end of some path. -/
lemma inTree_iff (b : MqttBroker S) (s : S) :
    b.InTree s ↔ ∃ path, ∃ e ∈ b.tree.valuesAt path, e.subscriber = s := by
  constructor
  · rintro ⟨e, he, hs⟩
    obtain ⟨path, hpath⟩ := (PrefixTree.mem_allValues_iff b.tree_distinct).mp he
    exact ⟨path, e, hpath, hs⟩
  · rintro ⟨path, e, he, hs⟩
    exact ⟨e, PrefixTree.mem_allValues_of_mem_valuesAt he, hs⟩

/-- A removed entry is gone; no other one is touched. -/
lemma inTree_of_inTree_unsubscribeTopics [DecidableEq S] {b : MqttBroker S} {s x : S}
    {topics : List Str} (h : (b.unsubscribeTopics s topics).InTree x) : b.InTree x := by
  rw [inTree_iff] at h ⊢
  obtain ⟨path, e, he, hx⟩ := h
  rw [tree_unsubscribeTopics, unsubscribeImpl, PrefixTree.valuesAt_filterValues] at he
  exact ⟨path, e, List.mem_of_mem_filter he, hx⟩

variable [BoostSplit]

/-- The leaves after adding some are the old ones, and new ones of the subscriber. -/
lemma mem_valuesAt_foldl_addLeaf {tree : Node S} {s : S} {topics : List Str} {path : List Str}
    {e : Subscription S} (h : e ∈ (topics.foldl (addLeaf s) tree).valuesAt path) :
    e ∈ tree.valuesAt path ∨ e.subscriber = s := by
  induction topics generalizing tree with
  | nil => exact Or.inl h
  | cons topic topics ih =>
    rcases ih h with hleaf | hs
    · rw [addLeaf, addOrFindNode_eq_alterAt, PrefixTree.valuesAt_alterAt_push] at hleaf
      by_cases hpath : path = split topic
      · rw [if_pos hpath, List.mem_append, List.mem_singleton] at hleaf
        rcases hleaf with hold | rfl
        · exact Or.inl (hpath ▸ hold)
        · exact Or.inr rfl
      · rw [if_neg hpath] at hleaf
        exact Or.inl hleaf
    · exact Or.inr hs

/-- `subscribe` adds nobody but the subscriber. -/
lemma inTree_of_inTree_subscribe {b : MqttBroker S} {s x : S}
    {topics : List MqttSubscribe.Topic} (h : (b.subscribe s topics).InTree x) :
    b.InTree x ∨ x = s := by
  rw [inTree_iff] at h ⊢
  obtain ⟨path, e, he, rfl⟩ := h
  rw [tree_subscribe] at he
  rcases mem_valuesAt_foldl_addLeaf he with hold | hs
  · exact Or.inl ⟨path, e, hold, rfl⟩
  · exact Or.inr hs

/-- Adding leaves removes none. -/
lemma mem_valuesAt_foldl_addLeaf_of_mem {tree : Node S} (s : S) (topics : List Str)
    {path : List Str} {e : Subscription S} (h : e ∈ tree.valuesAt path) :
    e ∈ (topics.foldl (addLeaf s) tree).valuesAt path := by
  induction topics generalizing tree with
  | nil => exact h
  | cons topic topics ih =>
    apply ih
    rw [addLeaf, addOrFindNode_eq_alterAt, PrefixTree.valuesAt_alterAt_push]
    split
    · rename_i hpath
      exact List.mem_append_left _ (hpath ▸ h)
    · exact h

/-- Who subscribes to anything is in the tree. -/
lemma inTree_subscribe_self (b : MqttBroker S) (s : S) (topic : MqttSubscribe.Topic)
    (topics : List MqttSubscribe.Topic) : (b.subscribe s (topic :: topics)).InTree s := by
  rw [inTree_iff]
  refine ⟨split topic.topic, { subscriber := s, topic := topic.topic }, ?_, rfl⟩
  rw [tree_subscribe, List.map_cons, List.foldl_cons]
  apply mem_valuesAt_foldl_addLeaf_of_mem
  rw [addLeaf, addOrFindNode_eq_alterAt, PrefixTree.valuesAt_alterAt_push, if_pos rfl]
  exact List.mem_append_right _ List.mem_cons_self

/-- Whom a walk visits is in the tree. -/
lemma inTree_of_mem_visited {b : MqttBroker S} {topic : Str} {e : Subscription S}
    (h : e ∈ b.visited topic) : b.InTree e.subscriber := by
  obtain ⟨path, -, hpath⟩ := List.mem_flatMap.mp h
  exact (b.inTree_iff e.subscriber).mpr ⟨path, e, hpath, rfl⟩

/-! ## The cache -/

/-- The cache of a broker is current, and empty if it is not used. -/
structure CacheSound (b : MqttBroker S) : Prop where
  current : CacheCurrent b
  empty : b.useCache = false → b.cache = ∅

/-- An empty cache is sound. -/
lemma cacheSound_of_cache_eq_empty {b : MqttBroker S} (h : b.cache = ∅) : b.CacheSound where
  current := cacheCurrent_of_cache_eq_empty h
  empty _ := h

/-- A new broker has a sound cache. -/
lemma cacheSound_new (useCache : Bool) : (new useCache : MqttBroker S).CacheSound :=
  cacheSound_of_cache_eq_empty rfl

namespace CacheSound

variable {b : MqttBroker S}

/-- Invalidating leaves nothing, whether there is a cache or not. -/
lemma cache_invalidateCache_eq (h : b.CacheSound) : b.invalidateCache.cache = ∅ := by
  cases hcache : b.useCache with
  | true => exact cache_invalidateCache hcache
  | false =>
    have hoff : ¬b.useCache = true := by simp [hcache]
    rw [invalidateCache, if_neg hoff]
    exact h.empty hcache

/-- Whom the cache points to is in the tree as well. -/
lemma inTree_of_inCache (h : b.CacheSound) {s : S} (hs : b.InCache s) : b.InTree s := by
  obtain ⟨topic, subscribers, hlookup, hmem⟩ := hs
  rw [h.current topic subscribers hlookup] at hmem
  obtain ⟨e, he, rfl⟩ := List.mem_map.mp hmem
  exact inTree_of_mem_visited he

/-- Publishing calls what a walk of the tree visits. -/
lemma calls_publish (h : b.CacheSound) (topic : Str) (bytes : Bytes) :
    (b.publish topic bytes).2 = (b.visited topic).map fun e => (e.subscriber, bytes) :=
  h.current.calls_publish topic bytes

lemma subscribe (h : b.CacheSound) (s : S) (topics : List MqttSubscribe.Topic) :
    (b.subscribe s topics).CacheSound :=
  cacheSound_of_cache_eq_empty h.cache_invalidateCache_eq

lemma unsubscribeTopics [DecidableEq S] (h : b.CacheSound) (s : S) (topics : List Str) :
    (b.unsubscribeTopics s topics).CacheSound :=
  cacheSound_of_cache_eq_empty h.cache_invalidateCache_eq

lemma publish (h : b.CacheSound) (topic : Str) (bytes : Bytes) :
    (b.publish topic bytes).1.CacheSound := by
  cases hcache : b.useCache with
  | true =>
    refine ⟨h.current.publish hcache topic bytes, fun hoff => ?_⟩
    rw [useCache_publish, hcache] at hoff
    cases hoff
  | false => rwa [publish_of_useCache_eq_false hcache]

end CacheSound

end MqttBroker

end MqttCpp
