import MqttCpp.Broker.Observation
import Mathlib.Data.List.Induction

/-!
# What the cache holds

A call of `subscribe` or `unsubscribe` forgets the whole cache, even if it changes nothing; after
that every published topic whose walk calls somebody is remembered, and no other.  A topic that
reaches nobody is never found in the cache: it is walked again each time it is published.
-/

namespace MqttCpp

variable {S : Type}

/-- What a call does to the list of the topics that have been published since the last other
call. -/
def publishedStep (topics : List Str) : BrokerCall S → List Str
  | .publish topic _ => topics ++ [topic]
  | _ => []

/-- The topics that have been published since the last call of `subscribe` or `unsubscribe`. -/
def publishedSince (calls : List (BrokerCall S)) : List Str := calls.foldl publishedStep []

/-- Remembering some subscribers for a topic puts it into the cache. -/
lemma lookup_foldl_rememberOne_of_ne_nil (topic : Str) (cache : AList fun _ : Str => List S)
    {subscribers : List S} (h : subscribers ≠ []) :
    (subscribers.foldl (rememberOne topic) cache).lookup topic =
      some ((cache.lookup topic).getD [] ++ subscribers) := by
  have hsplit := List.dropLast_append_getLast h
  rw [← hsplit, List.foldl_append, List.foldl_cons, List.foldl_nil, rememberOne,
    AList.lookup_insert, lookup_foldl_rememberOne, List.append_assoc]

variable [BoostSplit]

/-- The cache remembers the subscribers that the walk visits for each of the topics, if it visits
any, and nothing else. -/
def CacheHolds (b : MqttBroker S) (topics : List Str) : Prop :=
  ∀ topic subscribers, b.cache.lookup topic = some subscribers ↔
    b.useCache = true ∧ topic ∈ topics ∧ b.visited topic ≠ [] ∧
      subscribers = (b.visited topic).map (·.subscriber)

/-- A broker that has forgotten everything holds nothing. -/
lemma cacheHolds_of_cache_eq_empty {b : MqttBroker S} (h : b.cache = ∅) : CacheHolds b [] := by
  intro topic subscribers
  rw [h, AList.lookup_empty]
  simp

/-- Of a topic that is not in the cache, publishing remembers whom the walk visits. -/
lemma lookup_cache_publish_self {b : MqttBroker S} (hcache : b.useCache = true) {topic : Str}
    (hmiss : topic ∉ b.cache) (bytes : Bytes) (subscribers : List S) :
    (b.publish topic bytes).1.cache.lookup topic = some subscribers ↔
      b.visited topic ≠ [] ∧ subscribers = (b.visited topic).map (·.subscriber) := by
  have hnone : b.cache.lookup topic = none := AList.lookup_eq_none.mpr hmiss
  rw [MqttBroker.publish_of_notMem_cache fun h => hmiss h.2, if_pos hcache]
  change AList.lookup topic (((b.visited topic).map (·.subscriber)).foldl (rememberOne topic)
    b.cache) = _ ↔ _
  rcases eq_or_ne (b.visited topic) [] with hvisited | hvisited
  · rw [hvisited, List.map_nil, List.foldl_nil, hnone]
    simp
  · have hne : (b.visited topic).map (·.subscriber) ≠ [] := by simpa using hvisited
    rw [lookup_foldl_rememberOne_of_ne_nil topic b.cache hne, hnone, Option.getD_none,
      List.nil_append, Option.some_inj]
    simp [hvisited, eq_comm]

/-- Publishing a topic does not touch what is remembered of another. -/
lemma lookup_cache_publish_of_ne {b : MqttBroker S} {topic topic' : Str} (hne : topic' ≠ topic)
    (bytes : Bytes) :
    (b.publish topic bytes).1.cache.lookup topic' = b.cache.lookup topic' := by
  by_cases h : b.useCache = true ∧ topic ∈ b.cache
  · rw [MqttBroker.publish, if_pos h]
  · rw [MqttBroker.publish_of_notMem_cache h]
    by_cases hcache : b.useCache = true
    · rw [if_pos hcache]
      exact lookup_foldl_rememberOne_of_ne hne _ _
    · rw [if_neg hcache]

/-- Publishing walks the same tree. -/
lemma visited_publish (b : MqttBroker S) (topic topic' : Str) (bytes : Bytes) :
    (b.publish topic bytes).1.visited topic' = b.visited topic' := by
  rw [MqttBroker.visited, MqttBroker.visited, MqttBroker.tree_publish]

namespace CacheHolds

variable {b : MqttBroker S} {topics : List Str}

/-- A topic that is in the cache has been published. -/
lemma mem_of_mem_cache (h : CacheHolds b topics) {topic : Str} (hmem : topic ∈ b.cache) :
    topic ∈ topics := by
  obtain ⟨subscribers, hlookup⟩ := Option.isSome_iff_exists.mp (AList.lookup_isSome.mpr hmem)
  exact ((h topic subscribers).mp hlookup).2.1

/-- Publishing remembers its own topic, if it has not been remembered before. -/
lemma publish (h : CacheHolds b topics) (topic : Str) (bytes : Bytes) :
    CacheHolds (b.publish topic bytes).1 (topics ++ [topic]) := by
  intro topic' subscribers
  rw [visited_publish, MqttBroker.useCache_publish]
  rcases eq_or_ne topic' topic with rfl | hne
  · by_cases hcache : b.useCache = true
    · by_cases hmem : topic' ∈ b.cache
      · -- published before: the cache is left as it is
        rw [MqttBroker.publish, if_pos ⟨hcache, hmem⟩, h topic' subscribers]
        simp [h.mem_of_mem_cache hmem]
      · rw [lookup_cache_publish_self hcache hmem]
        simp [hcache]
    · have hoff : b.useCache = false := by simpa using hcache
      rw [MqttBroker.publish_of_useCache_eq_false hoff, h topic' subscribers]
      simp [hcache]
  · rw [lookup_cache_publish_of_ne hne, h topic' subscribers]
    simp [hne]

variable [DecidableEq S]

/-- **Every call leaves in the cache what has been published since the last change.** -/
theorem call (h : CacheHolds b topics) (hsound : b.CacheSound) (c : BrokerCall S) :
    CacheHolds (b.call c).1 (publishedStep topics c) := by
  cases c with
  | subscribe s ts => exact cacheHolds_of_cache_eq_empty hsound.cache_invalidateCache_eq
  | subscribeStrings s ts => exact cacheHolds_of_cache_eq_empty hsound.cache_invalidateCache_eq
  | unsubscribe s => exact cacheHolds_of_cache_eq_empty hsound.cache_invalidateCache_eq
  | unsubscribeTopics s ts => exact cacheHolds_of_cache_eq_empty hsound.cache_invalidateCache_eq
  | publish topic bytes => exact h.publish topic bytes

end CacheHolds

variable [DecidableEq S]

/-- After any calls the cache holds what has been published since the last change. -/
lemma cacheHolds_afterCalls (useCache : Bool) (calls : List (BrokerCall S)) :
    CacheHolds (afterCalls useCache calls) (publishedSince calls) := by
  induction calls using List.reverseRecOn with
  | nil => exact cacheHolds_of_cache_eq_empty rfl
  | append_singleton calls c ih =>
    have hstep := ih.call (cacheSound_afterCalls useCache calls) c
    rw [afterCalls, Machine.run_append, publishedSince, List.foldl_append]
    exact hstep

/-- **What the cache holds.**  After any calls a topic is in the cache if and only if there is a
cache, the topic has been published since the last call of `subscribe` or `unsubscribe`, and its
walk reaches a live entry.  Remembered are then the subscribers of the live entries, each as often
as the walk meets its filter. -/
theorem mem_cache_afterCalls_iff (useCache : Bool) (calls : List (BrokerCall S)) (topic : Str) :
    (topic ∈ (afterCalls useCache calls).cache ↔
      useCache = true ∧ topic ∈ publishedSince calls ∧
        ∃ e ∈ liveEntries calls, wildcards.Reaches e.levels (split topic) = true) ∧
    ∀ subscribers, (afterCalls useCache calls).cache.lookup topic = some subscribers →
      subscribers.Perm ((liveEntries calls).flatMap fun e =>
        List.replicate (wildcards.arrivals e.levels (split topic)) e.subscriber) := by
  have hholds := cacheHolds_afterCalls useCache calls
  have hrefines := refines_afterCalls useCache calls
  have huse : (afterCalls useCache calls).useCache = useCache := useCache_run useCache calls
  have hvisited : (afterCalls useCache calls).visited topic ≠ [] ↔
      ∃ e ∈ liveEntries calls, wildcards.Reaches e.levels (split topic) = true := by
    have hmem : ∀ e, e ∈ (afterCalls useCache calls).visited topic ↔ _ :=
      fun e => Wildcards.Stores.mem_collect_iff wildcards hrefines
    constructor
    · intro hne
      obtain ⟨e, he⟩ := List.exists_mem_of_ne_nil _ hne
      exact ⟨e, (hmem e).mp he⟩
    · rintro ⟨e, he⟩
      exact List.ne_nil_of_mem ((hmem e).mpr he)
  constructor
  · rw [← hvisited, ← AList.lookup_isSome, Option.isSome_iff_exists]
    constructor
    · rintro ⟨subscribers, hlookup⟩
      obtain ⟨hcache, htopic, hne, -⟩ := (hholds topic subscribers).mp hlookup
      exact ⟨huse.symm.trans hcache, htopic, hne⟩
    · rintro ⟨hcache, htopic, hne⟩
      exact ⟨_, (hholds topic _).mpr ⟨huse.trans hcache, htopic, hne, rfl⟩⟩
  · intro subscribers hlookup
    obtain ⟨-, -, -, rfl⟩ := (hholds topic subscribers).mp hlookup
    have hperm := (hrefines.visited_perm topic).map (·.subscriber)
    rw [List.map_flatMap] at hperm
    simpa only [List.map_replicate] using hperm

end MqttCpp
