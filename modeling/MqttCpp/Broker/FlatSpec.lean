import MqttCpp.Broker.Walk

/-!
# The broker refines a flat list of subscriptions

What the broker is for, said without its tree: it keeps a list of live entries, and a published
topic reaches every live entry whose filter matches it.  The tree of the broker stores the live
entries under their filters (`refines_run`), whatever calls have led to it, and so the walk of a
broker without a cache reaches the matching entries once each.
-/

namespace MqttCpp

/-! ## The live entries -/

section Live

variable {S : Type} [DecidableEq S]

/-- What a call does to the list of live entries.  An empty list of topics to unsubscribe from
stands for all of them. -/
def liveStep (live : List (Subscription S)) : BrokerCall S → List (Subscription S)
  | .subscribe s topics => live ++ topics.map fun t => { subscriber := s, topic := t.topic }
  | .subscribeStrings s topics => live ++ topics.map fun t => { subscriber := s, topic := t }
  | .unsubscribe s => live.filter fun e => e.subscriber ≠ s
  | .unsubscribeTopics s topics =>
    live.filter fun e => ¬(e.subscriber = s ∧ (topics = [] ∨ e.topic ∈ topics))
  | .publish _ _ => live

/-- The entries that are live after the calls. -/
def liveEntries (calls : List (BrokerCall S)) : List (Subscription S) := calls.foldl liveStep []

end Live

section Calls

variable {S : Type} [BoostSplit]

/-! ## The tree -/

/-- The levels of the filter of an entry. -/
def Subscription.levels (e : Subscription S) : List Str := split e.topic

/-- The tree of the broker stores the live entries under the levels of their filters. -/
def Refines (b : MqttBroker S) (live : List (Subscription S)) : Prop :=
  Wildcards.Stores Subscription.levels b.tree live

/-- A new broker has no live entries. -/
lemma refines_new (useCache : Bool) : Refines (MqttBroker.new useCache : MqttBroker S) [] :=
  Wildcards.stores_empty Subscription.levels

/-- Adding leaves for a list of topics adds the entries for them. -/
lemma stores_foldl_addLeaf {tree : Node S} {live : List (Subscription S)}
    (h : Wildcards.Stores Subscription.levels tree live) (s : S) (topics : List Str) :
    Wildcards.Stores Subscription.levels (topics.foldl (MqttBroker.addLeaf s) tree)
      (live ++ topics.map fun t => { subscriber := s, topic := t }) := by
  induction topics generalizing tree live with
  | nil => rwa [List.map_nil, List.append_nil]
  | cons topic topics ih =>
    have hleaf : Wildcards.Stores Subscription.levels (MqttBroker.addLeaf s tree topic)
        (live ++ [{ subscriber := s, topic := topic }]) := by
      rw [MqttBroker.addLeaf, addOrFindNode_eq_alterAt]
      exact h.push { subscriber := s, topic := topic }
    rw [List.foldl_cons, List.map_cons, List.append_cons]
    exact ih hleaf

/-- `subscribe` adds one entry for every listed topic. -/
lemma Refines.subscribe {b : MqttBroker S} {live : List (Subscription S)} (h : Refines b live)
    (s : S) (topics : List MqttSubscribe.Topic) :
    Refines (b.subscribe s topics)
      (live ++ topics.map fun t => { subscriber := s, topic := t.topic }) := by
  have hadd := stores_foldl_addLeaf h s (topics.map (·.topic))
  rw [List.map_map] at hadd
  rw [Refines, MqttBroker.tree_subscribe]
  exact hadd

/-- Without a cache a published topic calls the subscribers that the walk visits. -/
lemma MqttBroker.publish_of_useCache_eq_false {b : MqttBroker S} (h : b.useCache = false)
    (topic : Str) (bytes : Bytes) :
    b.publish topic bytes =
      (b, (b.visited topic).map fun e => (e.subscriber, bytes)) := by
  have hmiss : ¬(b.useCache = true ∧ topic ∈ b.cache) := by simp [h]
  have hcache : ¬b.useCache = true := by simp [h]
  rw [MqttBroker.publish_of_notMem_cache hmiss, if_neg hcache]

variable [DecidableEq S]

/-- `unsubscribe` removes the entries of the subscriber for the listed topics. -/
lemma Refines.unsubscribeTopics {b : MqttBroker S} {live : List (Subscription S)}
    (h : Refines b live) (s : S) (topics : List Str) :
    Refines (b.unsubscribeTopics s topics)
      (live.filter fun e => ¬(e.subscriber = s ∧ (topics = [] ∨ e.topic ∈ topics))) := by
  have hpred : (fun e : Subscription S => !e.isSubscriber s topics) =
      fun e => decide (¬(e.subscriber = s ∧ (topics = [] ∨ e.topic ∈ topics))) := by
    funext e
    simp [Subscription.isSubscriber, and_comm]
  rw [Refines, MqttBroker.tree_unsubscribeTopics, unsubscribeImpl, hpred]
  exact Wildcards.Stores.filterValues h _

/-! ## Runs -/

/-- **Every call refines its step on the live entries.** -/
theorem Refines.call {b : MqttBroker S} {live : List (Subscription S)} (h : Refines b live)
    (c : BrokerCall S) : Refines (b.call c).1 (liveStep live c) := by
  cases c with
  | subscribe s topics => exact h.subscribe s topics
  | subscribeStrings s topics =>
    have hadd := h.subscribe s (topics.map fun t => { topic := t, qos := 0 })
    rw [List.map_map] at hadd
    exact hadd
  | unsubscribe s =>
    have hremove := h.unsubscribeTopics s []
    simpa [liveStep, MqttBroker.call, MqttBroker.unsubscribe] using hremove
  | unsubscribeTopics s topics => exact h.unsubscribeTopics s topics
  | publish topic bytes =>
    rw [Refines, MqttBroker.call, MqttBroker.tree_publish]
    exact h

/-- After any calls the tree of the broker stores the live entries. -/
theorem refines_run (useCache : Bool) (calls : List (BrokerCall S)) :
    Refines ((brokerMachine S).run (MqttBroker.new useCache) calls).1 (liveEntries calls) := by
  have hrun : ∀ (b : MqttBroker S) (live : List (Subscription S)), Refines b live →
      Refines ((brokerMachine S).run b calls).1 (calls.foldl liveStep live) := by
    induction calls with
    | nil => exact fun b live h => h
    | cons c calls ih => exact fun b live h => ih _ _ (h.call c)
  exact hrun _ _ (refines_new useCache)

/-- Whether there is a cache is decided once. -/
lemma MqttBroker.useCache_call (b : MqttBroker S) (c : BrokerCall S) :
    (b.call c).1.useCache = b.useCache := by
  cases c with
  | subscribe s topics => exact b.useCache_invalidateCache
  | subscribeStrings s topics => exact b.useCache_invalidateCache
  | unsubscribe s => exact b.useCache_invalidateCache
  | unsubscribeTopics s topics => exact b.useCache_invalidateCache
  | publish topic bytes => exact b.useCache_publish topic bytes

/-- Whether there is a cache does not change in a run. -/
lemma useCache_run (useCache : Bool) (calls : List (BrokerCall S)) :
    ((brokerMachine S).run (MqttBroker.new useCache) calls).1.useCache = useCache := by
  have hstep : ∀ (b : MqttBroker S) (c : BrokerCall S), b.useCache = useCache →
      ((brokerMachine S).step b c).1.useCache = useCache :=
    fun b c hb => (b.useCache_call c).trans hb
  exact Machine.run_invariant hstep rfl calls

/-! ## Publishing without a cache -/

/-- **The broker without a cache refines the flat list of subscriptions.**  After any calls, a
published topic without wildcard levels makes one call, with the published bytes, for every live
entry whose filter matches, and no other call for an entry whose filter has `#` at most as its
last level. -/
theorem publish_reaches_matching_entries (calls : List (BrokerCall S)) (topic : Str)
    (bytes : Bytes) (htopic : wildcards.Plain (split topic)) :
    ∃ reached : List (Subscription S),
      ((brokerMachine S).run (MqttBroker.new false) (calls ++ [.publish topic bytes])).2 =
          ((brokerMachine S).run (MqttBroker.new false) calls).2 ++
            reached.map (fun e => (e.subscriber, bytes)) ∧
        (∀ e ∈ reached, e ∈ liveEntries calls) ∧
        ∀ e : Subscription S, wildcards.HashLast e.levels →
          reached.count e =
            if wildcards.Matches e.levels (split topic) then (liveEntries calls).count e
            else 0 := by
  have hrefines := refines_run (S := S) false calls
  have hcache := useCache_run (S := S) false calls
  generalize hb : ((brokerMachine S).run (MqttBroker.new false) calls).1 = b at hrefines hcache
  refine ⟨b.visited topic, ?_, ?_, ?_⟩
  · rw [Machine.run_append, hb, Machine.run_cons, Machine.run_nil, List.append_nil]
    change _ ++ (b.publish topic bytes).2 = _
    rw [MqttBroker.publish_of_useCache_eq_false hcache]
  · intro e he
    exact Wildcards.Stores.mem_of_mem_collect wildcards hrefines he
  · intro e he
    exact Wildcards.Stores.count_collect wildcards hrefines (split_ne_nil topic) htopic he

end Calls

/-- Of two entries of a subscriber one is unsubscribed again; the other matches the topic. -/
theorem publish_reaches_matching_entries_once :
    let _ := boostSplit
    ∃ reached : List (Subscription ℕ),
      ((brokerMachine ℕ).run (MqttBroker.new false)
          [.subscribeStrings 1 [[97], [97, 47, 35]], .subscribeStrings 2 [[97, 47, 43]],
            .unsubscribeTopics 1 [[97]], .publish [97, 47, 98] [1, 2]]).2 =
        reached.map (fun e => (e.subscriber, [1, 2])) ∧
      reached.count { subscriber := 1, topic := [97, 47, 35] } = 1 := by
  let _ := boostSplit
  obtain ⟨reached, hcalls, -, hcount⟩ := publish_reaches_matching_entries
    [.subscribeStrings 1 [[97], [97, 47, 35]], .subscribeStrings 2 [[97, 47, 43]],
      .unsubscribeTopics 1 [[97]]] [97, 47, 98] [1, 2] (by decide)
  exact ⟨reached, hcalls, hcount _ (by decide)⟩

end MqttCpp
