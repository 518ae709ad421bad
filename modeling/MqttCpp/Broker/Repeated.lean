import MqttCpp.Broker.Deliveries
import MqttCpp.Broker.Noninterference

/-!
# Subscribing again

Nothing in the broker looks whether a subscription is there already: who subscribes again to a
filter has one more entry, which every walk that comes to the filter delivers to as well, until its
subscriber unsubscribes from it.  Nobody else notices, and nobody is called who would not be.
-/

namespace MqttCpp

/-! ## One more live entry -/

/-- The entries that the call adds. -/
def BrokerCall.adds {S : Type} : BrokerCall S → List (Subscription S)
  | .subscribe s topics => topics.map fun t => { subscriber := s, topic := t.topic }
  | .subscribeStrings s topics => topics.map fun t => { subscriber := s, topic := t }
  | _ => []

section Again

variable {S : Type} [DecidableEq S]

/-- The call removes the entry. -/
def BrokerCall.removes : BrokerCall S → Subscription S → Bool
  | .unsubscribe s, e => decide (e.subscriber = s)
  | .unsubscribeTopics s topics, e =>
    decide (e.subscriber = s ∧ (topics = [] ∨ e.topic ∈ topics))
  | _, _ => false

/-- A call removes the entries that it removes, and adds those that it adds behind the others. -/
lemma liveStep_eq (live : List (Subscription S)) (c : BrokerCall S) :
    liveStep live c = (live.filter fun e => !c.removes e) ++ c.adds := by
  cases c <;> simp [liveStep, BrokerCall.removes, BrokerCall.adds]

/-- With some entries more, there are as many more after a call as it does not remove. -/
lemma liveStep_perm_append {live live' extra : List (Subscription S)}
    (h : live'.Perm (live ++ extra)) (c : BrokerCall S) :
    (liveStep live' c).Perm (liveStep live c ++ extra.filter fun e => !c.removes e) := by
  have hfilter := (h.filter fun e => !c.removes e).append_right c.adds
  rw [List.filter_append, List.append_assoc] at hfilter
  rw [liveStep_eq, liveStep_eq, List.append_assoc]
  exact hfilter.trans (List.perm_append_comm.append_left _)

/-- After any calls there are as many more as no call has removed. -/
lemma foldl_liveStep_perm_append {live live' extra : List (Subscription S)}
    (h : live'.Perm (live ++ extra)) (calls : List (BrokerCall S)) :
    (calls.foldl liveStep live').Perm
      (calls.foldl liveStep live ++ extra.filter fun e => !calls.any (·.removes e)) := by
  induction calls generalizing live live' extra with
  | nil => simpa using h
  | cons c calls ih =>
    have hrest := ih (liveStep_perm_append h c)
    rw [List.filter_filter] at hrest
    have hpred : (fun e : Subscription S => !calls.any (·.removes e) && !c.removes e) =
        fun e => !(c :: calls).any (·.removes e) := by
      funext e
      simp [Bool.and_comm]
    rwa [hpred] at hrest

/-- An entry that no call removes stays live. -/
lemma mem_foldl_liveStep {live : List (Subscription S)} {e : Subscription S} (he : e ∈ live)
    {calls : List (BrokerCall S)} (hkept : calls.any (·.removes e) = false) :
    e ∈ calls.foldl liveStep live := by
  have hperm := foldl_liveStep_perm_append (List.Perm.refl ([] ++ live)) calls
  rw [List.nil_append] at hperm
  apply hperm.mem_iff.mpr
  simp [he, hkept]

/-! ## Subscribing again -/

/-- The entries that `subscribe` adds for the topics, if a later call does not remove them. -/
def stillAdded (s : S) (topics : List MqttSubscribe.Topic) (later : List (BrokerCall S)) :
    List (Subscription S) :=
  (topics.map fun t => { subscriber := s, topic := t.topic }).filter fun e =>
    !later.any (·.removes e)

/-- They are entries of the subscriber for the topics, and no later call removes them. -/
lemma mem_stillAdded {s : S} {topics : List MqttSubscribe.Topic} {later : List (BrokerCall S)}
    {e : Subscription S} (he : e ∈ stillAdded s topics later) :
    e.subscriber = s ∧ later.any (·.removes e) = false ∧
      ∃ t ∈ topics, { subscriber := s, topic := t.topic } = e := by
  obtain ⟨hmem, hkept⟩ := List.mem_filter.mp he
  obtain ⟨t, ht, rfl⟩ := List.mem_map.mp hmem
  exact ⟨rfl, by simpa using hkept, t, ht, rfl⟩

/-- After the same later calls, a broker that has subscribed has so many entries more. -/
lemma liveEntries_perm_append (calls later : List (BrokerCall S)) (s : S)
    (topics : List MqttSubscribe.Topic) :
    (liveEntries (calls ++ .subscribe s topics :: later)).Perm
      (liveEntries (calls ++ later) ++ stillAdded s topics later) := by
  rw [liveEntries, liveEntries, List.foldl_append, List.foldl_append, List.foldl_cons]
  exact foldl_liveStep_perm_append (List.Perm.refl _) later

variable [BoostSplit]

/-- The calls that the walk of a topic makes for entries of one subscriber. -/
def callsFor (s : S) (entries : List (Subscription S)) (topic : Str) (bytes : Bytes) :
    List (S × Bytes) :=
  entries.flatMap fun e => List.replicate (wildcards.arrivals e.levels (split topic)) (s, bytes)

/-- Then `publish` makes the calls for the added entries in addition. -/
lemma calls_publish_perm_append (useCache : Bool) (calls later : List (BrokerCall S)) (s : S)
    (topics : List MqttSubscribe.Topic) (topic : Str) (bytes : Bytes) :
    ((afterCalls useCache (calls ++ .subscribe s topics :: later)).publish topic bytes).2.Perm
      (((afterCalls useCache (calls ++ later)).publish topic bytes).2 ++
        callsFor s (stillAdded s topics later) topic bytes) := by
  have hvisited := (refines_afterCalls useCache (calls ++ later)).collect_perm_append wildcards
    (refines_afterCalls useCache (calls ++ .subscribe s topics :: later))
    (liveEntries_perm_append calls later s topics) (split topic)
  have hcalls := hvisited.map fun e => (e.subscriber, bytes)
  have hextra : ((stillAdded s topics later).flatMap fun e =>
      List.replicate (wildcards.arrivals e.levels (split topic)) e).map
        (fun e => (e.subscriber, bytes)) = callsFor s (stillAdded s topics later) topic bytes := by
    rw [List.map_flatMap, callsFor]
    refine List.flatMap_congr fun e he => ?_
    rw [List.map_replicate, (mem_stillAdded he).1]
  rw [List.map_append, hextra] at hcalls
  rw [(cacheSound_afterCalls useCache _).calls_publish,
    (cacheSound_afterCalls useCache _).calls_publish]
  exact hcalls

/-- An entry that was live, that no later call has removed and that the walk meets is delivered
to. -/
lemma mem_calls_publish (useCache : Bool) {calls later : List (BrokerCall S)} {e : Subscription S}
    (he : e ∈ liveEntries calls) (hkept : later.any (·.removes e) = false) {topic : Str}
    (hmeets : 0 < wildcards.arrivals e.levels (split topic)) (bytes : Bytes) :
    (e.subscriber, bytes) ∈ ((afterCalls useCache (calls ++ later)).publish topic bytes).2 := by
  have hlive : e ∈ liveEntries (calls ++ later) := by
    rw [liveEntries, List.foldl_append]
    exact mem_foldl_liveStep he hkept
  have hreaches := wildcards.arrivals_pos_iff.mp hmeets
  have hvisited := ((refines_afterCalls useCache (calls ++ later)).mem_collect_iff wildcards).mpr
    ⟨hlive, hreaches⟩
  rw [(cacheSound_afterCalls useCache _).calls_publish]
  exact List.mem_map_of_mem hvisited

/-- What others subscribe to does not matter to a subscriber. -/
lemma receives_append_cons {B s : S} (h : s ≠ B) (useCache : Bool)
    (calls later : List (BrokerCall S)) (topics : List MqttSubscribe.Topic) :
    receives B useCache (calls ++ .subscribe s topics :: later) =
      receives B useCache (calls ++ later) := by
  have hnot : ¬BrokerCall.concerns B (.subscribe s topics) = true := by
    simp [BrokerCall.concerns, h]
  rw [receives_eq_receives_filter B useCache useCache, List.filter_append,
    List.filter_cons_of_neg hnot, ← List.filter_append, ← receives_eq_receives_filter]

/-- **Subscribing again** to filters that the subscriber holds, after any calls and before any
others, with or without a cache.  All others receive the same in the same order.  Every later
`publish` makes the calls that it would make, and calls this subscriber once more for each time that
its walk meets a filter that has been subscribed to again and not been unsubscribed from since; it
calls nobody that it would not call. -/
theorem subscribe_again (useCache : Bool) {calls : List (BrokerCall S)} {s : S}
    {topics : List MqttSubscribe.Topic}
    (h : ∀ t ∈ topics, { subscriber := s, topic := t.topic } ∈ liveEntries calls)
    (later : List (BrokerCall S)) :
    let once := calls ++ later
    let again := calls ++ .subscribe s topics :: later
    (∀ B, B ≠ s → receives B useCache again = receives B useCache once) ∧
      ∀ topic bytes,
        let callsOnce := ((afterCalls useCache once).publish topic bytes).2
        let callsAgain := ((afterCalls useCache again).publish topic bytes).2
        callsAgain.Perm (callsOnce ++ callsFor s (stillAdded s topics later) topic bytes) ∧
          ∀ call, call ∈ callsAgain ↔ call ∈ callsOnce := by
  intro once again
  refine ⟨fun B hB => receives_append_cons (Ne.symm hB) useCache calls later topics,
    fun topic bytes => ?_⟩
  intro callsOnce callsAgain
  have hperm : callsAgain.Perm
      (callsOnce ++ callsFor s (stillAdded s topics later) topic bytes) :=
    calls_publish_perm_append useCache calls later s topics topic bytes
  refine ⟨hperm, fun call => ?_⟩
  rw [hperm.mem_iff, List.mem_append]
  constructor
  · rintro (honce | hadded)
    · exact honce
    · obtain ⟨e, he, hcall⟩ := List.mem_flatMap.mp hadded
      obtain ⟨hmeets, rfl⟩ := List.mem_replicate.mp hcall
      obtain ⟨rfl, hkept, t, ht, hentry⟩ := mem_stillAdded he
      exact mem_calls_publish useCache (hentry ▸ h t ht) hkept (Nat.pos_of_ne_zero hmeets) bytes
  · exact Or.inl

end Again

/-- Who has subscribed to "a" subscribes to it again, and to "#" as well. -/
theorem subscribe_again_two_filters :
    let _ := boostSplit
    let calls : List (BrokerCall ℕ) :=
      [.subscribeStrings 1 [[97], [35]], .subscribeStrings 2 [[97]]]
    let topics : List MqttSubscribe.Topic :=
      [{ topic := [97], qos := 0 }, { topic := [35], qos := 1 }]
    let later : List (BrokerCall ℕ) := [.unsubscribeTopics 1 [[35]]]
    receives 2 true (calls ++ .subscribe 1 topics :: later) = receives 2 true (calls ++ later) ∧
      ((afterCalls true (calls ++ .subscribe 1 topics :: later)).publish [97] [7]).2.Perm
        (((afterCalls true (calls ++ later)).publish [97] [7]).2 ++ [(1, [7])]) := by
  intro _ calls topics later
  have hholds : ∀ t ∈ topics, { subscriber := 1, topic := t.topic } ∈ liveEntries calls := by
    decide
  have hagain := subscribe_again true hholds later
  exact ⟨hagain.1 2 (by decide), (hagain.2 [97] [7]).1⟩

/-- Who subscribes to "a" twice receives what is published to it twice. -/
theorem subscribe_again_not_idempotent :
    let _ := boostSplit
    { subscriber := 1, topic := [97] } ∈ liveEntries [.subscribeStrings 1 [[97]]] ∧
      receives 1 false ([.subscribeStrings 1 [[97]]] ++ [.publish [97] [7]]) = [[7]] ∧
      receives 1 false ([.subscribeStrings 1 [[97]]] ++
        .subscribe 1 [{ topic := [97], qos := 0 }] :: [.publish [97] [7]]) = [[7], [7]] := by
  decide +kernel

end MqttCpp
