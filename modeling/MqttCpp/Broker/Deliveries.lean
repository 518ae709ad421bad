import MqttCpp.Broker.Recorded

/-!
# How often an entry is delivered to

One call of `publish` calls `newMessage` once for every leaf that its walk visits.  The walk tries
the level of the topic, `#` and `+` in turn and does not ask whether the first is one of the
others.  So it comes to a leaf twice for every level at which the filter and the topic have the
same wildcard, and to every other leaf at most once.
-/

namespace MqttCpp

section Deliveries

variable {S : Type} [BoostSplit]

/-- The walk of the topic comes to the entry, and the filter of the entry has a wildcard at a level
at which the topic has the same. -/
def Subscription.sharesWildcard (e : Subscription S) (topic : Str) : Prop :=
  wildcards.Reaches e.levels (split topic) = true ∧ 0 < wildcards.shared e.levels (split topic)

variable [DecidableEq S]

/-- The broker after some calls. -/
def afterCalls (useCache : Bool) (calls : List (BrokerCall S)) : MqttBroker S :=
  ((brokerMachine S).run (MqttBroker.new useCache) calls).1

/-- Publishing the topic makes one call for every leaf it visits, and visits none more often than
it is an entry. -/
def DeliversOnce (b : MqttBroker S) (entries : List (Subscription S)) (topic : Str)
    (bytes : Bytes) : Prop :=
  (b.publish topic bytes).2 = ((b.visited topic).map fun e => (e.subscriber, bytes)) ∧
    ∀ e, (b.visited topic).count e ≤ entries.count e

/-- A broker whose cache is sound delivers at most once to each entry if and only if the topic
shares a wildcard with none. -/
lemma Refines.deliversOnce_iff {b : MqttBroker S} {live : List (Subscription S)}
    (h : Refines b live) (hcache : b.CacheSound) (topic : Str) (bytes : Bytes) :
    DeliversOnce b live topic bytes ↔ ∀ e ∈ live, ¬e.sharesWildcard topic := by
  have hcount := Wildcards.Stores.count_collect_le_iff wildcards h (split topic)
  constructor
  · rintro ⟨-, hle⟩
    exact hcount.mp hle
  · intro hshares
    exact ⟨hcache.calls_publish topic bytes, hcount.mpr hshares⟩

/-! ## Runs -/

/-- Every call keeps the cache sound. -/
lemma MqttBroker.CacheSound.call {b : MqttBroker S} (h : b.CacheSound) (c : BrokerCall S) :
    (b.call c).1.CacheSound := by
  cases c with
  | subscribe s topics => exact h.subscribe s topics
  | subscribeStrings s topics => exact h.subscribe s _
  | unsubscribe s => exact h.unsubscribeTopics s []
  | unsubscribeTopics s topics => exact h.unsubscribeTopics s topics
  | publish topic bytes => exact h.publish topic bytes

/-- The cache is sound after any calls. -/
lemma cacheSound_afterCalls (useCache : Bool) (calls : List (BrokerCall S)) :
    (afterCalls useCache calls).CacheSound :=
  Machine.run_invariant (M := brokerMachine S) (fun _ c h => h.call c)
    (MqttBroker.cacheSound_new useCache) calls

/-- The tree stores the live entries after any calls. -/
lemma refines_afterCalls (useCache : Bool) (calls : List (BrokerCall S)) :
    Refines (afterCalls useCache calls) (liveEntries calls) := refines_run useCache calls

/-- **At most one delivery for each entry**, after any calls and with or without a cache, if and
only if no live entry that the walk of the topic reaches has the same wildcard as the topic at some
level. -/
theorem deliversOnce_afterCalls_iff (useCache : Bool) (calls : List (BrokerCall S)) (topic : Str)
    (bytes : Bytes) :
    DeliversOnce (afterCalls useCache calls) (liveEntries calls) topic bytes ↔
      ∀ e ∈ liveEntries calls, ¬e.sharesWildcard topic :=
  (refines_afterCalls useCache calls).deliversOnce_iff (cacheSound_afterCalls useCache calls) topic
    bytes

/-- A topic without wildcards is delivered at most once to each entry, whatever the filters. -/
theorem deliversOnce_of_plain (useCache : Bool) (calls : List (BrokerCall S)) {topic : Str}
    (htopic : wildcards.Plain (split topic)) (bytes : Bytes) :
    DeliversOnce (afterCalls useCache calls) (liveEntries calls) topic bytes := by
  rw [(refines_afterCalls useCache calls).deliversOnce_iff (cacheSound_afterCalls useCache calls)]
  rintro e - ⟨-, hshared⟩
  rw [Wildcards.shared_eq_zero_of_plain wildcards htopic] at hshared
  exact absurd hshared (lt_irrefl 0)

end Deliveries

/-- One entry for `#` and the topic `#`: its subscriber is called twice. -/
theorem not_deliversOnce_hash :
    let _ := boostSplit
    liveEntries [.subscribeStrings 1 [[35]]] = [{ subscriber := 1, topic := [35] }] ∧
      ((afterCalls false [.subscribeStrings 1 [[35]]]).publish [35] [7]).2 = [(1, [7]), (1, [7])] ∧
      ¬DeliversOnce (afterCalls false [.subscribeStrings 1 [[35]]])
        (liveEntries [.subscribeStrings 1 [[35]]]) [35] [7] := by
  let _ := boostSplit
  refine ⟨rfl, by decide +kernel, ?_⟩
  rintro ⟨-, hle⟩
  have hone := hle { subscriber := 1, topic := [35] }
  revert hone
  decide +kernel

end MqttCpp
