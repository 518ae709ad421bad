import MqttCpp.Broker.Observation
import MqttCpp.Server.AbstractBroker

/-!
# What the server does with any requests

The abstract broker says what the server is for, and leaves open what it does with filters and
topics that are not proper.  `exactBroker` says that too: a live entry receives a published message
as often as the walk of the topic meets its filter, and who unsubscribes from nothing is
unsubscribed from everything.  Every connection receives from the server just what it receives from
this list machine, whatever the requests are (`received_run_eq_exact`).
-/

namespace MqttCpp

variable {C : Type} [BoostSplit]

/-- The server as a machine on the list of live entries, for any filters and topics. -/
def exactBroker (C : Type) [DecidableEq C] :
    Machine (List (Subscription C)) (C × Request) (Effect C) where
  step
    | live, (c, .connect) => (live, Request.connect.replies c)
    | live, (c, .pingreq) => (live, Request.pingreq.replies c)
    | live, (_, .publish topic bytes) =>
      (live, live.flatMap fun e =>
        List.replicate (wildcards.arrivals e.levels (split topic))
          (.newMessage e.subscriber bytes))
    | live, (c, .subscribe msgId topics) =>
      (live ++ topics.map fun t => { subscriber := c, topic := t.topic },
        (Request.subscribe msgId topics).replies c)
    | live, (c, .unsubscribe msgId topics) =>
      (live.filter fun e => ¬(e.subscriber = c ∧ (topics = [] ∨ e.topic ∈ topics)),
        (Request.unsubscribe msgId topics).replies c)
    | live, (c, .disconnect) => (live.filter fun e => e.subscriber ≠ c, [.disconnect c])
    | live, (_, .unknown) => (live, [])

/-- The tree of the server stores the live entries, and its cache is sound. -/
structure MqttServer.Stores (s : MqttServer C) (live : List (Subscription C)) : Prop where
  refines : Refines s.broker live
  cacheSound : s.broker.CacheSound

variable [DecidableEq C]

namespace MqttServer.Stores

variable {s : MqttServer C} {live : List (Subscription C)}

/-- **A request keeps the server storing the live entries, and every connection receives what the
list machine sends.** -/
theorem handle (h : s.Stores live) (c : C) (r : Request) :
    (s.handle c r).1.Stores ((exactBroker C).step live (c, r)).1 ∧
      SameReceived (s.handle c r).2 ((exactBroker C).step live (c, r)).2 := by
  have hanswer : ∀ r : Request, r.answer.isSome = true →
      SameReceived (s.handle c r).2 (r.replies c) := by
    intro r hr c'
    rw [s.handle_of_answer c hr]
  cases r with
  | connect => exact ⟨h, hanswer .connect rfl⟩
  | pingreq => exact ⟨h, hanswer .pingreq rfl⟩
  | unknown => exact ⟨h, fun _ => rfl⟩
  | publish topic bytes =>
    refine ⟨⟨h.refines.call (.publish topic bytes), h.cacheSound.publish topic bytes⟩,
      fun c' => ?_⟩
    have hcalls : (s.handle c (.publish topic bytes)).2 =
        (s.broker.visited topic).map fun e => Effect.newMessage e.subscriber bytes := by
      change (s.broker.publish topic bytes).2.map _ = _
      rw [h.cacheSound.calls_publish, List.map_map]
      rfl
    have hsent : ((exactBroker C).step live (c, .publish topic bytes)).2 =
        (live.flatMap fun e => List.replicate (wildcards.arrivals e.levels (split topic)) e).map
          fun e => Effect.newMessage e.subscriber bytes := by
      rw [List.map_flatMap]
      simp only [List.map_replicate]
      rfl
    have hcount := (h.refines.visited_perm topic).countP_eq fun e => decide (e.subscriber = c')
    rw [hcalls, hsent, filterMap_received_publish, filterMap_received_publish, hcount]
  | subscribe msgId topics =>
    exact ⟨⟨h.refines.subscribe c topics, h.cacheSound.subscribe c topics⟩,
      hanswer (.subscribe msgId topics) rfl⟩
  | unsubscribe msgId topics =>
    exact ⟨⟨h.refines.unsubscribeTopics c topics, h.cacheSound.unsubscribeTopics c topics⟩,
      hanswer (.unsubscribe msgId topics) rfl⟩
  | disconnect =>
    exact ⟨⟨h.refines.call (.unsubscribe c), h.cacheSound.unsubscribeTopics c []⟩, fun _ => rfl⟩

end MqttServer.Stores

end MqttCpp
