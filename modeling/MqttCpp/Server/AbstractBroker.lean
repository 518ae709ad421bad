import MqttCpp.Broker.Recorded
import MqttCpp.Cereal.Numbers
import MqttCpp.Server.Requests

/-!
# What the server is for

The server said without its tree and its cache: it keeps the list of live entries, answers every
request, and passes a published message on once for every live entry whose filter matches.  The
server does the same for requests with proper filters and topics (`received_run_eq`): every
connection receives the same byte strings in the same order.  Only the order in which different
connections are called for one published message is left open.
-/

namespace MqttCpp

/-! ## Answers -/

/-- The bytes that answer a request: the type of the message, how many bytes come behind it, and for
an acknowledgement the id that it is for, most significant byte first. -/
def Request.answer : Request → Option Bytes
  | .connect => some [0x20, 2, 0, 0]
  | .pingreq => some [0xd0, 0]
  | .subscribe msgId _ => some ([0x90, 3] ++ bigEndian 2 msgId.toNat ++ [0])
  | .unsubscribe msgId _ => some ([0xb0, 2] ++ bigEndian 2 msgId.toNat)
  | .publish _ _ => none
  | .disconnect => none
  | .unknown => none

/-- What is sent to who has made a request. -/
def Request.replies {C : Type} (c : C) (r : Request) : List (Effect C) :=
  r.answer.toList.map (.newMessage c)

/-- The bytes of the answer to a SUBSCRIBE. -/
lemma suback_eq (msgId : UInt16) : suback msgId = [0x90, 3] ++ bigEndian 2 msgId.toNat ++ [0] := by
  rw [← be16_eq_bigEndian]
  rfl

/-- The bytes of the answer to an UNSUBSCRIBE. -/
lemma unsuback_eq (msgId : UInt16) : unsuback msgId = [0xb0, 2] ++ bigEndian 2 msgId.toNat := by
  rw [← be16_eq_bigEndian]
  rfl

/-! ## What the connections receive -/

section Received

variable {C : Type} [DecidableEq C]

/-- The byte string that an effect passes to `newMessage` of a connection. -/
def received (c : C) : Effect C → Option Bytes
  | .newMessage c' bytes => if c' = c then some bytes else none
  | .disconnect _ => none

/-- Every connection receives the same byte strings, in the same order, from the one effects as from
the others. -/
def SameReceived (effects effects' : List (Effect C)) : Prop :=
  ∀ c, effects.filterMap (received c) = effects'.filterMap (received c)

/-- Effects one behind the other. -/
lemma SameReceived.append {es fs es' fs' : List (Effect C)} (h : SameReceived es es')
    (h' : SameReceived fs fs') : SameReceived (es ++ fs) (es' ++ fs') := by
  intro c
  rw [List.filterMap_append, List.filterMap_append, h c, h' c]

/-- What a connection receives when a message is passed on for a list of entries: the message as
often as the connection has an entry in the list. -/
lemma filterMap_received_publish (entries : List (Subscription C)) (bytes : Bytes) (c : C) :
    (entries.map fun e => Effect.newMessage e.subscriber bytes).filterMap (received c) =
      List.replicate (entries.countP fun e => e.subscriber = c) bytes := by
  induction entries with
  | nil => rfl
  | cons e entries ih =>
    rw [List.map_cons, List.filterMap_cons, ih, List.countP_cons]
    by_cases he : e.subscriber = c
    · simp [received, he, List.replicate_succ]
    · simp [received, he]

end Received

variable {C : Type} [BoostSplit]

/-- The server answers the requests that have an answer, and calls nobody else for them. -/
lemma MqttServer.handle_of_answer [DecidableEq C] (s : MqttServer C) (c : C) {r : Request}
    (h : r.answer.isSome = true) : (s.handle c r).2 = r.replies c := by
  cases r with
  | connect => rfl
  | pingreq => rfl
  | subscribe msgId topics =>
    rw [Request.replies, Request.answer, ← suback_eq]
    rfl
  | unsubscribe msgId topics =>
    rw [Request.replies, Request.answer, ← unsuback_eq]
    rfl
  | publish topic bytes => cases h
  | disconnect => cases h
  | unknown => cases h

/-! ## The abstract broker -/

/-- The server as a machine on the list of live entries. -/
def abstractBroker (C : Type) [DecidableEq C] :
    Machine (List (Subscription C)) (C × Request) (Effect C) where
  step
    | live, (c, .connect) => (live, Request.connect.replies c)
    | live, (c, .pingreq) => (live, Request.pingreq.replies c)
    | live, (_, .publish topic bytes) =>
      (live, (live.filter fun e => wildcards.Matches e.levels (split topic)).map fun e =>
        .newMessage e.subscriber bytes)
    | live, (c, .subscribe msgId topics) =>
      (live ++ topics.map fun t => { subscriber := c, topic := t.topic },
        (Request.subscribe msgId topics).replies c)
    | live, (c, .unsubscribe msgId topics) =>
      (live.filter fun e => ¬(e.subscriber = c ∧ e.topic ∈ topics),
        (Request.unsubscribe msgId topics).replies c)
    | live, (c, .disconnect) => (live.filter fun e => e.subscriber ≠ c, [.disconnect c])
    | live, (_, .unknown) => (live, [])

/-- A request whose filters have `#` at most as the last level, or whose topic has no wildcard
levels; it unsubscribes from something, if it does. -/
def Request.WellFormed : Request → Prop
  | .subscribe _ topics => ∀ t ∈ topics, wildcards.HashLast (split t.topic)
  | .unsubscribe _ topics => topics ≠ []
  | .publish topic _ => wildcards.Plain (split topic)
  | _ => True

/-- Whether a request is well-formed can be computed. -/
instance : DecidablePred Request.WellFormed
  | .subscribe _ topics =>
    inferInstanceAs (Decidable (∀ t ∈ topics, wildcards.HashLast (split t.topic)))
  | .unsubscribe _ topics => inferInstanceAs (Decidable (topics ≠ []))
  | .publish topic _ => inferInstanceAs (Decidable (wildcards.Plain (split topic)))
  | .connect => isTrue trivial
  | .pingreq => isTrue trivial
  | .disconnect => isTrue trivial
  | .unknown => isTrue trivial

/-- The server keeps the live entries in its tree, and all of them are proper. -/
structure MqttServer.Realises (s : MqttServer C) (live : List (Subscription C)) : Prop where
  refines : Refines s.broker live
  cacheSound : s.broker.CacheSound
  hashLast : ∀ e ∈ live, wildcards.HashLast e.levels

/-- A new server has no entries. -/
lemma realises_new (useCache : Bool) : (MqttServer.new useCache : MqttServer C).Realises [] where
  refines := refines_new useCache
  cacheSound := MqttBroker.cacheSound_new useCache
  hashLast _ he := absurd he List.not_mem_nil

variable [DecidableEq C]

namespace MqttServer.Realises

variable {s : MqttServer C} {live : List (Subscription C)}

/-- A published message is passed on for the live entries whose filters match, in some order. -/
lemma visited_perm (h : s.Realises live) {topic : Str}
    (htopic : wildcards.Plain (split topic)) :
    (s.broker.visited topic).Perm
      (live.filter fun e => wildcards.Matches e.levels (split topic)) :=
  Wildcards.Stores.collect_perm wildcards h.refines h.hashLast (split_ne_nil topic) htopic

/-- **A request keeps the server realising the live entries, and every connection receives what
it should.** -/
theorem handle (h : s.Realises live) (c : C) {r : Request} (hr : r.WellFormed) :
    (s.handle c r).1.Realises ((abstractBroker C).step live (c, r)).1 ∧
      ∀ c', (s.handle c r).2.filterMap (received c') =
        ((abstractBroker C).step live (c, r)).2.filterMap (received c') := by
  have hremove : ∀ p : Subscription C → Bool, ∀ e ∈ live.filter p, wildcards.HashLast e.levels :=
    fun p e he => h.hashLast e (List.mem_of_mem_filter he)
  have hanswer : ∀ r : Request, r.answer.isSome = true → ∀ c',
      (s.handle c r).2.filterMap (received c') = (r.replies c).filterMap (received c') := by
    intro r hr c'
    rw [s.handle_of_answer c hr]
  cases r with
  | connect => exact ⟨h, hanswer .connect rfl⟩
  | pingreq => exact ⟨h, hanswer .pingreq rfl⟩
  | unknown => exact ⟨h, fun _ => rfl⟩
  | publish topic bytes =>
    refine ⟨⟨?_, h.cacheSound.publish topic bytes, h.hashLast⟩, fun c' => ?_⟩
    · exact h.refines.call (.publish topic bytes)
    · have hcalls : (s.handle c (.publish topic bytes)).2 =
          (s.broker.visited topic).map fun e => Effect.newMessage e.subscriber bytes := by
        change (s.broker.publish topic bytes).2.map _ = _
        rw [h.cacheSound.calls_publish, List.map_map]
        rfl
      have hcount := (h.visited_perm hr).countP_eq fun e => decide (e.subscriber = c')
      rw [hcalls, filterMap_received_publish, hcount, ← filterMap_received_publish]
      rfl
  | subscribe msgId topics =>
    refine ⟨⟨h.refines.subscribe c topics, h.cacheSound.subscribe c topics, ?_⟩,
      hanswer (.subscribe msgId topics) rfl⟩
    intro e he
    rcases List.mem_append.mp he with he | he
    · exact h.hashLast e he
    · obtain ⟨t, ht, rfl⟩ := List.mem_map.mp he
      exact hr t ht
  | unsubscribe msgId topics =>
    have hlive : (live.filter fun e => ¬(e.subscriber = c ∧ e.topic ∈ topics)) =
        live.filter fun e => ¬(e.subscriber = c ∧ (topics = [] ∨ e.topic ∈ topics)) := by
      have hne : topics ≠ [] := hr
      simp [hne]
    refine ⟨⟨?_, h.cacheSound.unsubscribeTopics c topics, hremove _⟩,
      hanswer (.unsubscribe msgId topics) rfl⟩
    change Refines _ (live.filter _)
    rw [hlive]
    exact h.refines.unsubscribeTopics c topics
  | disconnect =>
    refine ⟨⟨?_, h.cacheSound.unsubscribeTopics c [], hremove _⟩, fun _ => rfl⟩
    exact h.refines.call (.unsubscribe c)

end MqttServer.Realises

/-- **The server does what it is for**: whatever well-formed requests have come, every connection
has received the same byte strings in the same order as from the abstract broker. -/
theorem received_run_eq (useCache : Bool) {requests : List (C × Request)}
    (h : ∀ i ∈ requests, i.2.WellFormed) (c : C) :
    ((serverMachine C).run (.new useCache) requests).2.filterMap (received c) =
      ((abstractBroker C).run [] requests).2.filterMap (received c) := by
  have hrun := Machine.run_simulation_of (M := serverMachine C) (N := abstractBroker C)
    (R := MqttServer.Realises) (P := fun i => i.2.WellFormed)
    (T := fun os os' => ∀ c, os.filterMap (received c) = os'.filterMap (received c))
    (fun _ => rfl)
    (fun os ps os' ps' ho hp c => by rw [List.filterMap_append, List.filterMap_append, ho, hp])
    (fun s live i hi hs => hs.handle i.1 hi) (realises_new useCache) h
  exact hrun.2 c

end MqttCpp
