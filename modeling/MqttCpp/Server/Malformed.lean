import MqttCpp.Broker.Deliveries
import MqttCpp.Message.PublishTopic
import MqttCpp.Server.Requests

/-!
# A PUBLISH without a topic

`getPublishTopic` returns an empty topic for a message of less than four bytes, and the server
publishes that message under it like any other.  In a longer message nothing compares the declared
length of the topic with the size.  So a malformed message is passed on to whoever has a filter that
the walk of the topic reaches that was made up or read from the memory behind.
-/

namespace MqttCpp

/-! ## What is read -/

/-- The length of the topic that the third and the fourth byte declare. -/
def declaredLength : Bytes → ℕ
  | _ :: _ :: high :: low :: _ => high.toNat * 256 + low.toNat
  | _ => 0

/-- No complete topic can be read from the message: it has less than four bytes, or declares a
longer topic than bytes are left. -/
def LacksTopic (msg : Span) : Prop :=
  msg.size < 4 ∨ msg.size - 4 < declaredLength msg.bytes

/-- What the server takes as the topic of a message. -/
lemma readTopic_eq_ok_iff {msg : Span} {topic : Str} :
    (getPublishTopic msg >>= CStringSpan.toString) = .ok topic ↔
      (msg.size < 4 ∧ topic = []) ∨
        (4 < msg.size ∧ 4 + declaredLength msg.bytes ≤ msg.mem.length ∧
          topic = (msg.mem.drop 4).take (declaredLength msg.bytes)) := by
  rcases Nat.lt_trichotomy msg.size 4 with hlt | heq | hgt
  · have hempty : (getPublishTopic msg >>= CStringSpan.toString) = .ok [] := by
      rw [getPublishTopic_of_size_lt hlt]
      rfl
    rw [hempty, Except.ok.injEq]
    constructor
    · exact fun h => Or.inl ⟨hlt, h.symm⟩
    · rintro (⟨-, rfl⟩ | ⟨hgt, -⟩)
      · rfl
      · omega
  · rw [getPublishTopic_of_size_eq heq]
    constructor
    · intro h
      cases h
    · rintro (⟨hlt, -⟩ | ⟨hgt, -⟩) <;> omega
  · obtain ⟨b₀, b₁, high, low, b₄, rest, hbytes⟩ := exists_bytes_eq_of_lt_size hgt
    have hmem := msg.size_le
    have hroom : declaredLength (b₀ :: b₁ :: high :: low :: b₄ :: rest) ≤
        (msg.mem.drop 4).length ↔
          4 + declaredLength (b₀ :: b₁ :: high :: low :: b₄ :: rest) ≤ msg.mem.length := by
      rw [List.length_drop]
      omega
    rw [getPublishTopic_of_lt_size hbytes, hbytes]
    change CStringSpan.toString ⟨_, declaredLength (b₀ :: b₁ :: high :: low :: b₄ :: rest)⟩ = _ ↔ _
    rw [CStringSpan.toString]
    simp only [hroom]
    constructor
    · intro h
      split at h
      · rename_i hle
        exact Or.inr ⟨hgt, hle, (Except.ok.inj h).symm⟩
      · cases h
    · rintro (⟨hlt, -⟩ | ⟨-, hle, rfl⟩)
      · omega
      · rw [if_pos hle]

/-! ## The calls of the broker -/

/-- What the server calls the broker for. -/
def brokerCall {C : Type} : C × Request → Option (BrokerCall C)
  | (_, .publish topic bytes) => some (.publish topic bytes)
  | (c, .subscribe _ topics) => some (.subscribe c topics)
  | (c, .unsubscribe _ topics) => some (.unsubscribeTopics c topics)
  | (c, .disconnect) => some (.unsubscribe c)
  | _ => none

/-- The calls that requests lead to. -/
def brokerCalls {C : Type} (requests : List (C × Request)) : List (BrokerCall C) :=
  requests.filterMap brokerCall

section Publish

variable {C : Type} [BoostSplit]

/-! ## Whom a topic reaches -/

/-- The walk of the topic reaches no filter of the entries. -/
def ReachesNobody (live : List (Subscription C)) (topic : Str) : Prop :=
  ∀ e ∈ live, wildcards.Reaches e.levels (split topic) = false

instance (live : List (Subscription C)) (topic : Str) : Decidable (ReachesNobody live topic) :=
  inferInstanceAs (Decidable (∀ e ∈ live, wildcards.Reaches e.levels (split topic) = false))

/-- Then it visits no leaf, and otherwise it does. -/
lemma Refines.visited_eq_nil_iff {b : MqttBroker C} {live : List (Subscription C)}
    (h : Refines b live) (topic : Str) : b.visited topic = [] ↔ ReachesNobody live topic := by
  rw [List.eq_nil_iff_forall_not_mem]
  constructor
  · intro hnone e he
    apply (Bool.not_eq_true _).mp
    exact fun hreaches =>
      hnone e ((Wildcards.Stores.mem_collect_iff wildcards h).mpr ⟨he, hreaches⟩)
  · intro hnobody e he
    obtain ⟨hlive, hreaches⟩ := (Wildcards.Stores.mem_collect_iff wildcards h).mp he
    rw [hnobody e hlive] at hreaches
    cases hreaches

/-- Publishing calls nobody and changes nothing, the cache included, exactly when the walk visits
no leaf. -/
lemma MqttBroker.CacheSound.publish_eq_self_iff {b : MqttBroker C} (h : b.CacheSound) (topic : Str)
    (bytes : Bytes) : b.publish topic bytes = (b, []) ↔ b.visited topic = [] := by
  constructor
  · intro hself
    have hcalls := h.calls_publish topic bytes
    rw [hself] at hcalls
    exact List.map_eq_nil_iff.mp hcalls.symm
  · intro hnone
    by_cases hmem : b.useCache = true ∧ topic ∈ b.cache
    · rw [h.current.publish_of_mem hmem, hnone, List.map_nil]
    · rw [MqttBroker.publish_of_notMem_cache hmem, hnone, List.map_nil, List.foldl_nil, ite_self,
        List.map_nil]

/-! ## The server calls the broker -/

variable [DecidableEq C]

/-- The server after some requests. -/
def afterRequests (useCache : Bool) (requests : List (C × Request)) : MqttServer C :=
  ((serverMachine C).run (.new useCache) requests).1

/-- What a request does to the broker of the server. -/
lemma broker_handle (s : MqttServer C) (i : C × Request) :
    (s.handle i.1 i.2).1.broker =
      ((brokerMachine C).run s.broker (brokerCall i).toList).1 := by
  obtain ⟨c, r⟩ := i
  cases r <;> rfl

/-- The broker of the server has been called for its requests. -/
lemma broker_run (s : MqttServer C) (requests : List (C × Request)) :
    ((serverMachine C).run s requests).1.broker =
      ((brokerMachine C).run s.broker (brokerCalls requests)).1 := by
  induction requests generalizing s with
  | nil => rfl
  | cons i requests ih =>
    have hcalls : brokerCalls (i :: requests) = (brokerCall i).toList ++ brokerCalls requests := by
      rw [brokerCalls, List.filterMap_cons]
      cases brokerCall i <;> rfl
    rw [Machine.run_cons, hcalls, Machine.run_append]
    change ((serverMachine C).run (s.handle i.1 i.2).1 requests).1.broker = _
    rw [ih, broker_handle]

/-- The broker of the server after some requests. -/
lemma broker_afterRequests (useCache : Bool) (requests : List (C × Request)) :
    (afterRequests useCache requests).broker = afterCalls useCache (brokerCalls requests) :=
  broker_run _ requests

/-! ## A malformed PUBLISH -/

/-- The topic that is made up for a message without one, or read from the memory behind it, reaches
nobody; and the process gets that far. -/
def Harmless (live : List (Subscription C)) (msg : Span) : Prop :=
  (msg.size < 4 ∧ ReachesNobody live []) ∨
    (4 < msg.size ∧ 4 + declaredLength msg.bytes ≤ msg.mem.length ∧
      ReachesNobody live ((msg.mem.drop 4).take (declaredLength msg.bytes)))

/-- A PUBLISH is passed on to nobody and leaves the server as it is exactly when a topic is read
that reaches nobody. -/
lemma newMessage_publish_eq_self_iff (useCache : Bool) (requests : List (C × Request)) (c : C)
    {msg : Span} (htype : getMessageType msg = .ok .publish) (beyond : Bytes) :
    (afterRequests useCache requests).newMessage c msg beyond =
        .ok (afterRequests useCache requests, []) ↔
      ∃ topic, (getPublishTopic msg >>= CStringSpan.toString) = .ok topic ∧
        ReachesNobody (liveEntries (brokerCalls requests)) topic := by
  have hbroker := broker_afterRequests useCache requests
  have hrefines := refines_afterCalls useCache (brokerCalls requests)
  have hsound := cacheSound_afterCalls useCache (brokerCalls requests)
  rw [← hbroker] at hrefines hsound
  generalize afterRequests useCache requests = s at hrefines hsound
  rw [s.newMessage_eq, readRequest_eq_of_publish htype]
  cases getPublishTopic msg >>= CStringSpan.toString with
  | error e =>
    constructor
    · intro h
      cases h
    · rintro ⟨topic, h, -⟩
      cases h
  | ok topic =>
    have hself : s.handle c (.publish topic msg.bytes) = (s, []) ↔
        s.broker.publish topic msg.bytes = (s.broker, []) := by
      obtain ⟨b⟩ := s
      constructor
      · intro h
        have hcalls := List.map_eq_nil_iff.mp (congrArg Prod.snd h)
        have hstate := congrArg (fun p => p.1.broker) h
        exact Prod.ext hstate hcalls
      · intro h
        rw [MqttServer.handle, h]
        rfl
    change Except.ok (s.handle c (.publish topic msg.bytes)) = .ok (s, []) ↔ _
    rw [Except.ok.injEq, hself, hsound.publish_eq_self_iff, hrefines.visited_eq_nil_iff]
    constructor
    · exact fun h => ⟨topic, rfl, h⟩
    · rintro ⟨topic', htopic, h⟩
      obtain rfl := Except.ok.inj htopic
      exact h

/-- **When a malformed PUBLISH reaches nobody.**  In every state that requests lead to, a PUBLISH,
with a complete topic or without, calls nobody and leaves the subscriptions and the cache as they
are if and only if the topic that is made up for it, or read from its bytes and from behind them,
reaches no filter. -/
theorem newMessage_malformed_iff (useCache : Bool) (requests : List (C × Request)) (c : C)
    {msg : Span} (htype : getMessageType msg = .ok .publish) (beyond : Bytes) :
    (afterRequests useCache requests).newMessage c msg beyond =
        .ok (afterRequests useCache requests, []) ↔
      Harmless (liveEntries (brokerCalls requests)) msg := by
  rw [newMessage_publish_eq_self_iff useCache requests c htype beyond, Harmless]
  constructor
  · rintro ⟨topic, htopic, hnobody⟩
    rcases readTopic_eq_ok_iff.mp htopic with ⟨hlt, rfl⟩ | ⟨hgt, hle, rfl⟩
    · exact Or.inl ⟨hlt, hnobody⟩
    · exact Or.inr ⟨hgt, hle, hnobody⟩
  · rintro (⟨hlt, hnobody⟩ | ⟨hgt, hle, hnobody⟩)
    · exact ⟨_, readTopic_eq_ok_iff.mpr (Or.inl ⟨hlt, rfl⟩), hnobody⟩
    · exact ⟨_, readTopic_eq_ok_iff.mpr (Or.inr ⟨hgt, hle, rfl⟩), hnobody⟩

end Publish

/-- A PUBLISH of two bytes reaches nobody if the only filter is "a". -/
theorem newMessage_malformed_iff_two_bytes :
    let _ := boostSplit
    let requests : List (ℕ × Request) := [(1, .subscribe 7 [{ topic := [97] }])]
    LacksTopic (.ofBytes [0x30, 0]) ∧
      (afterRequests true requests).newMessage 2 (.ofBytes [0x30, 0]) [] =
        .ok (afterRequests true requests, []) := by
  let _ := boostSplit
  refine ⟨Or.inl (by decide), (newMessage_malformed_iff true _ 2 (by decide) []).mpr ?_⟩
  exact Or.inl ⟨by decide, by decide +kernel⟩

/-- It is passed on to who has the filter "#". -/
theorem malformed_publish_reaches_hash :
    let _ := boostSplit
    let s : MqttServer ℕ := afterRequests false [(1, .subscribe 7 [{ topic := [35] }])]
    getMessageType (.ofBytes [0x30, 0]) = .ok .publish ∧ LacksTopic (.ofBytes [0x30, 0]) ∧
      (s.newMessage 2 (.ofBytes [0x30, 0]) []).map Prod.snd = .ok [.newMessage 1 [0x30, 0]] ∧
        s.newMessage 2 (.ofBytes [0x30, 0]) [] ≠ .ok (s, []) := by
  let _ := boostSplit
  have hcall : ((afterRequests false [(1, .subscribe 7 [{ topic := [35] }])]).newMessage 2
      (.ofBytes [0x30, 0]) []).map Prod.snd = .ok [.newMessage 1 [0x30, 0]] := by
    decide +kernel
  refine ⟨by decide, Or.inl (by decide), hcall, fun h => ?_⟩
  rw [h] at hcall
  cases hcall

end MqttCpp
