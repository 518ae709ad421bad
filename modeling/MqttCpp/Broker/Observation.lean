import MqttCpp.Broker.Deliveries
import MqttCpp.Broker.Noninterference

/-!
# What a subscriber can observe

A subscriber sees of the broker what its `newMessage` is called with.  Whatever is called from now
on, what it will see is decided by its own live entries, each counted as often as it has been
subscribed to and not been unsubscribed from; and no less decides it.  Two calls, of
`unsubscribe` and of `publish`, are enough to find out how often an entry is live
(`receivesFrom_probe`).
-/

namespace MqttCpp

/-- A list of equal elements has one order only. -/
lemma eq_of_perm_of_forall_eq {α : Type} {as bs : List α} (h : as.Perm bs)
    (heq : ∀ a ∈ as, ∀ b ∈ as, a = b) : as = bs := by
  cases as with
  | nil => exact (List.nil_perm.mp h).symm
  | cons a as =>
    have hall : a :: as = List.replicate (as.length + 1) a :=
      List.eq_replicate_of_mem fun b hb => (heq a List.mem_cons_self b hb).symm
    rw [hall] at h ⊢
    exact (List.perm_replicate.mp h.symm).symm

/-- Two filters with the same levels are the same filter. -/
lemma split_injective [BoostSplit] {s t : Str} (h : split s = split t) : s = t := by
  rw [← BoostSplit.intercalate_split s, h, BoostSplit.intercalate_split]

variable {S : Type} [DecidableEq S] [BoostSplit]

/-- Any topic visits every live entry as often as its walk meets the filter, in some order. -/
lemma Refines.visited_perm {b : MqttBroker S} {live : List (Subscription S)} (h : Refines b live)
    (topic : Str) :
    (b.visited topic).Perm
      (live.flatMap fun e => List.replicate (wildcards.arrivals e.levels (split topic)) e) := by
  rw [List.perm_iff_count]
  intro e
  rw [Wildcards.count_flatMap_replicate]
  exact Wildcards.Stores.count_collect_eq_mul wildcards h (split topic) e

/-- What a subscriber receives from a broker, in the state it is in, when calls are made. -/
def receivesFrom (B : S) (b : MqttBroker S) (calls : List (BrokerCall S)) : List Bytes :=
  (((brokerMachine S).run b calls).2.filter fun call => call.1 = B).map Prod.snd

/-! ## The live entries are enough -/

/-- With the same live entries of a subscriber, two brokers seem the same to it: the entries at one
node are copies of one entry. -/
lemma seemsSame_of_perm {B : S} {b b' : MqttBroker S} {live live' : List (Subscription S)}
    (h : Refines b live) (h' : Refines b' live') (hsound : b.CacheSound) (hsound' : b'.CacheSound)
    (hperm : (live.filter fun e => e.subscriber = B).Perm
      (live'.filter fun e => e.subscriber = B)) : SeemsSame B b b' where
  entriesAt_eq path := by
    have hvalues : ∀ {b : MqttBroker S} {live : List (Subscription S)}, Refines b live →
        entriesAt b.tree B path =
          (live.filter fun e => e.subscriber = B).filter fun e => e.levels = path := by
      intro b live hb
      rw [entriesAt, hb path, List.filter_filter, List.filter_filter]
      exact List.filter_congr fun e _ => Bool.and_comm _ _
    rw [hvalues h, hvalues h']
    apply eq_of_perm_of_forall_eq (hperm.filter _)
    intro e he e' he'
    simp only [List.mem_filter, decide_eq_true_eq] at he he'
    obtain ⟨⟨-, hs⟩, hpath⟩ := he
    obtain ⟨⟨-, hs'⟩, hpath'⟩ := he'
    have htopic : e.topic = e'.topic := split_injective (hpath.trans hpath'.symm)
    cases e
    cases e'
    simp_all
  cacheSound := hsound
  cacheSound' := hsound'

/-- What seems the same now does so after any calls. -/
lemma SeemsSame.receivesFrom_eq {B : S} {b b' : MqttBroker S} (h : SeemsSame B b b')
    (calls : List (BrokerCall S)) : receivesFrom B b calls = receivesFrom B b' calls := by
  have hrun := Machine.run_simulation_of (M := brokerMachine S) (N := brokerMachine S)
    (R := SeemsSame B)
    (T := fun os os' => (os.filter fun call => call.1 = B) = os'.filter fun call => call.1 = B)
    rfl (fun os ps os' ps' ho hp => by rw [List.filter_append, List.filter_append, ho, hp])
    (fun b b' c _ hb => hb.call c) h (fun _ _ => trivial : ∀ c ∈ calls, True)
  exact congrArg (List.map Prod.snd) hrun.2

/-! ## And no less -/

/-- The calls that find out how often a subscriber has an entry: unsubscribe from others, then
publish the filter itself as a topic. -/
def probe (B : S) (topic : Str) (others : List Str) (bytes : Bytes) : List (BrokerCall S) :=
  [.unsubscribeTopics B others, .publish topic bytes]

/-- **The probe counts.**  Once all other entries of the subscriber are gone, publishing the filter
calls it for every copy of the entry, as often as the walk of the filter meets the filter. -/
lemma receivesFrom_probe {b : MqttBroker S} {live : List (Subscription S)} (h : Refines b live)
    (hsound : b.CacheSound) {B : S} {topic : Str} {others : List Str} (hne : others ≠ [])
    (hnot : topic ∉ others)
    (hothers : ∀ e ∈ live, e.subscriber = B → e.topic ≠ topic → e.topic ∈ others) (bytes : Bytes) :
    receivesFrom B b (probe B topic others bytes) =
      List.replicate (wildcards.arrivals (split topic) (split topic) *
        live.count { subscriber := B, topic := topic }) bytes := by
  have hrefines := h.unsubscribeTopics B others
  have hcalls := (hsound.unsubscribeTopics B others).calls_publish topic bytes
  set b' := b.unsubscribeTopics B others
  set live' := live.filter fun e => ¬(e.subscriber = B ∧ (others = [] ∨ e.topic ∈ others))
    with hlive'
  have hreceives : receivesFrom B b (probe B topic others bytes) =
      ((b'.publish topic bytes).2.filter fun call => call.1 = B).map Prod.snd := by
    change ((([] : List (S × Bytes)) ++ ((b'.publish topic bytes).2 ++ [])).filter _).map _ = _
    rw [List.nil_append, List.append_nil]
  -- whoever is left of the subscriber is a copy of the entry
  have hcopies : ∀ e ∈ b'.visited topic,
      decide (e.subscriber = B) = true ↔ (e == { subscriber := B, topic := topic }) = true := by
    intro e he
    have hmem : e ∈ live' := Wildcards.Stores.mem_of_mem_collect wildcards hrefines he
    rw [hlive', List.mem_filter, decide_eq_true_eq] at hmem
    rw [decide_eq_true_eq, beq_iff_eq]
    constructor
    · rintro rfl
      have htopic : e.topic = topic := by
        by_contra hother
        exact hmem.2 ⟨rfl, Or.inr (hothers e hmem.1 rfl hother)⟩
      rw [← htopic]
    · rintro rfl
      rfl
  have hcount : live'.count { subscriber := B, topic := topic } =
      live.count { subscriber := B, topic := topic } := by
    apply List.count_filter
    simp [hne, hnot]
  have hlength : ((b'.visited topic).filter fun e => e.subscriber = B).length =
      wildcards.arrivals (split topic) (split topic) *
        live.count { subscriber := B, topic := topic } := by
    calc ((b'.visited topic).filter fun e => e.subscriber = B).length
        = (b'.visited topic).count { subscriber := B, topic := topic } := by
          rw [← List.countP_eq_length_filter, List.countP_congr hcopies, List.count]
      _ = wildcards.arrivals (split topic) (split topic) *
            live'.count { subscriber := B, topic := topic } :=
          Wildcards.Stores.count_collect_eq_mul wildcards hrefines (split topic)
            { subscriber := B, topic := topic }
      _ = _ := by rw [hcount]
  rw [hreceives, hcalls, filter_map_calls, List.map_map]
  change List.map (fun _ => bytes) _ = _
  rw [List.map_const', hlength]

/-- **What a subscriber can observe** of a broker are its own live entries, in no order.  After any
two sequences of calls, to brokers with or without a cache, the subscriber receives the same byte
strings in the same order whatever is called next, if and only if the same entries of it are live,
each as often. -/
theorem indistinguishable_iff (B : S) (useCache useCache' : Bool)
    (calls calls' : List (BrokerCall S)) :
    (∀ later, receivesFrom B (afterCalls useCache calls) later =
        receivesFrom B (afterCalls useCache' calls') later) ↔
      ((liveEntries calls).filter fun e => e.subscriber = B).Perm
        ((liveEntries calls').filter fun e => e.subscriber = B) := by
  have hrefines := refines_afterCalls useCache calls
  have hrefines' := refines_afterCalls useCache' calls'
  have hsound := cacheSound_afterCalls useCache calls
  have hsound' := cacheSound_afterCalls useCache' calls'
  constructor
  · intro hsame
    rw [List.perm_iff_count]
    intro e
    by_cases hB : e.subscriber = B
    · -- unsubscribe from every other filter, and from one that nobody can mix up with this one
      let others := (e.topic ++ [0]) ::
        ((liveEntries calls ++ liveEntries calls').map (·.topic)).filter (· ≠ e.topic)
      have hnot : e.topic ∉ others := by simp [others]
      have hothers : ∀ e' ∈ liveEntries calls ++ liveEntries calls',
          e'.topic ≠ e.topic → e'.topic ∈ others := by
        intro e' he' hne
        apply List.mem_cons_of_mem
        exact List.mem_filter.mpr ⟨List.mem_map_of_mem he', by simpa using hne⟩
      have hprobe := hsame (probe B e.topic others [])
      rw [receivesFrom_probe hrefines hsound (List.cons_ne_nil _ _) hnot
          (fun e' he' _ hne => hothers e' (List.mem_append_left _ he') hne),
        receivesFrom_probe hrefines' hsound' (List.cons_ne_nil _ _) hnot
          (fun e' he' _ hne => hothers e' (List.mem_append_right _ he') hne)] at hprobe
      have hlengths := congrArg List.length hprobe
      rw [List.length_replicate, List.length_replicate] at hlengths
      have hmeets : 0 < wildcards.arrivals (split e.topic) (split e.topic) :=
        wildcards.arrivals_pos_iff.mpr (wildcards.reaches_self (split_ne_nil e.topic))
      have hcount := Nat.eq_of_mul_eq_mul_left hmeets hlengths
      have he : ({ subscriber := B, topic := e.topic } : Subscription S) = e := by rw [← hB]
      rw [he] at hcount
      rw [List.count_filter (by simpa using hB), List.count_filter (by simpa using hB), hcount]
    · have hnone : ∀ live : List (Subscription S),
          e ∉ live.filter fun e => e.subscriber = B := by simp [hB]
      rw [List.count_eq_zero.mpr (hnone _), List.count_eq_zero.mpr (hnone _)]
  · intro hperm later
    exact (seemsSame_of_perm hrefines hrefines' hsound hsound' hperm).receivesFrom_eq later

end MqttCpp
