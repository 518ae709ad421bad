import MqttCpp.Library.Machine
import MqttCpp.Library.Wildcard
import MqttCpp.Message.Message
import Mathlib.Data.List.AList

/-!
# The broker

`src/broker.hpp`.  Subscriptions live at the nodes of a tree whose edges are the levels of topic
filters; a published topic is walked along the tree.  With `useCache` the broker remembers, for a
topic it has published, the subscribers that the walk called.

A subscriber is a pointer, here any type with decidable equality.  `newMessage` of a subscriber
is a call to the outside: publishing returns the calls in the order in which they are made.
`boost::split` belongs to a library, so the model takes it as a parameter.
-/

namespace MqttCpp

/-- The separator of levels. -/
def slash : UInt8 := 47

/-- The wildcard levels of topic filters. -/
def wildcards : Wildcards Str where
  plus := [43]
  hash := [35]
  plus_ne_hash := by decide

/-- `boost::split(parts, s, boost::is_any_of("/"))`: it cuts a string at every separator. -/
class BoostSplit where
  /-- The parts. -/
  split : Str → List Str
  /-- The parts with the separators between them are the string. -/
  intercalate_split : ∀ s, [slash].intercalate (split s) = s
  /-- A string with `n` separators has `n + 1` parts. -/
  length_split : ∀ s, (split s).length = s.count slash + 1

export BoostSplit (split)

/-- Splitting as the laws ask for it. -/
@[reducible] def boostSplit : BoostSplit where
  split := List.splitOn slash
  intercalate_split _ := List.intercalate_splitOn slash
  length_split s := by
    induction s with
    | nil => rfl
    | cons b s ih =>
      rw [List.splitOn_cons_eq_if_modifyHead, List.count_cons]
      by_cases h : b == slash
      · rw [if_pos h, if_pos h, List.length_cons, ih]
      · rw [if_neg h, if_neg h, List.length_modifyHead, ih, Nat.add_zero]

/-- A string has at least one part, if an empty one. -/
lemma split_ne_nil [BoostSplit] (s : Str) : split s ≠ [] := by
  intro h
  have hlen := BoostSplit.length_split s
  rw [h, List.length_nil] at hlen
  omega

variable {S : Type}

/-- `Subscription`. -/
structure Subscription (S : Type) where
  subscriber : S
  topic : Str
  deriving DecidableEq, Repr

/-- `Subscription::isSubscriber`. -/
def Subscription.isSubscriber [DecidableEq S] (a : Subscription S) (sub : S)
    (topics : List Str) : Bool :=
  let isSameTopic := topics.length = 0 ∨ a.topic ∈ topics
  decide (isSameTopic ∧ a.subscriber = sub)

/-- `MqttBroker::Node`: its children, and the subscriptions in `leaves`. -/
abbrev Node (S : Type) := PrefixTree Str (Subscription S)

/-- `MqttBroker::addOrFindNode`, followed by `update` of the node it returns. -/
def addOrFindNode (update : Node S → Node S) (tree : Node S) : List Str → Node S
  | [] => update tree
  | part :: parts =>
    -- create if not already here
    let child := (tree.child part).getD .empty
    tree.setChild part (addOrFindNode update child parts)

/-- Finding the node of a path and updating it is updating the tree at that path. -/
lemma addOrFindNode_eq_alterAt (update : Node S → Node S) (tree : Node S) (parts : List Str) :
    addOrFindNode update tree parts = PrefixTree.alterAt update tree parts := by
  induction parts generalizing tree with
  | nil => rfl
  | cons part parts ih => rw [addOrFindNode, ih, PrefixTree.alterAt]

/-- `MqttBroker::unsubscribeImpl`: at every node, keep the leaves of others. -/
def unsubscribeImpl [DecidableEq S] (tree : Node S) (subscriber : S) (topics : List Str) :
    Node S :=
  tree.filterValues fun a => !a.isSubscriber subscriber topics

/-- `MqttBroker`. -/
structure MqttBroker (S : Type) where
  useCache : Bool
  cache : AList fun _ : Str => List S
  tree : Node S
  /-- The children of a node are a map: a key occurs once. -/
  tree_distinct : tree.Distinct

/-! ## Publishing -/

/-- What `publish` changes: the cache, and the calls of `newMessage` made so far. -/
structure Publishing (S : Type) where
  cache : AList fun _ : Str => List S
  calls : List (S × Bytes) := []

/-- A computation that makes calls and fills the cache. -/
abbrev PublishM (S : Type) := StateM (Publishing S)

/-- The body of the loop in `publishNode`: call the subscriber, and remember it. -/
def publishSubscription (useCache : Bool) (topic : Str) (bytes : Bytes)
    (subscription : Subscription S) : PublishM S Unit := do
  modify fun p => { p with calls := p.calls ++ [(subscription.subscriber, bytes)] }
  if useCache then
    modify fun p => { p with
      cache := p.cache.insert topic
        ((p.cache.lookup topic).getD [] ++ [subscription.subscriber]) }

/-- `MqttBroker::publishNode`. -/
def publishNode (useCache : Bool) (topic : Str) (bytes : Bytes) (node : Node S) :
    PublishM S Unit :=
  forM node.values (publishSubscription useCache topic bytes)

/-- The two calls of `publishNode` in the loop of `publishImpl`, at the node that was found under
`part` when `pubParts` remain. -/
def publishFound (useCache : Bool) (topic : Str) (bytes : Bytes) (pubParts : List Str)
    (part : Str) (node : Node S) : PublishM S Unit := do
  if pubParts = [] ∨ part = wildcards.hash then publishNode useCache topic bytes node
  if pubParts = [] then
    -- so that "finance/#" matches "finance"
    match node.child wildcards.hash with
    | none => return ()
    | some child => publishNode useCache topic bytes child

/-- `MqttBroker::publishImpl`. -/
def publishImpl (useCache : Bool) (topic : Str) (bytes : Bytes) :
    Node S → List Str → PublishM S Unit
  | _, [] => return ()
  | tree, front :: pubParts =>
    forM [front, wildcards.hash, wildcards.plus] fun part =>
      match tree.child part with
      | none => return ()
      | some node => do
        publishFound useCache topic bytes pubParts part node
        publishImpl useCache topic bytes node pubParts

namespace MqttBroker

/-- The constructor of `MqttBroker`. -/
def new (useCache : Bool) : MqttBroker S where
  useCache := useCache
  cache := ∅
  tree := .empty
  tree_distinct := PrefixTree.distinct_empty

/-- `MqttBroker::invalidateCache`. -/
def invalidateCache (b : MqttBroker S) : MqttBroker S :=
  if b.useCache then { b with cache := ∅ } else b

/-- The body of the loop in `subscribe`: add a leaf to the node of the topic. -/
def addLeaf [BoostSplit] (subscriber : S) (tree : Node S) (topic : Str) : Node S :=
  addOrFindNode (PrefixTree.push { subscriber, topic }) tree (split topic)

/-- Adding a leaf keeps the children of every node distinct. -/
lemma distinct_addLeaf [BoostSplit] {tree : Node S} (h : tree.Distinct) (subscriber : S)
    (topic : Str) : (addLeaf subscriber tree topic).Distinct := by
  rw [addLeaf, addOrFindNode_eq_alterAt]
  exact h.alterAt (fun _ ht => ht.push _) _

/-- Adding leaves keeps the children of every node distinct. -/
lemma distinct_foldl_addLeaf [BoostSplit] {tree : Node S} (h : tree.Distinct) (subscriber : S)
    (topics : List Str) : (topics.foldl (addLeaf subscriber) tree).Distinct := by
  induction topics generalizing tree with
  | nil => exact h
  | cons topic topics ih => exact ih (distinct_addLeaf h subscriber topic)

/-- `MqttBroker::subscribe` of topics with their qos, which is not looked at. -/
def subscribe [BoostSplit] (b : MqttBroker S) (subscriber : S)
    (topics : List MqttSubscribe.Topic) : MqttBroker S where
  useCache := b.invalidateCache.useCache
  cache := b.invalidateCache.cache
  tree := (topics.map (·.topic)).foldl (addLeaf subscriber) b.invalidateCache.tree
  tree_distinct := distinct_foldl_addLeaf b.invalidateCache.tree_distinct subscriber _

/-- `MqttBroker::subscribe` of topics as strings. -/
def subscribeStrings [BoostSplit] (b : MqttBroker S) (subscriber : S) (topics : List Str) :
    MqttBroker S :=
  b.subscribe subscriber (topics.map fun t => { topic := t, qos := 0 })

/-- `MqttBroker::publish`, with the calls it makes. -/
def publish [BoostSplit] (b : MqttBroker S) (topic : Str) (bytes : Bytes) :
    MqttBroker S × List (S × Bytes) :=
  if b.useCache = true ∧ topic ∈ b.cache then
    (b, ((b.cache.lookup topic).getD []).map fun subscriber => (subscriber, bytes))
  else
    let p := (publishImpl b.useCache topic bytes b.tree (split topic)
      { cache := b.cache : Publishing S }).2
    ({ b with cache := p.cache }, p.calls)

@[simp] lemma tree_invalidateCache (b : MqttBroker S) : b.invalidateCache.tree = b.tree := by
  unfold invalidateCache
  split <;> rfl

@[simp] lemma useCache_invalidateCache (b : MqttBroker S) :
    b.invalidateCache.useCache = b.useCache := by
  unfold invalidateCache
  split <;> rfl

/-- With a cache, invalidating forgets everything. -/
lemma cache_invalidateCache {b : MqttBroker S} (h : b.useCache = true) :
    b.invalidateCache.cache = ∅ := by
  rw [invalidateCache, if_pos h]

/-- The tree after `subscribe`. -/
lemma tree_subscribe [BoostSplit] (b : MqttBroker S) (s : S)
    (topics : List MqttSubscribe.Topic) :
    (b.subscribe s topics).tree = (topics.map (·.topic)).foldl (addLeaf s) b.tree := by
  change (topics.map (·.topic)).foldl (addLeaf s) b.invalidateCache.tree = _
  rw [tree_invalidateCache]

/-! ### Unsubscribing -/

variable [DecidableEq S]

/-- `MqttBroker::unsubscribe` from the topics that are listed. -/
def unsubscribeTopics (b : MqttBroker S) (subscriber : S) (topics : List Str) :
    MqttBroker S where
  useCache := b.invalidateCache.useCache
  cache := b.invalidateCache.cache
  tree := unsubscribeImpl b.invalidateCache.tree subscriber topics
  tree_distinct := b.invalidateCache.tree_distinct.filterValues _

/-- `MqttBroker::unsubscribe` from everything. -/
def unsubscribe (b : MqttBroker S) (subscriber : S) : MqttBroker S :=
  b.unsubscribeTopics subscriber []

/-- The tree after `unsubscribe`. -/
lemma tree_unsubscribeTopics (b : MqttBroker S) (s : S) (topics : List Str) :
    (b.unsubscribeTopics s topics).tree = unsubscribeImpl b.tree s topics := by
  change unsubscribeImpl b.invalidateCache.tree s topics = _
  rw [tree_invalidateCache]

end MqttBroker

/-! ## Runs -/

/-- A call of one of the public functions of the broker. -/
inductive BrokerCall (S : Type) where
  | subscribe (subscriber : S) (topics : List MqttSubscribe.Topic)
  | subscribeStrings (subscriber : S) (topics : List Str)
  | unsubscribe (subscriber : S)
  | unsubscribeTopics (subscriber : S) (topics : List Str)
  | publish (topic : Str) (bytes : Bytes)

/-- Make a call. -/
def MqttBroker.call [BoostSplit] [DecidableEq S] (b : MqttBroker S) :
    BrokerCall S → MqttBroker S × List (S × Bytes)
  | .subscribe s topics => (b.subscribe s topics, [])
  | .subscribeStrings s topics => (b.subscribeStrings s topics, [])
  | .unsubscribe s => (b.unsubscribe s, [])
  | .unsubscribeTopics s topics => (b.unsubscribeTopics s topics, [])
  | .publish topic bytes => b.publish topic bytes

/-- The broker as a machine that is called, and calls `newMessage` of its subscribers. -/
def brokerMachine (S : Type) [BoostSplit] [DecidableEq S] :
    Machine (MqttBroker S) (BrokerCall S) (S × Bytes) where
  step := MqttBroker.call

end MqttCpp
