import MqttCpp.Broker.Repeated

/-!
# The shape of the tree

`subscribe` creates the nodes of a filter, `unsubscribe` empties nodes but removes none, and
`publish` leaves the tree alone.  So the tree has a node for every prefix of every filter that has
ever been subscribed to, and no other, whoever is still subscribed.
-/

namespace MqttCpp

/-- `unsubscribe` keeps every node. -/
lemma hasNode_unsubscribeTopics {S : Type} [DecidableEq S] (b : MqttBroker S) (s : S)
    (topics : List Str) (path : List Str) :
    (b.unsubscribeTopics s topics).tree.HasNode path ↔ b.tree.HasNode path := by
  rw [MqttBroker.tree_unsubscribeTopics]
  exact PrefixTree.hasNode_filterValues _ _ _

variable {S : Type} [BoostSplit]

/-- Adding leaves adds the nodes on the way to them. -/
lemma hasNode_foldl_addLeaf (tree : Node S) (s : S) (topics : List Str) (path : List Str) :
    (topics.foldl (MqttBroker.addLeaf s) tree).HasNode path ↔
      tree.HasNode path ∨ ∃ topic ∈ topics, path <+: split topic := by
  induction topics generalizing tree with
  | nil => simp
  | cons topic topics ih =>
    rw [List.foldl_cons, ih, MqttBroker.addLeaf, addOrFindNode_eq_alterAt,
      PrefixTree.hasNode_alterAt_push]
    simp [or_assoc]

/-- `subscribe` adds the nodes of the filters. -/
lemma hasNode_subscribe (b : MqttBroker S) (s : S) (topics : List MqttSubscribe.Topic)
    (path : List Str) :
    (b.subscribe s topics).tree.HasNode path ↔
      b.tree.HasNode path ∨ ∃ t ∈ topics, path <+: split t.topic := by
  rw [MqttBroker.tree_subscribe, hasNode_foldl_addLeaf]
  simp

variable [DecidableEq S]

/-- **A call adds the nodes of the filters that it subscribes to**, and removes none. -/
theorem hasNode_call (b : MqttBroker S) (c : BrokerCall S) (path : List Str) :
    (b.call c).1.tree.HasNode path ↔
      b.tree.HasNode path ∨ ∃ e ∈ c.adds, path <+: e.levels := by
  cases c with
  | subscribe s topics =>
    simpa [MqttBroker.call, BrokerCall.adds, Subscription.levels] using
      hasNode_subscribe b s topics path
  | subscribeStrings s topics =>
    simpa [MqttBroker.call, MqttBroker.subscribeStrings, BrokerCall.adds, Subscription.levels]
      using hasNode_subscribe b s (topics.map fun t => { topic := t, qos := 0 }) path
  | unsubscribe s =>
    simpa [MqttBroker.call, MqttBroker.unsubscribe, BrokerCall.adds] using
      hasNode_unsubscribeTopics b s [] path
  | unsubscribeTopics s topics =>
    simpa [MqttBroker.call, BrokerCall.adds] using hasNode_unsubscribeTopics b s topics path
  | publish topic bytes => simp [MqttBroker.call, BrokerCall.adds]

/-- Some calls add the nodes of all the filters that they subscribe to. -/
lemma hasNode_run (b : MqttBroker S) (calls : List (BrokerCall S)) (path : List Str) :
    ((brokerMachine S).run b calls).1.tree.HasNode path ↔
      b.tree.HasNode path ∨ ∃ e ∈ calls.flatMap BrokerCall.adds, path <+: e.levels := by
  induction calls generalizing b with
  | nil => simp
  | cons c calls ih =>
    rw [Machine.run_cons, ih]
    change (b.call c).1.tree.HasNode path ∨ _ ↔ _
    rw [hasNode_call, List.flatMap_cons, or_assoc]
    simp only [List.mem_append, or_and_right, exists_or]

/-- **The tree after any calls.**  It has one node for every prefix of a filter that has ever been
subscribed to, the root included, and no others; the leaves at a node are the live entries with just
that filter, in the order in which they have been subscribed to. -/
theorem tree_afterCalls (useCache : Bool) (calls : List (BrokerCall S)) :
    let tree := (afterCalls useCache calls).tree
    tree.paths.Nodup ∧
      (∀ path, path ∈ tree.paths ↔
        path = [] ∨ ∃ e ∈ calls.flatMap BrokerCall.adds, path <+: e.levels) ∧
      ∀ path, tree.valuesAt path = (liveEntries calls).filter fun e => e.levels = path := by
  intro tree
  have hdistinct : tree.Distinct := (afterCalls useCache calls).tree_distinct
  refine ⟨PrefixTree.nodup_paths hdistinct, fun path => ?_, refines_afterCalls useCache calls⟩
  rw [PrefixTree.mem_paths_iff hdistinct]
  have hnew : (MqttBroker.new useCache : MqttBroker S).tree.HasNode path ↔ path = [] :=
    PrefixTree.hasNode_empty_iff
  rw [← hnew]
  exact hasNode_run _ _ _

end MqttCpp
