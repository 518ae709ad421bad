import MqttCpp.Broker.Broker

/-!
# What a published topic calls

The walk of `publishImpl` calls the subscribers of the subscriptions that `Wildcards.collect`
lists, in that order, and remembers them under the topic if there is a cache.  The results about
publishing rest on `publishImpl_run` and `publish_of_notMem_cache`, not on the walk itself.
-/

namespace MqttCpp

variable {S : Type}

/-! ## The walk as one loop -/

/-- The calls at a node the walk has found are one loop over its subscriptions and, at the end of
the topic, those of its child `#`. -/
lemma publishFound_eq_forM (useCache : Bool) (topic : Str) (bytes : Bytes) (pubParts : List Str)
    (part : Str) (node : Node S) :
    publishFound useCache topic bytes pubParts part node =
      forM ((if pubParts = [] ∨ part = wildcards.hash then node.values else []) ++
          (if pubParts = [] then node.valuesAt [wildcards.hash] else []))
        (publishSubscription useCache topic bytes) := by
  have hchild : node.valuesAt [wildcards.hash] =
      ((node.child wildcards.hash).map (·.values)).getD [] := by
    rw [PrefixTree.valuesAt_cons]
    simp
  rw [List.forM_append, publishFound, hchild]
  by_cases hrest : pubParts = []
  · cases node.child wildcards.hash with
    | none => simp [hrest, publishNode]
    | some child => simp [hrest, publishNode]
  · by_cases hpart : part = wildcards.hash
    · simp [hrest, hpart, publishNode]
    · simp [hrest, hpart]

/-- One level of the walk: the part itself, `#` and `+` are looked up in turn. -/
lemma publishImpl_cons (useCache : Bool) (topic : Str) (bytes : Bytes) (tree : Node S)
    (front : Str) (pubParts : List Str) :
    publishImpl useCache topic bytes tree (front :: pubParts) =
      forM [front, wildcards.hash, wildcards.plus] fun part =>
        (tree.child part).elim (pure ()) fun node => (do
          publishFound useCache topic bytes pubParts part node
          publishImpl useCache topic bytes node pubParts) := by
  rw [publishImpl]
  apply congrArg (forM _)
  funext part
  cases tree.child part with
  | none => rfl
  | some node => rfl

/-- **The walk of `publishImpl`** is a loop over the subscriptions it collects. -/
theorem publishImpl_eq_forM (useCache : Bool) (topic : Str) (bytes : Bytes) (tree : Node S)
    (pubParts : List Str) :
    publishImpl useCache topic bytes tree pubParts =
      forM (wildcards.collect tree pubParts) (publishSubscription useCache topic bytes) := by
  induction pubParts generalizing tree with
  | nil => rfl
  | cons front pubParts ih =>
    have hpart : ∀ part : Str,
        ((tree.child part).elim (pure ()) fun node => do
            publishFound useCache topic bytes pubParts part node
            publishImpl useCache topic bytes node pubParts) =
          forM ((wildcards.routesBelow pubParts part).flatMap tree.valuesAt)
            (publishSubscription useCache topic bytes) := by
      intro part
      cases h : tree.child part with
      | none =>
        rw [Wildcards.flatMap_routesBelow_of_child_eq_none _ h]
        rfl
      | some node =>
        rw [Option.elim_some, Wildcards.flatMap_routesBelow_of_child_eq_some _ h,
          List.forM_append, ← publishFound_eq_forM, ← ih]
    rw [publishImpl_cons]
    calc
      _ = forM [front, wildcards.hash, wildcards.plus] fun part =>
            forM ((wildcards.routesBelow pubParts part).flatMap tree.valuesAt)
              (publishSubscription useCache topic bytes) := congrArg (forM _) (funext hpart)
      _ = _ := by
        rw [Wildcards.collect, Wildcards.routes_cons, List.flatMap_append, List.flatMap_append,
          List.forM_append, List.forM_append, List.forM_cons, List.forM_cons, List.forM_cons,
          List.forM_nil, bind_pure_unit]

/-! ## What the loop does -/

/-- The cache after it has remembered one more subscriber for a topic. -/
def rememberOne (topic : Str) (cache : AList fun _ : Str => List S) (subscriber : S) :
    AList fun _ : Str => List S :=
  cache.insert topic ((cache.lookup topic).getD [] ++ [subscriber])

/-- The body of the loop calls the subscriber and remembers it if there is a cache. -/
lemma publishSubscription_run (useCache : Bool) (topic : Str) (bytes : Bytes)
    (e : Subscription S) (p : Publishing S) :
    publishSubscription useCache topic bytes e p =
      ((), { cache := if useCache then rememberOne topic p.cache e.subscriber else p.cache
             calls := p.calls ++ [(e.subscriber, bytes)] }) := by
  cases useCache <;> rfl

/-- The walk makes one call for every subscription it collects, in order, and remembers the
subscribers if there is a cache. -/
theorem publishImpl_run (useCache : Bool) (topic : Str) (bytes : Bytes) (tree : Node S)
    (pubParts : List Str) (p : Publishing S) :
    publishImpl useCache topic bytes tree pubParts p =
      ((), { cache := if useCache then
               ((wildcards.collect tree pubParts).map (·.subscriber)).foldl (rememberOne topic)
                 p.cache
               else p.cache
             calls := p.calls ++
               (wildcards.collect tree pubParts).map fun e => (e.subscriber, bytes) }) := by
  rw [publishImpl_eq_forM]
  induction wildcards.collect tree pubParts generalizing p with
  | nil =>
    rw [List.map_nil, List.map_nil, List.append_nil, List.foldl_nil, ite_self]
    rfl
  | cons e es ih =>
    rw [List.forM_cons]
    change forM es (publishSubscription useCache topic bytes)
      (publishSubscription useCache topic bytes e p).2 = _
    rw [publishSubscription_run, ih, List.append_assoc]
    cases useCache <;> rfl

/-- What remembering a list of subscribers adds for the topic. -/
lemma lookup_foldl_rememberOne (topic : Str) (cache : AList fun _ : Str => List S)
    (subscribers : List S) :
    ((subscribers.foldl (rememberOne topic) cache).lookup topic).getD [] =
      (cache.lookup topic).getD [] ++ subscribers := by
  induction subscribers generalizing cache with
  | nil => rw [List.foldl_nil, List.append_nil]
  | cons s subscribers ih =>
    rw [List.foldl_cons, ih, rememberOne, AList.lookup_insert, Option.getD_some,
      List.append_assoc, List.singleton_append]

/-- Remembering subscribers for one topic does not touch the others. -/
lemma lookup_foldl_rememberOne_of_ne {topic topic' : Str} (h : topic' ≠ topic)
    (cache : AList fun _ : Str => List S) (subscribers : List S) :
    (subscribers.foldl (rememberOne topic) cache).lookup topic' = cache.lookup topic' := by
  induction subscribers generalizing cache with
  | nil => rfl
  | cons s subscribers ih => rw [List.foldl_cons, ih, rememberOne, AList.lookup_insert_ne h]

/-! ## The equations of publishing -/

namespace MqttBroker

variable [BoostSplit]

/-- The subscriptions a published topic is walked to. -/
def visited (b : MqttBroker S) (topic : Str) : List (Subscription S) :=
  wildcards.collect b.tree (split topic)

/-- Without a remembered list the subscribers the walk visits are called. -/
theorem publish_of_notMem_cache {b : MqttBroker S} {topic : Str}
    (h : ¬(b.useCache = true ∧ topic ∈ b.cache)) (bytes : Bytes) :
    b.publish topic bytes =
      ({ b with cache := if b.useCache then
          ((b.visited topic).map (·.subscriber)).foldl (rememberOne topic) b.cache
          else b.cache },
        (b.visited topic).map fun e => (e.subscriber, bytes)) := by
  rw [publish, if_neg h]
  simp only [publishImpl_run, List.nil_append]
  rfl

/-- Publishing passes the same bytes in every call. -/
lemma snd_of_mem_publish {b : MqttBroker S} {topic : Str} {bytes : Bytes} {call : S × Bytes}
    (h : call ∈ (b.publish topic bytes).2) : call.2 = bytes := by
  by_cases hcache : b.useCache = true ∧ topic ∈ b.cache
  · rw [publish, if_pos hcache] at h
    obtain ⟨s, -, rfl⟩ := List.mem_map.mp h
    rfl
  · rw [publish_of_notMem_cache hcache] at h
    obtain ⟨e, -, rfl⟩ := List.mem_map.mp h
    rfl

/-- Publishing does not change whether there is a cache. -/
@[simp] lemma useCache_publish (b : MqttBroker S) (topic : Str) (bytes : Bytes) :
    (b.publish topic bytes).1.useCache = b.useCache := by
  by_cases h : b.useCache = true ∧ topic ∈ b.cache
  · rw [publish, if_pos h]
  · rw [publish_of_notMem_cache h]

/-- Publishing does not change the tree. -/
@[simp] lemma tree_publish (b : MqttBroker S) (topic : Str) (bytes : Bytes) :
    (b.publish topic bytes).1.tree = b.tree := by
  by_cases h : b.useCache = true ∧ topic ∈ b.cache
  · rw [publish, if_pos h]
  · rw [publish_of_notMem_cache h]

end MqttBroker

end MqttCpp
