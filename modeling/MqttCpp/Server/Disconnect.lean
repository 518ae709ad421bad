import MqttCpp.Broker.Noninterference
import MqttCpp.Server.Lifetime

/-!
# What comes behind a DISCONNECT

A DISCONNECT removes the subscriptions of its connection and closes it, so nothing more is read
from it.  But the frames that have been read together with the DISCONNECT are still passed on: the
loop of `handleMessages` does not ask whether the connection is still there.  So a DISCONNECT is
final exactly when none of the frames behind it subscribes to anything or publishes to others.
-/

namespace MqttCpp

/-! ## A frame of a connection that has gone -/

/-- The leaves of a subscriber at a node. -/
lemma mem_entriesAt_iff {S : Type} [DecidableEq S] {tree : Node S} {B : S} {path : List Str}
    {e : Subscription S} :
    e ∈ entriesAt tree B path ↔ e ∈ tree.valuesAt path ∧ e.subscriber = B := by
  unfold entriesAt
  simp

/-- A request that leaves the leaves of every node leaves whoever is in the tree. -/
lemma MqttServer.inTree_iff_of_leaves_eq {C : Type} {s s' : MqttServer C}
    (h : ∀ path, s'.broker.tree.valuesAt path = s.broker.tree.valuesAt path) (c : C) :
    s'.broker.InTree c ↔ s.broker.InTree c := by
  rw [MqttBroker.inTree_iff, MqttBroker.inTree_iff]
  simp only [h]

section Final

variable [BoostSplit]

namespace MqttTcpServer

/-- The frame neither changes the subscriptions nor is delivered to anybody: `newMessage` of a
connection that is not connected any more, as that of the frame, does nothing. -/
structure NoEffect (w : MqttTcpServer) (c : ℕ) (s : MqttServer ℕ) (r : Request) : Prop where
  leaves_eq : ∀ path,
    (s.handle c r).1.broker.tree.valuesAt path = s.broker.tree.valuesAt path
  undelivered : ∀ c' bytes, Effect.newMessage c' bytes ∈ (s.handle c r).2 →
    c' = c ∨ (w.connection c').connected = false

/-- The walk of the topic reaches no subscription of another connection that is connected. -/
def Unheard (w : MqttTcpServer) (c : ℕ) (topic : Str) : Prop :=
  ∀ path, wildcards.Reaches path (split topic) = true →
    ∀ e ∈ w.mqttServer.broker.tree.valuesAt path,
      e.subscriber = c ∨ (w.connection e.subscriber).connected = false

/-- The frame subscribes to nothing and publishes to nobody else. -/
def Quiet (w : MqttTcpServer) (c : ℕ) : Request → Prop
  | .subscribe _ topics => topics = []
  | .publish topic _ => w.Unheard c topic
  | _ => True

/-- The server in the middle of a read of a connection: the subscriptions of the others are as they
were before the read. -/
structure Serves (w : MqttTcpServer) (c : ℕ) (s : MqttServer ℕ) : Prop where
  cacheSound : s.broker.CacheSound
  others : ∀ B, B ≠ c → ∀ path,
    entriesAt s.broker.tree B path = entriesAt w.mqttServer.broker.tree B path

/-- So it is, and the connection has no subscription. -/
structure Behind (w : MqttTcpServer) (c : ℕ) (s : MqttServer ℕ) : Prop extends w.Serves c s where
  gone : ¬s.broker.InTree c

end MqttTcpServer

/-- A walk visits the leaves at the paths that it reaches. -/
lemma MqttBroker.mem_visited_iff {S : Type} {b : MqttBroker S} {topic : Str}
    {e : Subscription S} :
    e ∈ b.visited topic ↔
      ∃ path, wildcards.Reaches path (split topic) = true ∧ e ∈ b.tree.valuesAt path := by
  unfold visited Wildcards.collect
  simp [List.mem_flatMap, Wildcards.mem_routes_iff]

namespace MqttServer

variable {C : Type} [DecidableEq C]

/-- A request keeps the cache sound. -/
lemma cacheSound_handle {s : MqttServer C} (h : s.broker.CacheSound) (c : C) (r : Request) :
    (s.handle c r).1.broker.CacheSound := by
  have hpoints : s.PointsInto fun _ => True := ⟨h, fun _ _ => trivial⟩
  exact (hpoints.handle (c := c) (r := r) (Or.inl trivial)).1.cacheSound

/-- A request of a connection leaves the subscriptions of others. -/
lemma entriesAt_handle_of_ne {c B : C} (h : B ≠ c) (s : MqttServer C) (r : Request)
    (path : List Str) :
    entriesAt (s.handle c r).1.broker.tree B path = entriesAt s.broker.tree B path := by
  cases r with
  | publish topic bytes => exact congrArg (entriesAt · B path) (s.broker.tree_publish topic bytes)
  | subscribe msgId topics =>
    change entriesAt (s.broker.subscribe c topics).tree B path = _
    rw [MqttBroker.tree_subscribe, entriesAt_foldl_addLeaf_of_ne (Ne.symm h)]
  | unsubscribe msgId topics =>
    change entriesAt (s.broker.unsubscribeTopics c topics).tree B path = _
    rw [MqttBroker.tree_unsubscribeTopics, entriesAt_unsubscribeImpl_of_ne (Ne.symm h)]
  | disconnect =>
    change entriesAt (s.broker.unsubscribeTopics c []).tree B path = _
    rw [MqttBroker.tree_unsubscribeTopics, entriesAt_unsubscribeImpl_of_ne (Ne.symm h)]
  | _ => rfl

/-- After a DISCONNECT the connection has no subscription. -/
lemma not_inTree_disconnect (s : MqttServer C) (c : C) :
    ¬(s.handle c .disconnect).1.broker.InTree c := by
  change ¬(s.broker.unsubscribeTopics c []).InTree c
  rw [MqttBroker.inTree_iff]
  rintro ⟨path, e, he, rfl⟩
  rw [MqttBroker.tree_unsubscribeTopics, unsubscribeImpl, PrefixTree.valuesAt_filterValues] at he
  have hkept := List.of_mem_filter he
  simp [Subscription.isSubscriber] at hkept

end MqttServer

namespace MqttTcpServer

variable {w : MqttTcpServer} {c : ℕ} {s : MqttServer ℕ}

/-- Every request of the connection keeps the subscriptions of the others. -/
lemma Serves.handle (h : w.Serves c s) (r : Request) : w.Serves c (s.handle c r).1 where
  cacheSound := MqttServer.cacheSound_handle h.cacheSound c r
  others B hB path := (s.entriesAt_handle_of_ne hB r path).trans (h.others B hB path)

/-- A DISCONNECT removes those of the connection. -/
lemma Serves.disconnect (h : w.Serves c s) : w.Behind c (s.handle c .disconnect).1 where
  toServes := h.handle .disconnect
  gone := s.not_inTree_disconnect c

/-- A frame without effect adds none. -/
lemma Behind.handle (h : w.Behind c s) {r : Request} (hr : w.NoEffect c s r) :
    w.Behind c (s.handle c r).1 where
  toServes := h.toServes.handle r
  gone := by
    rw [MqttServer.inTree_iff_of_leaves_eq hr.leaves_eq]
    exact h.gone

/-- Unsubscribing who is not in the tree changes nothing. -/
lemma Behind.valuesAt_unsubscribeTopics (h : w.Behind c s) (topics : List Str)
    (path : List Str) :
    (s.broker.unsubscribeTopics c topics).tree.valuesAt path = s.broker.tree.valuesAt path := by
  rw [MqttBroker.tree_unsubscribeTopics, unsubscribeImpl, PrefixTree.valuesAt_filterValues,
    List.filter_eq_self]
  intro e he
  have hne : e.subscriber ≠ c := fun hc =>
    h.gone ((s.broker.inTree_iff c).mpr ⟨path, e, he, hc⟩)
  simp [Subscription.isSubscriber, hne]

/-- Publishing delivers nothing if the topic is not heard by others. -/
lemma Behind.noEffect_publish_iff (h : w.Behind c s) (topic : Str) (bytes : Bytes) :
    w.NoEffect c s (.publish topic bytes) ↔ w.Unheard c topic := by
  have hcalls : (s.handle c (.publish topic bytes)).2 =
      (s.broker.visited topic).map fun e => .newMessage e.subscriber bytes := by
    change (s.broker.publish topic bytes).2.map _ = _
    rw [h.cacheSound.calls_publish, List.map_map]
    rfl
  constructor
  · intro hnone path hreaches e he
    by_cases hc : e.subscriber = c
    · exact Or.inl hc
    · have hmem : e ∈ entriesAt s.broker.tree e.subscriber path := by
        rw [h.others _ hc]
        exact mem_entriesAt_iff.mpr ⟨he, rfl⟩
      have hvisited : e ∈ s.broker.visited topic :=
        MqttBroker.mem_visited_iff.mpr ⟨path, hreaches, (mem_entriesAt_iff.mp hmem).1⟩
      apply hnone.undelivered e.subscriber bytes
      rw [hcalls]
      exact List.mem_map_of_mem hvisited
  · intro hunheard
    refine ⟨fun path => ?_, fun c' bytes' hcall => ?_⟩
    · exact congrArg (PrefixTree.valuesAt · path) (s.broker.tree_publish topic bytes)
    · rw [hcalls] at hcall
      obtain ⟨e, he, heffect⟩ := List.mem_map.mp hcall
      obtain ⟨rfl, -⟩ := Effect.newMessage.inj heffect
      obtain ⟨path, hreaches, hpath⟩ := MqttBroker.mem_visited_iff.mp he
      have hc : e.subscriber ≠ c := fun hc =>
        h.gone ((s.broker.inTree_iff c).mpr ⟨path, e, hpath, hc⟩)
      have hmem : e ∈ entriesAt w.mqttServer.broker.tree e.subscriber path := by
        rw [← h.others _ hc]
        exact mem_entriesAt_iff.mpr ⟨hpath, rfl⟩
      exact hunheard path hreaches e (mem_entriesAt_iff.mp hmem).1

/-- **A frame behind a DISCONNECT has no effect** exactly when it is quiet. -/
theorem Behind.noEffect_iff_quiet (h : w.Behind c s) (r : Request) :
    w.NoEffect c s r ↔ w.Quiet c r := by
  have hself : ∀ bytes c' bytes', Effect.newMessage c' bytes' ∈ [Effect.newMessage c bytes] →
      c' = c ∨ (w.connection c').connected = false := by
    intro bytes c' bytes' hcall
    rw [List.mem_singleton] at hcall
    exact Or.inl (Effect.newMessage.inj hcall).1
  cases r with
  | connect => exact iff_of_true ⟨fun _ => rfl, hself connackOk⟩ trivial
  | pingreq => exact iff_of_true ⟨fun _ => rfl, hself pingResp⟩ trivial
  | unknown =>
    exact iff_of_true ⟨fun _ => rfl, fun c' bytes hcall => absurd hcall List.not_mem_nil⟩ trivial
  | publish topic bytes => exact h.noEffect_publish_iff topic bytes
  | subscribe msgId topics =>
    constructor
    · intro hnone
      cases topics with
      | nil => rfl
      | cons topic topics =>
        -- the connection would be in the tree
        have hself := s.broker.inTree_subscribe_self c topic topics
        exact absurd ((MqttServer.inTree_iff_of_leaves_eq hnone.leaves_eq c).mp hself) h.gone
    · rintro rfl
      refine ⟨fun path => ?_, hself _⟩
      exact congrArg (PrefixTree.valuesAt · path) (s.broker.tree_subscribe c [])
  | unsubscribe msgId topics =>
    exact iff_of_true ⟨h.valuesAt_unsubscribeTopics topics, hself _⟩ trivial
  | disconnect =>
    refine iff_of_true ⟨h.valuesAt_unsubscribeTopics [], fun c' bytes hcall => ?_⟩ trivial
    have hnever : Effect.newMessage c' bytes = .disconnect c := List.mem_singleton.mp hcall
    cases hnever

/-! ## The frames of a read -/

/-- The frames of a connection, passed on one after the other, have no effect. -/
def NoneHasEffect (w : MqttTcpServer) (c : ℕ) (s : MqttServer ℕ) (requests : List Request) : Prop :=
  (serverMachine ℕ).Along (fun s i => w.NoEffect i.1 s i.2) s (inputs c requests)

/-- In the middle of a read the subscriptions of the others are as they were. -/
lemma Serves.serverAfter (h : w.Serves c s) (requests : List Request) :
    w.Serves c (serverAfter s c requests) := by
  have hstep : ∀ (s : MqttServer ℕ) (i : ℕ × Request), w.Serves c s → i.1 = c → True →
      w.Serves c ((serverMachine ℕ).step s i).1 := by
    rintro s ⟨_, r⟩ hs rfl -
    exact hs.handle r
  exact Machine.run_of_along hstep h fst_of_mem_inputs (Machine.along_iff_forall_mem.mpr
    fun _ _ => trivial)

/-- The step of the server machine on a frame without effect. -/
lemma Behind.step (s : MqttServer ℕ) (i : ℕ × Request) (h : w.Behind c s) (hi : i.1 = c)
    (hnone : w.NoEffect i.1 s i.2) : w.Behind c ((serverMachine ℕ).step s i).1 := by
  obtain ⟨_, r⟩ := i
  obtain rfl := hi
  exact h.handle hnone

/-- **The frames behind a DISCONNECT have no effect** exactly when all of them are quiet. -/
theorem Behind.noneHasEffect_iff (h : w.Behind c s) (requests : List Request) :
    w.NoneHasEffect c s requests ↔ ∀ r ∈ requests, w.Quiet c r := by
  have hiff : ∀ (s : MqttServer ℕ) (i : ℕ × Request), w.Behind c s → i.1 = c →
      (w.NoEffect i.1 s i.2 ↔ w.Quiet i.1 i.2) := by
    rintro s ⟨_, r⟩ hs rfl
    exact hs.noEffect_iff_quiet r
  have hquiet : w.NoneHasEffect c s requests ↔
      (serverMachine ℕ).Along (fun _ i => w.Quiet i.1 i.2) s (inputs c requests) :=
    Machine.along_congr Behind.step hiff h fst_of_mem_inputs
  rw [hquiet, Machine.along_iff_forall_mem, inputs, List.forall_mem_map]

/-- After them the connection still has no subscription. -/
lemma Behind.serverAfter (h : w.Behind c s) {requests : List Request}
    (hnone : w.NoneHasEffect c s requests) : w.Behind c (MqttTcpServer.serverAfter s c requests) :=
  Machine.run_of_along Behind.step h fst_of_mem_inputs hnone

/-- **DISCONNECT is final** in an event: when a read passes a DISCONNECT on, the connection has no
subscription after it and none of the frames behind it has an effect; and a connection that is not
connected any more passes on no frame with an effect. -/
def DisconnectFinal (w : MqttTcpServer) : TcpEvent → Prop
  | .read c chunk beyond =>
    (w.connection c).Live ∧ chunk.length ≤ (w.connection c).stream.readableDataSize →
      (∀ before behind, w.requests c chunk beyond = before ++ .disconnect :: behind →
        ¬(serverAfter w.mqttServer c (before ++ [.disconnect])).broker.InTree c ∧
          w.NoneHasEffect c (serverAfter w.mqttServer c (before ++ [.disconnect])) behind) ∧
      ((w.connection c).connected = false →
        w.NoneHasEffect c w.mqttServer (w.requests c chunk beyond))
  | _ => True

/-- When a read passes a DISCONNECT on, the frames behind it are quiet. -/
def QuietBehindDisconnect (w : MqttTcpServer) : TcpEvent → Prop
  | .read c chunk beyond =>
    (w.connection c).Live ∧ chunk.length ≤ (w.connection c).stream.readableDataSize →
      ∀ before behind, w.requests c chunk beyond = before ++ .disconnect :: behind →
        ∀ r ∈ behind, w.Quiet c r
  | _ => True

/-- A connection that is not connected any more has no subscription. -/
def DisconnectedGone (w : MqttTcpServer) : Prop :=
  ∀ c, (w.connection c).connected = false → ¬w.mqttServer.broker.InTree c

/-- The connections that read or are not connected any more have been made, and none is both. -/
structure Settled (w : MqttTcpServer) : Prop where
  cacheSound : w.mqttServer.broker.CacheSound
  made : ∀ c, (w.connection c).reading = true ∨ (w.connection c).connected = false → c < w.made
  idle : ∀ c, (w.connection c).connected = false → (w.connection c).reading = false

/-- Before a read the server is in the state in which the read begins. -/
lemma Settled.serves (h : w.Settled) (c : ℕ) : w.Serves c w.mqttServer where
  cacheSound := h.cacheSound
  others _ _ _ := rfl

/-- The server after a DISCONNECT in a read. -/
lemma Settled.behind (h : w.Settled) (c : ℕ) (before : List Request) :
    w.Behind c (serverAfter w.mqttServer c (before ++ [.disconnect])) := by
  rw [serverAfter_append]
  exact ((h.serves c).serverAfter before).disconnect

/-- Who reads is connected. -/
lemma Settled.connected_of_live (h : w.Settled) (hc : (w.connection c).Live) :
    (w.connection c).connected = true := by
  by_contra hconnected
  have hidle := h.idle c (Bool.eq_false_iff.mpr hconnected)
  rw [hc.1] at hidle
  cases hidle

/-- **In an event DISCONNECT is final** exactly when the frames behind it are quiet. -/
theorem Settled.disconnectFinal_iff (h : w.Settled) (event : TcpEvent) :
    w.DisconnectFinal event ↔ w.QuietBehindDisconnect event := by
  cases event with
  | read c chunk beyond =>
    unfold DisconnectFinal QuietBehindDisconnect
    constructor
    · intro hfinal hread before behind hsplit
      have hnone := ((hfinal hread).1 before behind hsplit).2
      exact ((h.behind c before).noneHasEffect_iff behind).mp hnone
    · intro hquiet hread
      refine ⟨fun before behind hsplit => ⟨(h.behind c before).gone, ?_⟩, fun hgone => ?_⟩
      · exact ((h.behind c before).noneHasEffect_iff behind).mpr (hquiet hread before behind hsplit)
      · rw [h.connected_of_live hread.1] at hgone
        cases hgone
  | _ => exact Iff.rfl

/-! ## What the events do -/

/-- A read keeps the server settled. -/
lemma Settled.readNext (h : w.Settled) (hc : (w.connection c).Live) (chunk : Bytes)
    (beyond : Span → Bytes) : (w.readNext c chunk beyond).Settled where
  cacheSound := by
    rw [mqttServer_readNext]
    exact cacheSound_serverAfter h.cacheSound c _
  made c' hc' := by
    rw [made_readNext]
    rcases eq_or_ne c' c with rfl | hne
    · exact h.made c' (Or.inl hc.1)
    · rw [connection_readNext_of_ne hne] at hc'
      exact h.made c' hc'
  idle c' hc' := by
    rcases eq_or_ne c' c with rfl | hne
    · rw [(connection_readNext_self chunk beyond).2, hc']
    · rw [connection_readNext_of_ne hne] at hc' ⊢
      exact h.idle c' hc'

/-- A read that is quiet behind a DISCONNECT leaves no subscription of a connection that is not
connected any more. -/
lemma DisconnectedGone.readNext (hgone : w.DisconnectedGone) (h : w.Settled)
    (hc : (w.connection c).Live) {chunk : Bytes} {beyond : Span → Bytes}
    (hquiet : ∀ before behind, w.requests c chunk beyond = before ++ .disconnect :: behind →
      ∀ r ∈ behind, w.Quiet c r) : (w.readNext c chunk beyond).DisconnectedGone := by
  intro c' hc'
  rw [mqttServer_readNext]
  rcases eq_or_ne c' c with rfl | hne
  · -- a DISCONNECT was passed on
    rw [(connection_readNext_self chunk beyond).1, h.connected_of_live hc] at hc'
    have hmem : .disconnect ∈ w.requests c' chunk beyond := by simpa using hc'
    obtain ⟨before, behind, hsplit⟩ := List.append_of_mem hmem
    have hbehind := h.behind c' before
    have hnone := (hbehind.noneHasEffect_iff behind).mpr (hquiet before behind hsplit)
    rw [hsplit, List.append_cons, serverAfter_append]
    exact (hbehind.serverAfter hnone).gone
  · -- the subscriptions of others are as they were
    rw [connection_readNext_of_ne hne] at hc'
    have hbefore := hgone c' hc'
    have hothers := ((h.serves c).serverAfter (w.requests c chunk beyond)).others c' hne
    rw [MqttBroker.inTree_iff] at hbefore ⊢
    rintro ⟨path, e, he, hsub⟩
    have hmem := mem_entriesAt_iff.mpr ⟨he, hsub⟩
    rw [hothers] at hmem
    exact hbefore ⟨path, e, mem_entriesAt_iff.mp hmem⟩

/-- Where nobody is disconnected or opened and nobody begins to read, the server stays settled, and
without subscriptions of connections that have gone. -/
lemma Idles.keeps {w' : MqttTcpServer} (hidles : w.Idles w') (h : w.Settled) :
    w'.Settled ∧ (w.DisconnectedGone → w'.DisconnectedGone) := by
  refine ⟨⟨?_, fun c hc => ?_, fun c hc => ?_⟩, fun hgone c hc => ?_⟩
  · rw [hidles.mqttServer_eq]
    exact h.cacheSound
  · rw [hidles.made_eq]
    rw [(hidles.connection c).connected_eq] at hc
    exact h.made c (hc.imp_left (hidles.connection c).reading_of)
  · rw [(hidles.connection c).connected_eq] at hc
    have hidle := h.idle c hc
    rw [Bool.eq_false_iff] at hidle ⊢
    exact fun hreading => hidle ((hidles.connection c).reading_of hreading)
  · rw [(hidles.connection c).connected_eq] at hc
    rw [hidles.mqttServer_eq]
    exact hgone c hc

/-- So it does when a client connects. -/
lemma Settled.doAccept (h : w.Settled) :
    w.doAccept.Settled ∧ (w.DisconnectedGone → w.doAccept.DisconnectedGone) := by
  by_cases hopen : w.acceptorOpen = true
  · have hself := connection_doAccept hopen
    have hother := fun c => connection_doAccept_of_ne w (c := c)
    have hserver := mqttServer_doAccept w
    have hmade := made_doAccept hopen
    have hconnected : ∀ c, (w.doAccept.connection c).connected = false →
        c ≠ w.made ∧ (w.connection c).connected = false := by
      intro c hc
      rcases eq_or_ne c w.made with rfl | hne
      · rw [hself] at hc
        cases hc
      · exact ⟨hne, hother c hne ▸ hc⟩
    refine ⟨⟨hserver ▸ h.cacheSound, fun c hc => ?_, fun c hc => ?_⟩, fun hgone c hc => ?_⟩
    · rw [hmade]
      rcases eq_or_ne c w.made with rfl | hne
      · exact Nat.lt_succ_self _
      · rw [hother c hne] at hc
        exact Nat.lt_succ_of_lt (h.made c hc)
    · obtain ⟨hne, hc'⟩ := hconnected c hc
      rw [hother c hne]
      exact h.idle c hc'
    · rw [hserver]
      exact hgone c (hconnected c hc).2
  · rw [doAccept_of_closed hopen]
    exact ⟨h, id⟩

/-- **Every event keeps the server settled.** -/
theorem Settled.handle (h : w.Settled) (event : TcpEvent) : Holds Settled (w.handle event).1 := by
  cases event with
  | accept => exact h.doAccept.1
  | read c chunk beyond =>
    exact holds_handle_read h fun hread _ => h.readNext hread.1 chunk beyond
  | readError c => exact holds_handle_readError h fun _ => ((idles_stop w c).keeps h).1
  | readAborted c => exact ((idles_finishRead w c).keeps h).1
  | signal => exact ((idles_doAwaitStop w).keeps h).1

/-- **An event that is quiet behind a DISCONNECT leaves no subscription of a connection that is not
connected any more.** -/
theorem DisconnectedGone.handle (hgone : w.DisconnectedGone) (h : w.Settled) {event : TcpEvent}
    (hquiet : w.QuietBehindDisconnect event) : Holds DisconnectedGone (w.handle event).1 := by
  cases event with
  | accept => exact h.doAccept.2 hgone
  | read c chunk beyond =>
    exact holds_handle_read hgone fun hread _ => hgone.readNext h hread.1 (hquiet hread)
  | readError c => exact holds_handle_readError hgone fun _ => ((idles_stop w c).keeps h).2 hgone
  | readAborted c => exact ((idles_finishRead w c).keeps h).2 hgone
  | signal => exact ((idles_doAwaitStop w).keeps h).2 hgone

end MqttTcpServer

/-! ## Runs -/

open MqttTcpServer

/-- A new server is settled, and nobody has been disconnected. -/
lemma settled_new (useCache : Bool) :
    Holds (fun w => w.Settled ∧ w.DisconnectedGone) (.ok (MqttTcpServer.new useCache)) := by
  refine ⟨⟨MqttBroker.cacheSound_new useCache, fun c hc => ?_, fun c hc => rfl⟩, fun c hc => ?_⟩
  · rcases hc with hc | hc
    · cases hc
    · cases hc
  · cases hc

/-- In a run, DISCONNECT is final in every event exactly when every event is quiet behind one. -/
lemma along_disconnectFinal_iff (useCache : Bool) (events : List TcpEvent) :
    tcpServerMachine.Along (BeforeEvent DisconnectFinal) (.ok (.new useCache)) events ↔
      tcpServerMachine.Along (BeforeEvent QuietBehindDisconnect) (.ok (.new useCache)) events := by
  have hstart : Holds Settled (.ok (.new useCache)) := (settled_new useCache).1
  refine Machine.along_congr (J := fun _ => True) ?_ ?_ hstart fun _ _ => trivial
  · rintro (e | w) event h - -
    · trivial
    · exact h.handle event
  · rintro (e | w) event h -
    · exact Iff.rfl
    · exact h.disconnectFinal_iff event

/-- **DISCONNECT is final**, whatever the connections read and however it is cut into reads: in
every event no frame behind a DISCONNECT has an effect, and in every state no connection that is
not connected any more has a subscription, if and only if in every read the frames behind a
DISCONNECT subscribe to nothing and publish nothing that others would receive. -/
theorem disconnect_final_iff (useCache : Bool) (events : List TcpEvent) :
    let start : Except Fault MqttTcpServer := .ok (.new useCache)
    tcpServerMachine.Along (BeforeEvent DisconnectFinal) start events ∧
        tcpServerMachine.Always (Holds DisconnectedGone) start events ↔
      tcpServerMachine.Along (BeforeEvent QuietBehindDisconnect) start events := by
  intro start
  constructor
  · rintro ⟨hfinal, -⟩
    exact (along_disconnectFinal_iff useCache events).mp hfinal
  · intro hquiet
    refine ⟨(along_disconnectFinal_iff useCache events).mpr hquiet, ?_⟩
    have halways : tcpServerMachine.Always (Holds fun w => w.Settled ∧ w.DisconnectedGone) start
        events := by
      refine Machine.always_of_along ?_ (settled_new useCache) hquiet
      rintro (e | w) event hQ hP
      · trivial
      · exact (hQ.1.handle event).and (hQ.2.handle hQ.1 hP)
    exact halways.mono fun r hr => hr.mono fun w => And.right

end Final

open MqttTcpServer

/-- A DISCONNECT and, behind it, a SUBSCRIBE to "a". -/
def disconnectThenSubscribe : Bytes := [0xe0, 0] ++ subscribeToA

/-- A new connection that reads them passes both on. -/
lemma requests_disconnectThenSubscribe {w : MqttTcpServer} (h : w.acceptorOpen = true)
    (beyond : Span → Bytes) :
    w.doAccept.requests w.made disconnectThenSubscribe beyond =
      [.disconnect, .subscribe 1 [{ topic := [97], qos := 0 }]] := by
  have hmessages := MqttStream.map_bytes_messages_of_cut_eq
    (by decide : disconnectThenSubscribe.length ≤ numStreamBytes)
    (by decide +kernel : MqttStream.messageFramer.cut disconnectThenSubscribe =
      ([[0xe0, 0], subscribeToA], []))
  unfold requests
  rw [connection_doAccept h]
  obtain ⟨disconnect, rest, hsplit, hdisconnect, hrest⟩ := List.map_eq_cons_iff.mp hmessages
  obtain ⟨subscribe, hlast, hsubscribe⟩ := List.map_eq_singleton_iff.mp hrest
  change (readRequests beyond ((MqttStream.new numStreamBytes).messages _)).1 = _
  have htype : getMessageType disconnect = .ok .disconnect := getMessageType_eq hdisconnect
  have hfirst : readRequest disconnect (beyond disconnect) = .ok .disconnect := by
    unfold readRequest
    rw [htype]
    rfl
  have hsecond := readRequest_of_subscribeToA hsubscribe (beyond subscribe)
  rw [hsplit, hlast, readRequests, hfirst, readRequests, hsecond]
  rfl

/-- A client that sends both at once is gone and subscribed. -/
theorem not_disconnect_final :
    let _ := boostSplit
    let start : Except Fault MqttTcpServer := .ok (.new false)
    let events := [.accept, .read 0 disconnectThenSubscribe fun _ => []]
    ¬(tcpServerMachine.Along (BeforeEvent DisconnectFinal) start events ∧
      tcpServerMachine.Always (Holds DisconnectedGone) start events) := by
  intro _ start events
  rintro ⟨hfinal, -⟩
  have hsettled : (MqttTcpServer.new false).doAccept.Settled := (settled_new false).1.doAccept.1
  have hnone : (MqttTcpServer.new false).doAccept.DisconnectFinal
      (.read 0 disconnectThenSubscribe fun _ => []) := hfinal.2.1
  have hquiet := (hsettled.disconnectFinal_iff _).mp hnone
  have hread := live_doAccept (w := MqttTcpServer.new false) rfl
    (by decide : disconnectThenSubscribe.length ≤ numStreamBytes)
  have hrequests := requests_disconnectThenSubscribe (w := MqttTcpServer.new false) rfl fun _ => []
  have hsubscribe := hquiet hread [] _ hrequests _ List.mem_cons_self
  cases hsubscribe

end MqttCpp
