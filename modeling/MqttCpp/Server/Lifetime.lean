import MqttCpp.Broker.Recorded
import MqttCpp.Server.Decoding
import MqttCpp.Server.Steps

/-!
# Pointers to connections that are gone

The broker points to connections, and the manager owns them.  A connection that disconnects is
unsubscribed and stays with the manager; a connection whose read fails is given up by the manager
and stays with the broker.  So the broker points to registered connections only, in every state of
a run, exactly when every connection that is given up has no subscription left, and what has been
read of a connection that a signal has closed asks for nothing.
-/

namespace MqttCpp

/-! ## Whom the server points to -/

section Requests

variable {C : Type}

/-- The connection that an effect is about. -/
def Effect.target : Effect C → C
  | .newMessage c _ => c
  | .disconnect c => c

/-- The request is about other connections than the one that makes it, if about any. -/
def Request.ConcernsOthers : Request → Prop
  | .publish _ _ => True
  | .unknown => True
  | .connect => False
  | .pingreq => False
  | .subscribe _ _ => False
  | .unsubscribe _ _ => False
  | .disconnect => False

variable [BoostSplit]

/-- The server points to connections with the property `R` only. -/
structure MqttServer.PointsInto (R : C → Prop) (s : MqttServer C) : Prop where
  cacheSound : s.broker.CacheSound
  inTree : ∀ x, s.broker.InTree x → R x

variable [DecidableEq C] {R : C → Prop} {s : MqttServer C} {c : C}

/-- A request of a connection with the property keeps that, and calls such connections only; so does
one that is about others only. -/
lemma MqttServer.PointsInto.handle (h : s.PointsInto R) {r : Request}
    (hc : R c ∨ r.ConcernsOthers) :
    (s.handle c r).1.PointsInto R ∧ ∀ e ∈ (s.handle c r).2, R e.target := by
  have hself : R c → ∀ bytes, ∀ e ∈ [Effect.newMessage c bytes], R e.target := by
    intro hc bytes e he
    rw [List.mem_singleton.mp he]
    exact hc
  cases r with
  | connect => exact ⟨h, hself (hc.resolve_right id) connackOk⟩
  | pingreq => exact ⟨h, hself (hc.resolve_right id) pingResp⟩
  | publish topic bytes =>
    refine ⟨⟨h.cacheSound.publish topic bytes, ?_⟩, ?_⟩
    · intro x hx
      apply h.inTree x
      obtain ⟨e, he, hsub⟩ := hx
      exact ⟨e, s.broker.tree_publish topic bytes ▸ he, hsub⟩
    · intro effect heffect
      obtain ⟨call, hcall, rfl⟩ := List.mem_map.mp heffect
      rw [h.cacheSound.calls_publish] at hcall
      obtain ⟨e, he, rfl⟩ := List.mem_map.mp hcall
      exact h.inTree _ (MqttBroker.inTree_of_mem_visited he)
  | subscribe msgId topics =>
    have hc := hc.resolve_right id
    refine ⟨⟨h.cacheSound.subscribe c topics, ?_⟩, hself hc _⟩
    intro x hx
    rcases MqttBroker.inTree_of_inTree_subscribe hx with hold | rfl
    · exact h.inTree x hold
    · exact hc
  | unsubscribe msgId topics =>
    refine ⟨⟨h.cacheSound.unsubscribeTopics c topics, ?_⟩, hself (hc.resolve_right id) _⟩
    exact fun x hx => h.inTree x (MqttBroker.inTree_of_inTree_unsubscribeTopics hx)
  | disconnect =>
    refine ⟨⟨h.cacheSound.unsubscribeTopics c [], ?_⟩, ?_⟩
    · exact fun x hx => h.inTree x (MqttBroker.inTree_of_inTree_unsubscribeTopics hx)
    · intro e he
      rw [List.mem_singleton.mp he]
      exact hc.resolve_right id
  | unknown => exact ⟨h, fun e he => absurd he List.not_mem_nil⟩

/-- So do all the requests of a read. -/
theorem MqttServer.PointsInto.run (h : s.PointsInto R) {requests : List Request}
    (hc : ∀ r ∈ requests, R c ∨ r.ConcernsOthers) :
    ((serverMachine C).run s (requests.map fun r => (c, r))).1.PointsInto R ∧
      ∀ e ∈ ((serverMachine C).run s (requests.map fun r => (c, r))).2, R e.target := by
  have hstep : ∀ (s : MqttServer C) (i : C × Request), s.PointsInto R →
      R i.1 ∨ i.2.ConcernsOthers →
      ((serverMachine C).step s i).1.PointsInto R ∧
        ∀ e ∈ ((serverMachine C).step s i).2, R e.target :=
    fun s i hs hi => hs.handle hi
  refine Machine.run_spec hstep h fun i hi => ?_
  obtain ⟨r, hr, rfl⟩ := List.mem_map.mp hi
  exact hc r hr

/-- A request that is about the connection that makes it has an effect. -/
lemma MqttServer.handle_ne_nil (s : MqttServer C) (c : C) {r : Request} (h : ¬r.ConcernsOthers) :
    (s.handle c r).2 ≠ [] := by
  cases r with
  | publish topic bytes => exact absurd trivial h
  | unknown => exact absurd trivial h
  | _ => exact List.cons_ne_nil _ _

/-- So requests that have no effects are about others only. -/
lemma concernsOthers_of_run_eq_nil {requests : List Request}
    (h : ((serverMachine C).run s (requests.map fun r => (c, r))).2 = []) :
    ∀ r ∈ requests, r.ConcernsOthers := by
  induction requests generalizing s with
  | nil => exact fun r hr => absurd hr List.not_mem_nil
  | cons r requests ih =>
    rw [List.map_cons, Machine.run_cons, List.append_eq_nil_iff] at h
    intro r' hr'
    rcases List.mem_cons.mp hr' with rfl | hmem
    · by_contra hself
      exact s.handle_ne_nil c hself h.1
    · exact ih h.2 r' hmem

end Requests

/-! ## What the events do -/

namespace MqttTcpServer

variable [BoostSplit] {w : MqttTcpServer} {c : ℕ}

/-- The cache of the broker is sound.  A connection that can get bytes is registered and open until
a signal arrives; from then on its socket is closed, and nobody is registered. -/
structure Sound (w : MqttTcpServer) : Prop where
  cacheSound : w.mqttServer.broker.CacheSound
  isOpen_eq : ∀ c, (w.connection c).Live → (w.connection c).isOpen = w.acceptorOpen
  registered : ∀ c, (w.connection c).Live → w.acceptorOpen = true → c ∈ w.connections
  stopped : w.acceptorOpen = false → w.connections = ∅

/-- Every subscriber that the tree or the cache of the broker points to is registered. -/
def NoDangling (w : MqttTcpServer) : Prop :=
  ∀ c, w.mqttServer.broker.InTree c ∨ w.mqttServer.broker.InCache c → c ∈ w.connections

/-- Without dangling pointers, the server points to registered connections. -/
lemma NoDangling.pointsInto (h : w.NoDangling) (hsound : w.Sound) :
    w.mqttServer.PointsInto (· ∈ w.connections) where
  cacheSound := hsound.cacheSound
  inTree x hx := h x (Or.inl hx)

/-- If the tree points to registered connections only, so does the cache. -/
lemma noDangling_of_inTree (hcache : w.mqttServer.broker.CacheSound)
    (h : ∀ c, w.mqttServer.broker.InTree c → c ∈ w.connections) : w.NoDangling := by
  rintro c (htree | hcached)
  · exact h c htree
  · exact h c (hcache.inTree_of_inCache hcached)

/-- Requests keep the cache of the broker sound. -/
lemma cacheSound_serverAfter {s : MqttServer ℕ} (h : s.broker.CacheSound) (c : ℕ)
    (requests : List Request) : (serverAfter s c requests).broker.CacheSound := by
  have hpoints : s.PointsInto fun _ => True := ⟨h, fun _ _ => trivial⟩
  exact (hpoints.run (c := c) fun _ _ => Or.inl trivial).1.cacheSound

/-- A client that is accepted is open and registered. -/
lemma Sound.doAccept (h : w.Sound) : w.doAccept.Sound := by
  by_cases hopen : w.acceptorOpen = true
  · refine ⟨?_, fun c hc => ?_, fun c hc _ => ?_, fun hclosed => ?_⟩
    · rw [mqttServer_doAccept]
      exact h.cacheSound
    · rw [acceptorOpen_doAccept]
      rcases eq_or_ne c w.made with rfl | hne
      · rw [connection_doAccept hopen, hopen]
        exact Connection.isOpen_doRead _
      · rw [connection_doAccept_of_ne w hne] at hc ⊢
        exact h.isOpen_eq c hc
    · rw [connections_doAccept hopen]
      rcases eq_or_ne c w.made with rfl | hne
      · exact Finset.mem_insert_self _ _
      · rw [connection_doAccept_of_ne w hne] at hc
        exact Finset.mem_insert_of_mem (h.registered c hc hopen)
    · rw [acceptorOpen_doAccept, hopen] at hclosed
      cases hclosed
  · rw [doAccept_of_closed hopen]
    exact h

/-- A read keeps the server sound. -/
lemma Sound.readNext (h : w.Sound) (hc : (w.connection c).Live) (chunk : Bytes)
    (beyond : Span → Bytes) : (w.readNext c chunk beyond).Sound where
  cacheSound := by
    rw [mqttServer_readNext]
    exact cacheSound_serverAfter h.cacheSound c _
  isOpen_eq c' hc' := by
    rw [acceptorOpen_readNext]
    rcases eq_or_ne c' c with rfl | hne
    · rw [isOpen_readNext_self ((live_readNext_self_iff chunk beyond).mp hc').1]
      exact h.isOpen_eq c' hc
    · rw [connection_readNext_of_ne hne] at hc' ⊢
      exact h.isOpen_eq c' hc'
  registered c' hc' hopen := by
    rw [acceptorOpen_readNext] at hopen
    rw [connections_readNext]
    rcases eq_or_ne c' c with rfl | hne
    · exact h.registered c' hc hopen
    · rw [connection_readNext_of_ne hne] at hc'
      exact h.registered c' hc' hopen
  stopped hclosed := by
    rw [acceptorOpen_readNext] at hclosed
    rw [connections_readNext]
    exact h.stopped hclosed

/-- **Every event keeps the server sound.** -/
theorem Sound.handle (h : w.Sound) (event : TcpEvent) : Holds Sound (w.handle event).1 := by
  cases event with
  | accept => exact h.doAccept
  | read c chunk beyond => exact holds_handle_read h fun hread _ => h.readNext hread.1 chunk beyond
  | readError c =>
    refine holds_handle_readError h fun _ =>
      ⟨h.cacheSound, fun c' hc' => ?_, fun c' hc' hopen => ?_, fun hclosed => ?_⟩
    · obtain ⟨-, hsame⟩ := connection_of_live_stop hc'
      rw [hsame] at hc' ⊢
      exact h.isOpen_eq c' hc'
    · obtain ⟨hne, hsame⟩ := connection_of_live_stop hc'
      rw [hsame] at hc'
      exact Finset.mem_erase_of_ne_of_mem hne (h.registered c' hc' hopen)
    · change w.connections.erase c = ∅
      rw [h.stopped hclosed, Finset.erase_empty]
  | readAborted c =>
    refine ⟨h.cacheSound, fun c' hc' => ?_, fun c' hc' hopen => ?_, h.stopped⟩
    · obtain ⟨-, hsame⟩ := connection_of_live_finishRead hc'
      rw [hsame] at hc' ⊢
      exact h.isOpen_eq c' hc'
    · obtain ⟨-, hsame⟩ := connection_of_live_finishRead hc'
      rw [hsame] at hc'
      exact h.registered c' hc' hopen
  | signal =>
    refine ⟨h.cacheSound, fun c hc => ?_, fun c hc hopen => ?_, fun _ => rfl⟩
    · have hidle := (idles_doAwaitStop w).connection c
      have hbefore := hidle.live_of hc
      change (w.doAwaitStop.connection c).isOpen = false
      rw [Bool.eq_false_iff]
      intro hopen
      have hstill := hidle.isOpen_of hopen
      rw [h.isOpen_eq c hbefore] at hstill
      have hclosed := isOpen_doAwaitStop (h.registered c hbefore hstill)
      exact Bool.false_ne_true (hclosed.symm.trans hopen)
    · cases hopen

/-- Whoever is given up has no subscription left: a connection whose read fails, and on a signal
everybody.  And what has been read of a connection when a signal has closed it asks for nothing. -/
def GivesUpUnsubscribed (w : MqttTcpServer) : TcpEvent → Prop
  | .read c chunk beyond =>
    (w.connection c).Live ∧ chunk.length ≤ (w.connection c).stream.readableDataSize →
      w.acceptorOpen = false → ∀ r ∈ w.requests c chunk beyond, r.ConcernsOthers
  | .readError c => (w.connection c).reading = true → ¬w.mqttServer.broker.InTree c
  | .signal => ∀ c, ¬w.mqttServer.broker.InTree c
  | _ => True

/-- The connections that the server calls when the event happens are registered. -/
def CallsRegistered (w : MqttTcpServer) (event : TcpEvent) : Prop :=
  ∀ e ∈ (w.handle event).2, e.target ∈ w.connections

/-- A read points to registered connections and calls no others, unless a signal has come and it
asks for something. -/
lemma NoDangling.run_requests (h : w.NoDangling) (hsound : w.Sound) {chunk : Bytes}
    {beyond : Span → Bytes}
    (hread : (w.connection c).Live ∧ chunk.length ≤ (w.connection c).stream.readableDataSize)
    (hevent : w.GivesUpUnsubscribed (.read c chunk beyond)) :
    (serverAfter w.mqttServer c (w.requests c chunk beyond)).PointsInto (· ∈ w.connections) ∧
      ∀ e ∈ ((serverMachine ℕ).run w.mqttServer (inputs c (w.requests c chunk beyond))).2,
        e.target ∈ w.connections := by
  apply (h.pointsInto hsound).run
  intro r hr
  cases hopen : w.acceptorOpen with
  | true => exact Or.inl (hsound.registered c hread.1 hopen)
  | false => exact Or.inr (hevent hread hopen r hr)

/-- **An event that gives up nobody with a subscription leaves no dangling pointers.** -/
theorem NoDangling.handle (h : w.NoDangling) (hsound : w.Sound) {event : TcpEvent}
    (hevent : w.GivesUpUnsubscribed event) : Holds NoDangling (w.handle event).1 := by
  cases event with
  | accept =>
    change w.doAccept.NoDangling
    intro c hc
    rw [mqttServer_doAccept] at hc
    by_cases hopen : w.acceptorOpen = true
    · rw [connections_doAccept hopen]
      exact Finset.mem_insert_of_mem (h c hc)
    · rw [doAccept_of_closed hopen]
      exact h c hc
  | read c chunk beyond =>
    refine holds_handle_read h fun hread _ => ?_
    obtain ⟨hafter, -⟩ := h.run_requests hsound hread hevent
    rw [← mqttServer_readNext, ← connections_readNext chunk beyond] at hafter
    exact noDangling_of_inTree hafter.cacheSound hafter.inTree
  | readError c =>
    refine holds_handle_readError h fun hreading =>
      noDangling_of_inTree hsound.cacheSound fun x hx => ?_
    have hne : x ≠ c := by
      rintro rfl
      exact hevent hreading hx
    exact Finset.mem_erase_of_ne_of_mem hne (h x (Or.inl hx))
  | readAborted c => exact h
  | signal => exact noDangling_of_inTree hsound.cacheSound fun x hx => absurd hx (hevent x)

/-- When a read fails and there are no dangling pointers then, its connection had no
subscription. -/
lemma not_inTree_of_noDangling (h : Holds NoDangling (w.handle (.readError c)).1)
    (hreading : (w.connection c).reading = true) : ¬w.mqttServer.broker.InTree c := by
  intro htree
  rw [MqttTcpServer.handle, if_pos hreading] at h
  exact Finset.notMem_erase c w.connections (h c (Or.inl htree))

/-- An event that leaves no dangling pointers and calls registered connections only gives up nobody
with a subscription, and asks for nothing behind a signal. -/
lemma givesUpUnsubscribed_of_noDangling (hsound : w.Sound) {event : TcpEvent}
    (hcalls : w.CallsRegistered event) (h : Holds NoDangling (w.handle event).1) :
    w.GivesUpUnsubscribed event := by
  cases event with
  | read c chunk beyond =>
    intro hread hclosed
    have hnone : (w.handle (.read c chunk beyond)).2 = [] := by
      refine List.eq_nil_iff_forall_not_mem.mpr fun e he => ?_
      have hmem := hcalls e he
      rw [hsound.stopped hclosed] at hmem
      exact Finset.notMem_empty _ hmem
    rw [handle_read_snd hread] at hnone
    exact concernsOthers_of_run_eq_nil hnone
  | readError c => exact fun hreading => not_inTree_of_noDangling h hreading
  | signal => exact fun c htree => absurd (h c (Or.inl htree)) (Finset.notMem_empty c)
  | _ => trivial

/-- Whom such an event makes the server call is registered. -/
lemma NoDangling.callsRegistered (h : w.NoDangling) (hsound : w.Sound) {event : TcpEvent}
    (hevent : w.GivesUpUnsubscribed event) : w.CallsRegistered event := by
  have hnil : ∀ e ∈ ([] : List (Effect ℕ)), e.target ∈ w.connections :=
    fun e he => absurd he List.not_mem_nil
  cases event with
  | read c chunk beyond =>
    by_cases hread :
      (w.connection c).Live ∧ chunk.length ≤ (w.connection c).stream.readableDataSize
    · rw [CallsRegistered, handle_read_snd hread]
      exact (h.run_requests hsound hread hevent).2
    · rw [CallsRegistered, MqttTcpServer.handle, if_neg hread]
      exact hnil
  | readError c =>
    rw [CallsRegistered, MqttTcpServer.handle]
    split
    · exact hnil
    · exact hnil
  | _ => exact hnil

end MqttTcpServer

/-! ## A client that subscribes -/

open MqttTcpServer

/-- The bytes of a SUBSCRIBE to the topic "a". -/
def subscribeToA : Bytes := [0x82, 6, 0, 1, 0, 1, 97, 0]

/-- What the server makes of such a message. -/
lemma readRequest_of_subscribeToA {msg : Span} (h : msg.bytes = subscribeToA) (beyond : Bytes) :
    readRequest msg beyond = .ok (.subscribe 1 [{ topic := [97], qos := 0 }]) := by
  have hparts : msg.bytes = 0x82 :: [6] ++ (be16 1 ++
      [{ topic := [97], qos := 0 }].flatMap MqttSubscribe.Topic.encode) := h
  have hsize : msg.bytes.length < 2 ^ 31 := by
    rw [h]
    decide
  exact readRequest_of_subscribe (by decide) (by decide) 1 (by decide) hsize hparts beyond

/-- A connection that has just been accepted passes such a message on. -/
lemma readRequests_subscribeToA {w : MqttTcpServer} (h : w.acceptorOpen = true)
    (beyond : Span → Bytes) :
    readRequests beyond ((w.doAccept.connection w.made).stream.messages subscribeToA) =
      ([.subscribe 1 [{ topic := [97], qos := 0 }]], .ok ()) := by
  obtain ⟨msg, hmsgs, hmsg⟩ := MqttStream.exists_messages_eq_of_cut_eq
    (by decide : subscribeToA.length ≤ numStreamBytes)
    (by decide +kernel : MqttStream.messageFramer.cut subscribeToA = ([subscribeToA], []))
  have hrequest := readRequest_of_subscribeToA hmsg (beyond msg)
  rw [connection_doAccept h]
  change readRequests beyond ((MqttStream.new numStreamBytes).messages subscribeToA) = _
  rw [hmsgs, readRequests, hrequest]
  rfl

/-! ## Runs -/

section Runs

variable [BoostSplit]

/-- A new server is sound, and points to nobody. -/
lemma holds_new (useCache : Bool) :
    Holds (fun w => w.Sound ∧ w.NoDangling) (.ok (MqttTcpServer.new useCache)) := by
  have hcache : (MqttTcpServer.new useCache).mqttServer.broker.CacheSound :=
    MqttBroker.cacheSound_new useCache
  refine ⟨⟨hcache, fun c hc => ?_, fun c hc => ?_, fun _ => rfl⟩,
    noDangling_of_inTree hcache fun c hc => ?_⟩
  · cases hc.1
  · cases hc.1
  · exact absurd hc (MqttBroker.not_inTree_new useCache c)

/-- A server is sound in every state of every run. -/
lemma always_sound (useCache : Bool) (events : List TcpEvent) :
    tcpServerMachine.Always (Holds Sound) (.ok (.new useCache)) events := by
  have hstart : Holds Sound (.ok (MqttTcpServer.new useCache)) := (holds_new useCache).1
  refine Machine.always_of_invariant ?_ hstart events
  rintro (e | w) event h
  · trivial
  · exact h.handle event

/-- A run in which nobody with a subscription is given up keeps the server sound and without
dangling pointers. -/
lemma always_noDangling {useCache : Bool} {events : List TcpEvent}
    (h : tcpServerMachine.Along (BeforeEvent GivesUpUnsubscribed)
      (.ok (MqttTcpServer.new useCache)) events) :
    tcpServerMachine.Always (Holds fun w => w.Sound ∧ w.NoDangling)
      (.ok (MqttTcpServer.new useCache)) events := by
  refine Machine.always_of_along ?_ (holds_new useCache) h
  rintro (e | w) event hQ hP
  · trivial
  · exact (hQ.1.handle event).and (hQ.2.handle hQ.1 hP)

/-- **The broker points to registered connections only, in every state of a run, and the server
calls no others, exactly when nobody who is given up has a subscription left**, and nothing that is
still read behind a signal asks for anything. -/
theorem always_noDangling_iff (useCache : Bool) (events : List TcpEvent) :
    let start : Except Fault MqttTcpServer := .ok (.new useCache)
    tcpServerMachine.Always (Holds NoDangling) start events ∧
        tcpServerMachine.Along (BeforeEvent CallsRegistered) start events ↔
      tcpServerMachine.Along (BeforeEvent GivesUpUnsubscribed) start events := by
  intro start
  constructor
  · rintro ⟨hdangling, hcalls⟩
    refine hcalls.of_always ?_ ((always_sound useCache events).and hdangling)
    rintro (e | w) event hbefore hcalls hnext
    · trivial
    · exact givesUpUnsubscribed_of_noDangling hbefore.1 hcalls hnext.2
  · intro h
    have halways := always_noDangling h
    refine ⟨halways.mono fun r hr => hr.mono fun w => And.right, h.of_always ?_ halways⟩
    rintro (e | w) event hQ hP -
    · trivial
    · exact hQ.2.callsRegistered hQ.1 hP

/-- When a new connection subscribes and then its read fails, the broker points to it still. -/
lemma not_always_noDangling {w : MqttTcpServer} (h : w.acceptorOpen = true)
    (beyond : Span → Bytes) :
    ¬tcpServerMachine.Always (Holds NoDangling) (.ok w)
      [.accept, .read w.made subscribeToA beyond, .readError w.made] := by
  intro halways
  have hrequests := readRequests_subscribeToA h beyond
  have hread := live_doAccept h (by decide : subscribeToA.length ≤ numStreamBytes)
  have hnext := handle_read_of_ok hread (congrArg Prod.snd hrequests)
  have haccept : w.handle .accept = (.ok w.doAccept, []) := rfl
  rw [Machine.Always, tcpServerMachine_step_ok, haccept, Machine.Always,
    tcpServerMachine_step_ok, hnext, Machine.Always, tcpServerMachine_step_ok,
    Machine.Always] at halways
  have hpassed : w.doAccept.requests w.made subscribeToA beyond =
      [.subscribe 1 [{ topic := [97], qos := 0 }]] := congrArg Prod.fst hrequests
  refine not_inTree_of_noDangling halways.2.2.2 ?_ ?_
  · obtain ⟨hconnected, hreading⟩ := connection_readNext_self (w := w.doAccept) (c := w.made)
      subscribeToA beyond
    rw [hreading, hconnected, hpassed, connection_doAccept h]
    rfl
  · rw [mqttServer_readNext, hpassed]
    exact MqttBroker.inTree_subscribe_self _ _ _ _

end Runs

/-- In a new server a connection subscribes and its client goes away. -/
theorem not_always_noDangling_of_readError :
    let _ := boostSplit
    ¬tcpServerMachine.Always (Holds NoDangling) (.ok (MqttTcpServer.new false))
      [.accept, .read 0 subscribeToA fun _ => [], .readError 0] := by
  intro _
  exact not_always_noDangling (w := MqttTcpServer.new false) rfl fun _ => []

end MqttCpp
