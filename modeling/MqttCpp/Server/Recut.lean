import MqttCpp.Server.Sessions

/-!
# How the bytes are cut into reads

TCP delivers a stream of bytes: what a client sends in one piece can arrive in several reads, and
what it sends in several pieces in one.  `Recut` relates two sequences of events that differ in
this only.  A DISCONNECT closes the connection at the end of the read that it arrives in, so a read
may be cut only behind frames that do not disconnect: of what stands behind a DISCONNECT in another
read, nothing is read any more.  And behind a signal no read may be cut, since there is none after
it.

In both runs the server calls the same connections with the same bytes (`tcpServerMachine_recut`),
although the buffers may differ behind the bytes that are kept.
-/

namespace MqttCpp

open MqttStream

namespace Sessions

variable {σ : Type}

/-- A chunk of two parts can arrive in two reads: there is room for it as a whole, none of the
frames that the first part completes is a DISCONNECT, and no signal has stopped the server. -/
structure CanCut (s : Sessions σ) (c : ℕ) (first second : Bytes) : Prop where
  room : ∀ kept, s.residue c = some kept →
    kept.length + (first ++ second).length ≤ MqttTcpServer.numStreamBytes
  goesOn : ∀ frames rest, s.arrive c first = some (frames, rest) →
    .disconnect ∉ frames.filterMap requestOf ∧ s.accepting = true

/-- Whether a chunk can be cut can be computed. -/
lemma canCut_of_all {s : Sessions σ} {c : ℕ} {first second : Bytes}
    (hroom : (s.residue c).all (fun kept =>
      kept.length + (first ++ second).length ≤ MqttTcpServer.numStreamBytes) = true)
    (hgoes : (s.arrive c first).all (fun p =>
      .disconnect ∉ p.1.filterMap requestOf ∧ s.accepting = true) = true) :
    s.CanCut c first second where
  room kept hkept := by
    rw [hkept, Option.all_some] at hroom
    exact of_decide_eq_true hroom
  goesOn frames rest harrive := by
    rw [harrive, Option.all_some] at hgoes
    exact of_decide_eq_true hgoes

/-- The second sequence of events is the first with some of its reads cut into more. -/
inductive Recut (M : Machine σ (ℕ × Request) (Effect ℕ)) :
    Sessions σ → List TcpEvent → List TcpEvent → Prop
  | nil (s : Sessions σ) : Recut M s [] []
  | event {s : Sessions σ} (event : TcpEvent) {events events' : List TcpEvent}
      (rest : Recut M ((sessionMachine M).step s event).1 events events') :
      Recut M s (event :: events) (event :: events')
  | read {s : Sessions σ} (c : ℕ) (chunk : Bytes) (beyond beyond' : Span → Bytes)
      {events events' : List TcpEvent} (rest : Recut M (s.read M c chunk).1 events events') :
      Recut M s (.read c chunk beyond :: events) (.read c chunk beyond' :: events')
  | cut {s : Sessions σ} (c : ℕ) (first second : Bytes) (beyond beyond₁ beyond₂ : Span → Bytes)
      {events events' : List TcpEvent} (h : s.CanCut c first second)
      (rest : Recut M (s.read M c first).1 (.read c second beyond₂ :: events) events') :
      Recut M s (.read c (first ++ second) beyond :: events) (.read c first beyond₁ :: events')

section Read

variable {M : Machine σ (ℕ × Request) (Effect ℕ)} {s : Sessions σ} {c : ℕ}

/-- Nothing is read of a client that has left. -/
lemma arrive_of_residue_eq_none (h : s.residue c = none) (chunk : Bytes) :
    s.arrive c chunk = none := by
  rw [arrive, h]

/-- What arrives of a client that is read from. -/
lemma arrive_of_residue_eq_some {kept chunk : Bytes} (h : s.residue c = some kept)
    (hroom : kept.length + chunk.length ≤ MqttTcpServer.numStreamBytes) :
    s.arrive c chunk = some (messageFramer.cut (kept ++ chunk)) := by
  rw [arrive, h]
  exact if_pos hroom

/-- A read of what arrives. -/
lemma read_of_arrive_eq_some {chunk : Bytes} {frames : List Bytes} {rest : Bytes}
    (h : s.arrive c chunk = some (frames, rest)) :
    s.read M c chunk =
      ({ s.goOn c (frames.filterMap requestOf) rest with
          state := (M.run s.state (MqttTcpServer.inputs c (frames.filterMap requestOf))).1 },
        (M.run s.state (MqttTcpServer.inputs c (frames.filterMap requestOf))).2) := by
  rw [read, h]

/-- A read of a client that has left. -/
lemma read_of_arrive_eq_none {chunk : Bytes} (h : s.arrive c chunk = none) :
    s.read M c chunk = (s, []) := by
  rw [read, h]

/-- What the first part of a chunk completes. -/
lemma CanCut.arrive_first {first second kept : Bytes} (h : s.CanCut c first second)
    (hkept : s.residue c = some kept) :
    s.arrive c first = some (messageFramer.cut (kept ++ first)) := by
  have hroom := h.room kept hkept
  rw [List.length_append] at hroom
  exact arrive_of_residue_eq_some hkept (by omega)

/-- What the whole chunk completes. -/
lemma CanCut.arrive_append {first second kept : Bytes} (h : s.CanCut c first second)
    (hkept : s.residue c = some kept) :
    s.arrive c (first ++ second) =
      let head := messageFramer.cut (kept ++ first)
      let tail := messageFramer.cut (head.2 ++ second)
      some (head.1 ++ tail.1, tail.2) := by
  have hwhole := arrive_of_residue_eq_some hkept (h.room kept hkept)
  rwa [← List.append_assoc, messageFramer.cut_append] at hwhole

/-- What the second part of a chunk completes after the first. -/
lemma arrive_read {first second kept : Bytes} (h : s.CanCut c first second)
    (hkept : s.residue c = some kept) :
    (s.read M c first).1.arrive c second =
      some (messageFramer.cut ((messageFramer.cut (kept ++ first)).2 ++ second)) := by
  have hroom := h.room kept hkept
  rw [List.length_append] at hroom
  have harrive := h.arrive_first hkept
  have hshort := length_residue_le (kept ++ first)
  rw [List.length_append] at hshort
  have hresidue : (s.read M c first).1.residue c =
      some (messageFramer.cut (kept ++ first)).2 := by
    rw [read_of_arrive_eq_some harrive]
    change Function.update s.residue c _ c = _
    have hgoes := h.goesOn _ _ harrive
    rw [Function.update_self, if_neg (by simp [hgoes])]
  exact arrive_of_residue_eq_some hresidue (by omega)

/-- **A chunk in two reads** does what it does in one. -/
theorem read_append {first second : Bytes} (h : s.CanCut c first second) :
    s.read M c (first ++ second) =
      (((s.read M c first).1.read M c second).1,
        (s.read M c first).2 ++ ((s.read M c first).1.read M c second).2) := by
  cases hkept : s.residue c with
  | none =>
    rw [read_of_arrive_eq_none (arrive_of_residue_eq_none hkept _),
      read_of_arrive_eq_none (arrive_of_residue_eq_none hkept first),
      read_of_arrive_eq_none (arrive_of_residue_eq_none hkept second)]
    rfl
  | some kept =>
    have hfirst := h.arrive_first hkept
    obtain ⟨hstays, haccepting⟩ := h.goesOn _ _ hfirst
    rw [read_of_arrive_eq_some (h.arrive_append hkept),
      read_of_arrive_eq_some (arrive_read h hkept), read_of_arrive_eq_some hfirst,
      List.filterMap_append, MqttTcpServer.inputs, List.map_append, Machine.run_append]
    simp only [goOn, Function.update_idem, List.mem_append, hstays, false_or]
    rfl

/-- The parts of a chunk complete what the chunk does. -/
lemma Asks.of_append {P : Request → Prop} {first second : Bytes} {beyond : Span → Bytes}
    (h : s.CanCut c first second) (hasks : s.Asks P (.read c (first ++ second) beyond))
    (beyond₁ beyond₂ : Span → Bytes) :
    s.Asks P (.read c first beyond₁) ∧
      (s.read M c first).1.Asks P (.read c second beyond₂) := by
  cases hkept : s.residue c with
  | none =>
    have hfirst := arrive_of_residue_eq_none hkept first
    have hsecond := arrive_of_residue_eq_none hkept second
    refine ⟨fun frames rest harrive => ?_, fun frames rest harrive => ?_⟩
    · rw [hfirst] at harrive
      cases harrive
    · rw [read_of_arrive_eq_none hfirst, hsecond] at harrive
      cases harrive
  | some kept =>
    have hfirst := h.arrive_first hkept
    have hwhole := h.arrive_append hkept
    refine ⟨fun frames rest harrive f hf => ?_, fun frames rest harrive f hf => ?_⟩
    · obtain rfl := congrArg Prod.fst (Option.some.inj (hfirst.symm.trans harrive))
      exact hasks _ _ hwhole f (List.mem_append_left _ hf)
    · obtain rfl := congrArg Prod.fst (Option.some.inj ((arrive_read h hkept).symm.trans harrive))
      exact hasks _ _ hwhole f (List.mem_append_right _ hf)

/-- A run that begins with a read. -/
lemma run_read_cons (M : Machine σ (ℕ × Request) (Effect ℕ)) (s : Sessions σ) (c : ℕ)
    (chunk : Bytes) (beyond : Span → Bytes) (events : List TcpEvent) :
    (sessionMachine M).run s (.read c chunk beyond :: events) =
      (((sessionMachine M).run (s.read M c chunk).1 events).1,
        (s.read M c chunk).2 ++ ((sessionMachine M).run (s.read M c chunk).1 events).2) := rfl

/-- **Cutting reads does not matter to the sessions.** -/
theorem Recut.run_eq {events events' : List TcpEvent} (h : Recut M s events events') :
    (sessionMachine M).run s events = (sessionMachine M).run s events' := by
  induction h with
  | nil s => rfl
  | event event rest ih => rw [Machine.run_cons, Machine.run_cons, ih]
  | read c chunk beyond beyond' rest ih => rw [run_read_cons, run_read_cons, ih]
  | cut c first second beyond beyond₁ beyond₂ h rest ih =>
    rw [run_read_cons, run_read_cons, ← ih, run_read_cons, read_append h, List.append_assoc]

/-- The frames ask for the same, however the reads are cut. -/
lemma Recut.along_asks {P : Request → Prop} {events events' : List TcpEvent}
    (h : Recut M s events events') (hasks : (sessionMachine M).Along (Asks P) s events) :
    (sessionMachine M).Along (Asks P) s events' := by
  induction h with
  | nil s => trivial
  | event event rest ih => exact ⟨hasks.1, ih hasks.2⟩
  | read c chunk beyond beyond' rest ih => exact ⟨hasks.1, ih hasks.2⟩
  | @cut s c first second beyond beyond₁ beyond₂ events events' h rest ih =>
    obtain ⟨hfirst, hsecond⟩ := hasks.1.of_append (M := M) h beyond₁ beyond₂
    have hrest : (sessionMachine M).Along (Asks P) (s.read M c (first ++ second)).1 events :=
      hasks.2
    rw [read_append h] at hrest
    exact ⟨hfirst, ih ⟨hsecond, hrest⟩⟩

end Read

end Sessions

/-! ## The TCP server -/

section Tcp

variable [BoostSplit]

/-- **How the bytes are cut into reads does not matter to the server**, as long as its frames can be
made out: it calls the same connections with the same bytes in the same order, and in the end it
shows the same, with the bytes kept from each client among it, though its buffers may differ. -/
theorem tcpServerMachine_recut (useCache : Bool) {events events' : List TcpEvent}
    (hcut : Sessions.Recut (serverMachine ℕ) (.new (.new useCache)) events events')
    (h : (sessionMachine (serverMachine ℕ)).Along (Sessions.Asks fun _ => True)
      (.new (.new useCache)) events) :
    ∃ w w' s effects, tcpServerMachine.run (.ok (.new useCache)) events = (.ok w, effects) ∧
      tcpServerMachine.run (.ok (.new useCache)) events' = (.ok w', effects) ∧
      w.Shows s ∧ w'.Shows s := by
  obtain ⟨w, hrun, hshows⟩ := exists_run_shows (MqttTcpServer.shows_new useCache) h
  obtain ⟨w', hrun', hshows'⟩ :=
    exists_run_shows (MqttTcpServer.shows_new useCache) (hcut.along_asks h)
  rw [← hcut.run_eq] at hrun' hshows'
  exact ⟨w, w', _, _, hrun, hrun', hshows, hshows'⟩

end Tcp

/-- A client sends a SUBSCRIBE and a DISCONNECT at once; they arrive in two reads, cut inside the
SUBSCRIBE. -/
theorem tcpServerMachine_recut_subscribe :
    let _ := boostSplit
    let rest : Bytes := [1, 0, 1, 97, 0, 0xe0, 0]
    ∃ w w' s effects,
      tcpServerMachine.run (.ok (.new false))
          [.accept, .read 0 ([0x82, 6, 0] ++ rest) fun _ => []] = (.ok w, effects) ∧
        tcpServerMachine.run (.ok (.new false))
          [.accept, .read 0 [0x82, 6, 0] fun _ => [], .read 0 rest fun _ => [0]] =
            (.ok w', effects) ∧
        w.Shows s ∧ w'.Shows s := by
  intro _ rest
  apply tcpServerMachine_recut false
  · apply Sessions.Recut.event .accept
    apply Sessions.Recut.cut 0 [0x82, 6, 0] rest _ _ (fun _ => [])
    · exact Sessions.canCut_of_all (by decide +kernel) (by decide +kernel)
    · exact .read 0 rest _ _ (.nil _)
  · exact ⟨trivial, Sessions.asks_read_of_all _ (by decide +kernel), trivial⟩

end MqttCpp
