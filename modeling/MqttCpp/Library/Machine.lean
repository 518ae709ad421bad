import Mathlib.Data.List.Basic

/-!
# Machines and their runs

A `Machine` takes inputs one at a time, changes its state and emits a list of outputs.  `run`
feeds it a list of inputs and concatenates the outputs.

Two rules carry the inductions over runs.  `run_simulation`: if a relation between the states
of two machines is kept by every step, and related states emit the same outputs, then whole
runs emit the same outputs.  `always_of_along`: an invariant that every permitted step keeps
holds in every state of a run whose steps are all permitted.  `observed_run_eq` is the unwinding
rule of noninterference: what an observer sees of a run is what is seen of the inputs that concern
it alone.  `trace` collects what is observed of the steps of a run, and `run_trace_simulation` is
the rule for a machine whose steps are runs of another; `run_trace_simulation_pending` allows the
first to emit later what the second emits at once.
-/

universe u v w x

/-- A deterministic machine with states `σ`, inputs `ι` and outputs `ο`. -/
structure Machine (σ : Type u) (ι : Type v) (ο : Type w) where
  /-- One step: the next state, and what is emitted. -/
  step : σ → ι → σ × List ο

namespace Machine

variable {σ : Type u} {τ : Type x} {ι : Type v} {ο : Type w}

/-- Feed the inputs in order: the last state, and everything that is emitted on the way. -/
def run (M : Machine σ ι ο) : σ → List ι → σ × List ο
  | s, [] => (s, [])
  | s, i :: is =>
    ((M.run (M.step s i).1 is).1, (M.step s i).2 ++ (M.run (M.step s i).1 is).2)

@[simp] lemma run_nil (M : Machine σ ι ο) (s : σ) : M.run s [] = (s, []) := rfl

lemma run_cons (M : Machine σ ι ο) (s : σ) (i : ι) (is : List ι) :
    M.run s (i :: is) =
      ((M.run (M.step s i).1 is).1, (M.step s i).2 ++ (M.run (M.step s i).1 is).2) := rfl

/-- A run of one step. -/
lemma run_singleton (M : Machine σ ι ο) (s : σ) (i : ι) : M.run s [i] = M.step s i := by
  rw [run_cons, run_nil, List.append_nil]

/-- Running a concatenation is running its parts one after the other. -/
theorem run_append (M : Machine σ ι ο) (s : σ) (is js : List ι) :
    M.run s (is ++ js) =
      ((M.run (M.run s is).1 js).1, (M.run s is).2 ++ (M.run (M.run s is).1 js).2) := by
  induction is generalizing s with
  | nil => rfl
  | cons i is ih => rw [List.cons_append, run_cons, ih, run_cons, List.append_assoc]

/-! ## Simulation -/

/-- Every step from related states leads to related states and emits the same. -/
def Simulates (M : Machine σ ι ο) (N : Machine τ ι ο) (R : σ → τ → Prop) : Prop :=
  ∀ s t i, R s t → R (M.step s i).1 (N.step t i).1 ∧ (M.step s i).2 = (N.step t i).2

/-- Whole runs from related states end in related states and emit the same. -/
theorem run_simulation {M : Machine σ ι ο} {N : Machine τ ι ο} {R : σ → τ → Prop}
    (h : M.Simulates N R) {s : σ} {t : τ} (hst : R s t) (is : List ι) :
    R (M.run s is).1 (N.run t is).1 ∧ (M.run s is).2 = (N.run t is).2 := by
  induction is generalizing s t with
  | nil => exact ⟨hst, rfl⟩
  | cons i is ih =>
    obtain ⟨hnext, hout⟩ := h s t i hst
    obtain ⟨hlast, hrest⟩ := ih hnext
    exact ⟨hlast, by rw [run_cons, run_cons, hout, hrest]⟩

/-- The same for inputs of a kind, and for machines that need not emit the same: what they emit
is related by `T`, which concatenation keeps. -/
theorem run_simulation_of {ο' : Type w} {M : Machine σ ι ο} {N : Machine τ ι ο'}
    {R : σ → τ → Prop} {P : ι → Prop} {T : List ο → List ο' → Prop} (hnil : T [] [])
    (happend : ∀ os ps os' ps', T os os' → T ps ps' → T (os ++ ps) (os' ++ ps'))
    (h : ∀ s t i, P i → R s t →
      R (M.step s i).1 (N.step t i).1 ∧ T (M.step s i).2 (N.step t i).2)
    {s : σ} {t : τ} (hst : R s t) {is : List ι} (his : ∀ i ∈ is, P i) :
    R (M.run s is).1 (N.run t is).1 ∧ T (M.run s is).2 (N.run t is).2 := by
  induction is generalizing s t with
  | nil => exact ⟨hst, hnil⟩
  | cons i is ih =>
    obtain ⟨hnext, hout⟩ := h s t i (his i List.mem_cons_self) hst
    obtain ⟨hlast, hrest⟩ := ih hnext fun j hj => his j (List.mem_cons_of_mem i hj)
    exact ⟨hlast, happend _ _ _ _ hout hrest⟩

/-! ## Noninterference -/

/-- **Unwinding.**  The states are related as they seem to an observer.  If inputs that concern it
keep states related and show it the same, and all others keep the state as it was to it and show
it nothing, then it sees of a run what it sees of the inputs that concern it. -/
theorem observed_run_eq {M : Machine σ ι ο} {R : σ → σ → Prop} {concerns : ι → Bool}
    {seen : ο → Bool}
    (hsame : ∀ s t i, R s t → concerns i = true →
      R (M.step s i).1 (M.step t i).1 ∧ (M.step s i).2.filter seen = (M.step t i).2.filter seen)
    (hother : ∀ s t i, R s t → concerns i = false →
      R (M.step s i).1 t ∧ (M.step s i).2.filter seen = [])
    {s t : σ} (h : R s t) (is : List ι) :
    (M.run s is).2.filter seen = (M.run t (is.filter concerns)).2.filter seen := by
  induction is generalizing s t with
  | nil => rfl
  | cons i is ih =>
    rw [run_cons, List.filter_append]
    cases hi : concerns i with
    | true =>
      obtain ⟨hnext, hout⟩ := hsame s t i h hi
      rw [List.filter_cons_of_pos hi, run_cons, List.filter_append, hout, ih hnext]
    | false =>
      obtain ⟨hnext, hout⟩ := hother s t i h hi
      have hi' : ¬concerns i = true := by simp [hi]
      rw [List.filter_cons_of_neg hi', hout, List.nil_append, ih hnext]

/-- The same for a machine all of whose outputs are seen: inputs that do not matter can be left
out. -/
theorem run_filter_eq {M : Machine σ ι ο} {R : σ → σ → Prop} {matters : ι → Bool}
    (hsame : ∀ s t i, R s t → matters i = true →
      R (M.step s i).1 (M.step t i).1 ∧ (M.step s i).2 = (M.step t i).2)
    (hother : ∀ s t i, R s t → matters i = false →
      R (M.step s i).1 t ∧ (M.step s i).2 = [])
    {s t : σ} (h : R s t) (is : List ι) :
    R (M.run s is).1 (M.run t (is.filter matters)).1 ∧
      (M.run s is).2 = (M.run t (is.filter matters)).2 := by
  induction is generalizing s t with
  | nil => exact ⟨h, rfl⟩
  | cons i is ih =>
    cases hi : matters i with
    | true =>
      obtain ⟨hnext, hout⟩ := hsame s t i h hi
      obtain ⟨hlast, hrest⟩ := ih hnext
      rw [List.filter_cons_of_pos hi, run_cons, run_cons]
      exact ⟨hlast, by rw [hout, hrest]⟩
    | false =>
      obtain ⟨hnext, hout⟩ := hother s t i h hi
      obtain ⟨hlast, hrest⟩ := ih hnext
      have hi' : ¬matters i = true := by simp [hi]
      rw [List.filter_cons_of_neg hi', run_cons, hout]
      exact ⟨hlast, hrest⟩

/-! ## Invariants -/

/-- `Q` holds in every state of the run, the first and the last included. -/
def Always (M : Machine σ ι ο) (Q : σ → Prop) : σ → List ι → Prop
  | s, [] => Q s
  | s, i :: is => Q s ∧ M.Always Q (M.step s i).1 is

/-- `P` holds of every step of the run: of the state before it and its input. -/
def Along (M : Machine σ ι ο) (P : σ → ι → Prop) : σ → List ι → Prop
  | _, [] => True
  | s, i :: is => P s i ∧ M.Along P (M.step s i).1 is

/-- A run whose steps are all permitted stays inside an invariant of the permitted steps. -/
theorem always_of_along {M : Machine σ ι ο} {P : σ → ι → Prop} {Q : σ → Prop}
    (h : ∀ s i, Q s → P s i → Q (M.step s i).1) {s : σ} (hs : Q s) {is : List ι}
    (hP : M.Along P s is) : M.Always Q s is := by
  induction is generalizing s with
  | nil => exact hs
  | cons i is ih => exact ⟨hs, ih (h s i hs hP.1) hP.2⟩

/-- If every step that is not permitted, of those that `P'` permits, breaks `Q`, a run of such steps
that keeps `Q` has only permitted steps. -/
theorem Along.of_always {M : Machine σ ι ο} {P P' : σ → ι → Prop} {Q : σ → Prop}
    (h : ∀ s i, Q s → P' s i → Q (M.step s i).1 → P s i) {s : σ} {is : List ι}
    (hP' : M.Along P' s is) (hQ : M.Always Q s is) : M.Along P s is := by
  induction is generalizing s with
  | nil => trivial
  | cons i is ih =>
    have hnext : Q (M.step s i).1 := by
      cases is with
      | nil => exact hQ.2
      | cons j js => exact hQ.2.1
    exact ⟨h s i hQ.1 hP'.1 hnext, ih hP'.2 hQ.2⟩

/-- Two conditions that mean the same wherever an invariant holds, for inputs of a kind, mean the
same along a run of such inputs, if permitted steps keep the invariant. -/
theorem along_congr {M : Machine σ ι ο} {I : σ → Prop} {J : ι → Prop} {P P' : σ → ι → Prop}
    (hstep : ∀ s i, I s → J i → P s i → I (M.step s i).1)
    (h : ∀ s i, I s → J i → (P s i ↔ P' s i)) {s : σ} (hs : I s) {is : List ι}
    (his : ∀ i ∈ is, J i) : M.Along P s is ↔ M.Along P' s is := by
  induction is generalizing s with
  | nil => exact Iff.rfl
  | cons i is ih =>
    have hi : J i := his i List.mem_cons_self
    have hiff := h s i hs hi
    have hrest : P s i → (M.Along P (M.step s i).1 is ↔ M.Along P' (M.step s i).1 is) :=
      fun hP => ih (hstep s i hs hi hP) fun j hj => his j (List.mem_cons_of_mem i hj)
    constructor
    · rintro ⟨hP, halong⟩
      exact ⟨hiff.mp hP, (hrest hP).mp halong⟩
    · rintro ⟨hP', halong⟩
      exact ⟨hiff.mpr hP', (hrest (hiff.mpr hP')).mpr halong⟩

/-- Every step of a concatenation is permitted if every step of its parts is. -/
theorem Along.append {M : Machine σ ι ο} {P : σ → ι → Prop} {s : σ} {is js : List ι}
    (h : M.Along P s is) (h' : M.Along P (M.run s is).1 js) : M.Along P s (is ++ js) := by
  induction is generalizing s with
  | nil => exact h'
  | cons i is ih => exact ⟨h.1, ih h.2 h'⟩

/-- A condition on the inputs alone. -/
lemma along_iff_forall_mem {M : Machine σ ι ο} {P : ι → Prop} {s : σ} {is : List ι} :
    M.Along (fun _ i => P i) s is ↔ ∀ i ∈ is, P i := by
  induction is generalizing s with
  | nil => simp [Along]
  | cons i is ih => rw [Along, ih, List.forall_mem_cons]

/-- If every step that is not permitted breaks `Q`, a run that keeps `Q` has only permitted
steps. -/
theorem along_of_always {M : Machine σ ι ο} {P : σ → ι → Prop} {Q : σ → Prop}
    (h : ∀ s i, Q s → Q (M.step s i).1 → P s i) {s : σ} {is : List ι}
    (hQ : M.Always Q s is) : M.Along P s is := by
  have hall : M.Along (fun _ _ => True) s is :=
    along_iff_forall_mem (P := fun _ => True).mpr fun _ _ => trivial
  exact hall.of_always (fun s i hs _ hnext => h s i hs hnext) hQ

/-- The same for a run of which every step, as the second machine takes it, is permitted. -/
theorem run_simulation_along {ο' : Type w} {M : Machine σ ι ο} {N : Machine τ ι ο'}
    {R : σ → τ → Prop} {P : τ → ι → Prop} {T : List ο → List ο' → Prop} (hnil : T [] [])
    (happend : ∀ os ps os' ps', T os os' → T ps ps' → T (os ++ ps) (os' ++ ps'))
    (h : ∀ s t i, R s t → P t i →
      R (M.step s i).1 (N.step t i).1 ∧ T (M.step s i).2 (N.step t i).2)
    {s : σ} {t : τ} (hst : R s t) {is : List ι} (hP : N.Along P t is) :
    R (M.run s is).1 (N.run t is).1 ∧ T (M.run s is).2 (N.run t is).2 := by
  induction is generalizing s t with
  | nil => exact ⟨hst, hnil⟩
  | cons i is ih =>
    obtain ⟨hnext, hout⟩ := h s t i hst hP.1
    obtain ⟨hlast, hrest⟩ := ih hnext hP.2
    exact ⟨hlast, happend _ _ _ _ hout hrest⟩

/-- A run of permitted steps with inputs of a kind ends inside an invariant of such steps. -/
theorem run_of_along {M : Machine σ ι ο} {I : σ → Prop} {J : ι → Prop} {P : σ → ι → Prop}
    (hstep : ∀ s i, I s → J i → P s i → I (M.step s i).1) {s : σ} (hs : I s) {is : List ι}
    (his : ∀ i ∈ is, J i) (hP : M.Along P s is) : I (M.run s is).1 := by
  induction is generalizing s with
  | nil => exact hs
  | cons i is ih =>
    have hnext := hstep s i hs (his i List.mem_cons_self) hP.1
    exact ih hnext (fun j hj => his j (List.mem_cons_of_mem i hj)) hP.2

/-- What follows from a property holds wherever the property does. -/
theorem Always.mono {M : Machine σ ι ο} {Q Q' : σ → Prop} (h : ∀ s, Q s → Q' s) {s : σ}
    {is : List ι} (hQ : M.Always Q s is) : M.Always Q' s is := by
  induction is generalizing s with
  | nil => exact h s hQ
  | cons i is ih => exact ⟨h s hQ.1, ih hQ.2⟩

/-- Two properties that hold everywhere hold everywhere together. -/
theorem Always.and {M : Machine σ ι ο} {Q Q' : σ → Prop} {s : σ} {is : List ι}
    (hQ : M.Always Q s is) (hQ' : M.Always Q' s is) :
    M.Always (fun s => Q s ∧ Q' s) s is := by
  induction is generalizing s with
  | nil => exact ⟨hQ, hQ'⟩
  | cons i is ih => exact ⟨⟨hQ.1, hQ'.1⟩, ih hQ.2 hQ'.2⟩

/-- What holds in every state holds in the last. -/
theorem Always.last {M : Machine σ ι ο} {Q : σ → Prop} {s : σ} {is : List ι}
    (hQ : M.Always Q s is) : Q (M.run s is).1 := by
  induction is generalizing s with
  | nil => exact hQ
  | cons i is ih => exact ih hQ.2

/-- An invariant of all steps holds in every state of every run. -/
theorem always_of_invariant {M : Machine σ ι ο} {Q : σ → Prop}
    (h : ∀ s i, Q s → Q (M.step s i).1) {s : σ} (hs : Q s) (is : List ι) : M.Always Q s is := by
  induction is generalizing s with
  | nil => exact hs
  | cons i is ih => exact ⟨hs, ih (h s i hs)⟩

/-- An invariant of all steps holds in the last state of every run. -/
theorem run_invariant {M : Machine σ ι ο} {Q : σ → Prop}
    (h : ∀ s i, Q s → Q (M.step s i).1) {s : σ} (hs : Q s) (is : List ι) :
    Q (M.run s is).1 := (always_of_invariant h hs is).last

/-- An invariant of the steps with permitted inputs that also says what they emit holds in the
last state of a run with permitted inputs, and says what the run emits. -/
theorem run_spec {M : Machine σ ι ο} {Q : σ → Prop} {P : ι → Prop} {T : ο → Prop}
    (h : ∀ s i, Q s → P i → Q (M.step s i).1 ∧ ∀ o ∈ (M.step s i).2, T o) {s : σ} (hs : Q s)
    {is : List ι} (his : ∀ i ∈ is, P i) : Q (M.run s is).1 ∧ ∀ o ∈ (M.run s is).2, T o := by
  induction is generalizing s with
  | nil => exact ⟨hs, fun o ho => absurd ho List.not_mem_nil⟩
  | cons i is ih =>
    obtain ⟨hnext, hout⟩ := h s i hs (his i List.mem_cons_self)
    obtain ⟨hlast, hrest⟩ := ih hnext fun j hj => his j (List.mem_cons_of_mem i hj)
    refine ⟨hlast, fun o ho => ?_⟩
    rw [run_cons] at ho
    rcases List.mem_append.mp ho with ho | ho
    · exact hout o ho
    · exact hrest o ho

/-! ## Traces -/

variable {κ : Type x}

/-- What is observed of the steps of a run, one after the other. -/
def trace (M : Machine σ ι ο) (f : σ → ι → List κ) : σ → List ι → List κ
  | _, [] => []
  | s, i :: is => f s i ++ M.trace f (M.step s i).1 is

@[simp] lemma trace_nil (M : Machine σ ι ο) (f : σ → ι → List κ) (s : σ) :
    M.trace f s [] = [] := rfl

lemma trace_cons (M : Machine σ ι ο) (f : σ → ι → List κ) (s : σ) (i : ι) (is : List ι) :
    M.trace f s (i :: is) = f s i ++ M.trace f (M.step s i).1 is := rfl

/-- An invariant of the state and of what has been observed so far holds at the end of every
run. -/
theorem trace_invariant {M : Machine σ ι ο} {f : σ → ι → List κ} {Q : σ → List κ → Prop}
    (h : ∀ s ks i, Q s ks → Q (M.step s i).1 (ks ++ f s i)) {s : σ} {ks : List κ} (hs : Q s ks)
    (is : List ι) : Q (M.run s is).1 (ks ++ M.trace f s is) := by
  induction is generalizing s ks with
  | nil => simpa using hs
  | cons i is ih =>
    rw [run_cons, trace_cons, ← List.append_assoc]
    exact ih (h s ks i hs)

/-- What a run emits is the trace of what its steps emit. -/
lemma run_snd_eq_trace (M : Machine σ ι ο) (s : σ) (is : List ι) :
    (M.run s is).2 = M.trace (fun s i => (M.step s i).2) s is := by
  induction is generalizing s with
  | nil => rfl
  | cons i is ih => rw [run_cons, trace_cons, ih]

/-- The trace of a concatenation. -/
lemma trace_append (M : Machine σ ι ο) (f : σ → ι → List κ) (s : σ) (is js : List ι) :
    M.trace f s (is ++ js) = M.trace f s is ++ M.trace f (M.run s is).1 js := by
  induction is generalizing s with
  | nil => rfl
  | cons i is ih => rw [List.cons_append, trace_cons, trace_cons, ih, List.append_assoc]; rfl

/-- **Steps that take effect at once.**  Of each step of a machine a list of inputs of another is
observed, which does at once what the first may do in this step or later.  If the outputs that are
still `pending`, followed by those of the second machine, are always those of the first followed by
what is then pending, then this holds of whole runs. -/
theorem run_trace_simulation_pending {ι' : Type x} {M : Machine σ ι ο} {N : Machine τ ι' ο}
    {f : σ → ι → List ι'} {R : σ → τ → Prop} {pending : σ → List ο}
    (h : ∀ s t i, R s t → R (M.step s i).1 (N.run t (f s i)).1 ∧
      pending s ++ (N.run t (f s i)).2 = (M.step s i).2 ++ pending (M.step s i).1)
    {s : σ} {t : τ} (hst : R s t) (is : List ι) :
    R (M.run s is).1 (N.run t (M.trace f s is)).1 ∧
      pending s ++ (N.run t (M.trace f s is)).2 = (M.run s is).2 ++ pending (M.run s is).1 := by
  induction is generalizing s t with
  | nil => exact ⟨hst, by simp⟩
  | cons i is ih =>
    obtain ⟨hnext, hout⟩ := h s t i hst
    obtain ⟨hlast, hrest⟩ := ih hnext
    rw [trace_cons, run_append, run_cons]
    refine ⟨hlast, ?_⟩
    calc pending s ++ ((N.run t (f s i)).2 ++ (N.run (N.run t (f s i)).1
            (M.trace f (M.step s i).1 is)).2)
        = (M.step s i).2 ++ (pending (M.step s i).1 ++
            (N.run (N.run t (f s i)).1 (M.trace f (M.step s i).1 is)).2) := by
          rw [← List.append_assoc, hout, List.append_assoc]
      _ = _ := by rw [hrest, List.append_assoc]

/-- If every step of a machine does what another does with a list of inputs that is observed of the
step, a run does what the other does with the trace. -/
theorem run_trace_simulation {ι' : Type x} {M : Machine σ ι ο} {N : Machine τ ι' ο}
    {f : σ → ι → List ι'} {R : σ → τ → Prop}
    (h : ∀ s t i, R s t → R (M.step s i).1 (N.run t (f s i)).1 ∧
      (M.step s i).2 = (N.run t (f s i)).2) {s : σ} {t : τ} (hst : R s t) (is : List ι) :
    R (M.run s is).1 (N.run t (M.trace f s is)).1 ∧
      (M.run s is).2 = (N.run t (M.trace f s is)).2 := by
  let pending : σ → List ο := fun _ => []
  have hstep : ∀ s t i, R s t → R (M.step s i).1 (N.run t (f s i)).1 ∧
      pending s ++ (N.run t (f s i)).2 = (M.step s i).2 ++ pending (M.step s i).1 := by
    intro s t i hst
    obtain ⟨hnext, hout⟩ := h s t i hst
    exact ⟨hnext, by rw [hout, List.append_nil]; rfl⟩
  obtain ⟨hlast, hout⟩ := run_trace_simulation_pending hstep hst is
  exact ⟨hlast, by simpa [pending] using hout.symm⟩

/-- **Every step can be realised.**  If for every step of a machine another has a list of permitted
steps that does the same, then for every run it has a run of permitted steps that does the same. -/
theorem exists_run_of_steps {ι' : Type x} {M : Machine σ ι ο} {N : Machine τ ι' ο}
    {R : σ → τ → Prop} {P : σ → ι → Prop}
    (h : ∀ s t i, R s t → ∃ is, M.Along P s is ∧ R (M.run s is).1 (N.step t i).1 ∧
      (M.run s is).2 = (N.step t i).2) {s : σ} {t : τ} (hst : R s t) (js : List ι') :
    ∃ is, M.Along P s is ∧ R (M.run s is).1 (N.run t js).1 ∧ (M.run s is).2 = (N.run t js).2 := by
  induction js generalizing s t with
  | nil => exact ⟨[], trivial, hst, rfl⟩
  | cons j js ih =>
    obtain ⟨is, hpermitted, hnext, hout⟩ := h s t j hst
    obtain ⟨is', hpermitted', hlast, hrest⟩ := ih hnext
    refine ⟨is ++ is', hpermitted.append hpermitted', ?_⟩
    rw [run_append, run_cons, hout, hrest]
    exact ⟨hlast, rfl⟩

end Machine
