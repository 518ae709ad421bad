import Mathlib.Data.List.Basic
import Mathlib.Data.List.Infix

/-!
# Readers and writers of a format

A reader is a computation that takes its input from a state, the `Cursor`; `Parses m R` says that
it succeeds exactly on the inputs of the format `R`, returns the value `R` relates them to and
moves the cursor behind them, whatever follows.  A writer appends its output to a state, the
`Sink`; `Prints m a output` says that it returns `a` and appends just `output`.

The rules follow the structure of a computation: returning, sequencing, and a loop over a list.
Since `Parses` is an equivalence, the same rules give both what a reader accepts and what it
returns on an accepted input.  `FailsWith m P` says that it fails in the ways of `P` only, and
`Returns m a` that it returns `a` whatever the state is, which its output does not matter for.
-/

universe u v w

/-- If the first of two computations succeeds, the second goes on from there. -/
lemma StateT.bind_of_eq_ok {σ α γ : Type u} {ε : Type w} {m : StateT σ (Except ε) α}
    {f : α → StateT σ (Except ε) γ} {s s' : σ} {a : α} (h : m s = .ok (a, s')) :
    (m >>= f) s = f a s' := by
  change (m s >>= fun p => f p.1 p.2) = _
  rw [h]
  rfl

/-- If the first of two computations fails, so do both. -/
lemma StateT.bind_of_eq_error {σ α γ : Type u} {ε : Type w} {m : StateT σ (Except ε) α}
    {f : α → StateT σ (Except ε) γ} {s : σ} {e : ε} (h : m s = .error e) :
    (m >>= f) s = .error e := by
  change (m s >>= fun p => f p.1 p.2) = _
  rw [h]
  rfl

/-- A computation without a state, and what follows it. -/
lemma StateT.lift_bind {σ α γ : Type u} {ε : Type w} (x : Except ε α)
    (f : α → StateT σ (Except ε) γ) (s : σ) :
    ((x : StateT σ (Except ε) α) >>= f) s = x >>= fun a => f a s := by
  cases x <;> rfl

/-- What two computations return together: what the second returns from where the first ends. -/
lemma StateT.bind_eq_ok_iff {σ α γ : Type u} {ε : Type w} {m : StateT σ (Except ε) α}
    {f : α → StateT σ (Except ε) γ} {s s' : σ} {c : γ} :
    (m >>= f) s = .ok (c, s') ↔ ∃ a s₁, m s = .ok (a, s₁) ∧ f a s₁ = .ok (c, s') := by
  constructor
  · intro h
    cases hms : m s with
    | error e =>
      rw [StateT.bind_of_eq_error hms] at h
      cases h
    | ok p =>
      rw [StateT.bind_of_eq_ok hms] at h
      exact ⟨p.1, p.2, rfl, h⟩
  · rintro ⟨a, s₁, h₁, h₂⟩
    rw [StateT.bind_of_eq_ok h₁, h₂]

/-- How two computations fail together: as the first does, or as the second from where the first
ends. -/
lemma StateT.bind_eq_error_iff {σ α γ : Type u} {ε : Type w} {m : StateT σ (Except ε) α}
    {f : α → StateT σ (Except ε) γ} {s : σ} {e : ε} :
    (m >>= f) s = .error e ↔
      m s = .error e ∨ ∃ a s₁, m s = .ok (a, s₁) ∧ f a s₁ = .error e := by
  constructor
  · intro h
    cases hms : m s with
    | error e' =>
      rw [StateT.bind_of_eq_error hms] at h
      exact Or.inl (congrArg Except.error (Except.error.inj h))
    | ok p =>
      rw [StateT.bind_of_eq_ok hms] at h
      exact Or.inr ⟨p.1, p.2, rfl, h⟩
  · rintro (h | ⟨a, s₁, h₁, h₂⟩)
    · exact StateT.bind_of_eq_error h
    · rw [StateT.bind_of_eq_ok h₁, h₂]

/-! ## Reading -/

/-- A state from which a sequence of `β` is read. -/
class Cursor (σ : Type u) (β : outParam (Type v)) where
  /-- What has not been read. -/
  unread : σ → List β
  /-- Move on by a number of elements. -/
  advance : ℕ → σ → σ
  unread_advance : ∀ n s, unread (advance n s) = (unread s).drop n
  advance_zero : ∀ s, advance 0 s = s
  advance_advance : ∀ m n s, advance n (advance m s) = advance (m + n) s

section Reading

variable {σ : Type u} {β : Type v} [Cursor σ β] {ε : Type w} {α γ : Type u}

open Cursor

/-- The reader accepts exactly the inputs of the format, and moves the cursor behind them. -/
def Parses (m : StateT σ (Except ε) α) (R : α → List β → Prop) : Prop :=
  ∀ s a s', m s = .ok (a, s') ↔
    ∃ input, R a input ∧ input <+: unread s ∧ s' = advance input.length s

/-- What the reader returns it has read from an input of the format, and the cursor is behind
it. -/
def Consumes (m : StateT σ (Except ε) α) (R : α → List β → Prop) : Prop :=
  ∀ s a s', m s = .ok (a, s') →
    ∃ input, R a input ∧ input <+: unread s ∧ s' = advance input.length s

/-- One reader after another has read one input behind the other. -/
theorem Consumes.bind {m : StateT σ (Except ε) α} {f : α → StateT σ (Except ε) γ}
    {R : α → List β → Prop} {R₂ : α → γ → List β → Prop} (hm : Consumes m R)
    (hf : ∀ a, Consumes (f a) (R₂ a)) :
    Consumes (m >>= f) fun c input => ∃ a i j, R a i ∧ R₂ a c j ∧ input = i ++ j := by
  intro s c s' hok
  obtain ⟨a, s₁, h₁, h₂⟩ := StateT.bind_eq_ok_iff.mp hok
  obtain ⟨i, hi, hprefix, rfl⟩ := hm s a s₁ h₁
  obtain ⟨j, hj, hprefix', rfl⟩ := hf a _ c s' h₂
  obtain ⟨rest, hrest⟩ := hprefix
  rw [unread_advance, ← hrest, List.drop_left] at hprefix'
  refine ⟨i ++ j, ⟨a, i, j, hi, hj, rfl⟩, ?_, ?_⟩
  · rw [← hrest]
    exact (List.prefix_append_right_inj i).mpr hprefix'
  · rw [advance_advance, List.length_append]

/-- So has a reader that ends with a fixed function of what was read. -/
lemma Consumes.map {m : StateT σ (Except ε) α} {R : α → List β → Prop} (hm : Consumes m R)
    (g : α → γ) :
    Consumes (m >>= fun a => Pure.pure (g a)) fun c input => ∃ a, R a input ∧ c = g a := by
  intro s c s' hok
  obtain ⟨a, s₁, h₁, h₂⟩ := StateT.bind_eq_ok_iff.mp hok
  obtain ⟨rfl, rfl⟩ := Prod.mk.inj (Except.ok.inj h₂)
  obtain ⟨input, hinput, hprefix, rfl⟩ := hm s a s₁ h₁
  exact ⟨input, ⟨a, hinput, rfl⟩, hprefix, rfl⟩

namespace Parses

variable {m : StateT σ (Except ε) α} {f : α → StateT σ (Except ε) γ} {R R' : α → List β → Prop}

/-- On an input of the format, whatever follows, the reader returns its value. -/
lemma eq_ok (h : Parses m R) {s : σ} {a : α} {input : List β} (hR : R a input)
    (hinput : input <+: unread s) : m s = .ok (a, advance input.length s) :=
  (h s a _).mpr ⟨input, hR, hinput, rfl⟩

/-- An input begins with one value of the format at most. -/
lemma unique (h : Parses m R) {s : σ} {a b : α} {input input' : List β} (ha : R a input)
    (hb : R b input') (hinput : input <+: unread s) (hinput' : input' <+: unread s) : a = b := by
  have heq := (h.eq_ok ha hinput).symm.trans (h.eq_ok hb hinput')
  exact (Prod.mk.inj (Except.ok.inj heq)).1

/-- A format may be described by an equivalent relation. -/
lemma congr (h : Parses m R) (hR : ∀ a input, R a input ↔ R' a input) : Parses m R' := by
  intro s a s'
  rw [h s a s']
  constructor
  · rintro ⟨input, hinput, hprefix, rfl⟩
    exact ⟨input, (hR a input).mp hinput, hprefix, rfl⟩
  · rintro ⟨input, hinput, hprefix, rfl⟩
    exact ⟨input, (hR a input).mpr hinput, hprefix, rfl⟩

/-- Returning a value reads nothing. -/
lemma pure (a : α) :
    Parses (Pure.pure a : StateT σ (Except ε) α) fun b (input : List β) => b = a ∧ input = [] := by
  intro s b s'
  constructor
  · intro h
    obtain ⟨rfl, rfl⟩ := Prod.mk.inj (Except.ok.inj h)
    exact ⟨[], ⟨rfl, rfl⟩, List.nil_prefix, (advance_zero s).symm⟩
  · rintro ⟨_, ⟨rfl, rfl⟩, -, rfl⟩
    exact congrArg (fun s' => Except.ok (b, s')) (advance_zero s).symm

/-- A reader that accepts just a format has read what it returns from an input of it. -/
lemma consumes (h : Parses m R) : Consumes m R := fun s a s' hok => (h s a s').mp hok

/-- One reader after another reads one format behind the other. -/
theorem bind {R₂ : α → γ → List β → Prop} (hm : Parses m R) (hf : ∀ a, Parses (f a) (R₂ a)) :
    Parses (m >>= f) fun c input => ∃ a i j, R a i ∧ R₂ a c j ∧ input = i ++ j := by
  intro s c s'
  constructor
  · exact hm.consumes.bind (fun a => (hf a).consumes) s c s'
  · rintro ⟨input, ⟨a, i, j, hi, hj, rfl⟩, hprefix, rfl⟩
    obtain ⟨rest, hrest⟩ := hprefix
    have hfirst : i <+: unread s := ⟨j ++ rest, by rw [← hrest, List.append_assoc]⟩
    have hsecond : j <+: unread (advance i.length s) := by
      rw [unread_advance, ← hrest, List.append_assoc, List.drop_left]
      exact List.prefix_append j rest
    rw [StateT.bind_of_eq_ok (hm.eq_ok hi hfirst), (hf a).eq_ok hj hsecond, advance_advance,
      List.length_append]

/-- A reader that ends with a fixed function of what was read. -/
lemma map (hm : Parses m R) (g : α → γ) :
    Parses (m >>= fun a => Pure.pure (g a)) fun c input => ∃ a, R a input ∧ c = g a := by
  refine (hm.bind fun a => Parses.pure (g a)).congr fun c input => ?_
  constructor
  · rintro ⟨a, i, _, hi, ⟨rfl, rfl⟩, rfl⟩
    exact ⟨a, by rwa [List.append_nil], rfl⟩
  · rintro ⟨a, ha, rfl⟩
    exact ⟨a, input, [], ha, ⟨rfl, rfl⟩, (List.append_nil input).symm⟩

end Parses

/-- A loop over a list reads one element of the format for each element of the list. -/
theorem Parses.mapM {σ : Type u} {β : Type u} [Cursor σ β] {f : β → StateT σ (Except ε) β}
    (h : ∀ b, Parses (f b) fun c (input : List β) => input = [c]) (bs : List β) :
    Parses (bs.mapM f) fun cs (input : List β) => cs.length = bs.length ∧ input = cs := by
  induction bs with
  | nil =>
    rw [List.mapM_nil]
    refine (Parses.pure []).congr fun cs input => ?_
    rw [List.length_nil, List.length_eq_zero_iff]
    constructor
    · rintro ⟨rfl, rfl⟩
      exact ⟨rfl, rfl⟩
    · rintro ⟨rfl, rfl⟩
      exact ⟨rfl, rfl⟩
  | cons b bs ih =>
    rw [List.mapM_cons]
    refine ((h b).bind fun c => ih.map (c :: ·)).congr fun cs input => ?_
    constructor
    · rintro ⟨c, _, _, rfl, ⟨ds, ⟨hlen, rfl⟩, rfl⟩, rfl⟩
      exact ⟨by rw [List.length_cons, List.length_cons, hlen], rfl⟩
    · rintro ⟨hlen, rfl⟩
      cases input with
      | nil => cases hlen
      | cons c cs => exact ⟨c, [c], cs, rfl, ⟨cs, ⟨Nat.succ.inj hlen, rfl⟩, rfl⟩, rfl⟩

/-- A loop over a list reads one encoding for each element of the list. -/
theorem Parses.mapM_encode {f : α → StateT σ (Except ε) α} {valid : α → Prop}
    {encode : α → List β}
    {as : List α}
    (h : ∀ a ∈ as, Parses (f a) fun c (input : List β) => valid c ∧ input = encode c) :
    Parses (as.mapM f) fun cs (input : List β) =>
      cs.length = as.length ∧ (∀ c ∈ cs, valid c) ∧ input = cs.flatMap encode := by
  induction as with
  | nil =>
    rw [List.mapM_nil]
    refine (Parses.pure []).congr fun cs input => ?_
    rw [List.length_nil, List.length_eq_zero_iff]
    constructor
    · rintro ⟨rfl, rfl⟩
      simp
    · rintro ⟨rfl, -, rfl⟩
      simp
  | cons a as ih =>
    rw [List.mapM_cons]
    have hrest := ih fun b hb => h b (List.mem_cons_of_mem a hb)
    refine ((h a List.mem_cons_self).bind fun c => hrest.map (c :: ·)).congr fun cs input => ?_
    constructor
    · rintro ⟨c, _, _, ⟨hc, rfl⟩, ⟨ds, ⟨hlen, hds, rfl⟩, rfl⟩, rfl⟩
      refine ⟨by rw [List.length_cons, List.length_cons, hlen], ?_, rfl⟩
      exact List.forall_mem_cons.mpr ⟨hc, hds⟩
    · rintro ⟨hlen, hcs, rfl⟩
      cases cs with
      | nil => cases hlen
      | cons c cs =>
        obtain ⟨hc, hds⟩ := List.forall_mem_cons.mp hcs
        exact ⟨c, encode c, cs.flatMap encode, ⟨hc, rfl⟩,
          ⟨cs, ⟨Nat.succ.inj hlen, hds, rfl⟩, rfl⟩, rfl⟩

end Reading

/-! ## Failing -/

/-- The reader fails in the ways of `P` only. -/
def FailsWith {σ α : Type u} {ε : Type w} (m : StateT σ (Except ε) α) (P : ε → Prop) : Prop :=
  ∀ s e, m s = .error e → P e

namespace FailsWith

variable {σ : Type u} {ε : Type w} {α γ : Type u} {P : ε → Prop}

/-- There may be further ways that it does not fail in. -/
lemma mono {Q : ε → Prop} {m : StateT σ (Except ε) α} (hm : FailsWith m P)
    (h : ∀ e, P e → Q e) : FailsWith m Q := fun s e he => h e (hm s e he)

/-- Returning a value does not fail. -/
lemma pure (a : α) : FailsWith (Pure.pure a : StateT σ (Except ε) α) P := by
  intro s e h
  cases h

/-- One reader after another fails as one of them does. -/
lemma bind {m : StateT σ (Except ε) α} {f : α → StateT σ (Except ε) γ} (hm : FailsWith m P)
    (hf : ∀ a, FailsWith (f a) P) : FailsWith (m >>= f) P := by
  intro s e h
  rcases StateT.bind_eq_error_iff.mp h with h | ⟨a, s₁, -, h⟩
  · exact hm s e h
  · exact hf a s₁ e h

/-- A loop over a list fails as its body does. -/
lemma mapM {f : α → StateT σ (Except ε) γ} (h : ∀ a, FailsWith (f a) P) (as : List α) :
    FailsWith (as.mapM f) P := by
  induction as with
  | nil =>
    rw [List.mapM_nil]
    exact pure []
  | cons a as ih =>
    rw [List.mapM_cons]
    exact (h a).bind fun c => ih.bind fun cs => pure (c :: cs)

end FailsWith

/-! ## Returning -/

/-- The computation returns `a`, from whatever state it starts. -/
def Returns {σ α : Type u} {ε : Type w} (m : StateT σ (Except ε) α) (a : α) : Prop :=
  ∀ s, ∃ s', m s = .ok (a, s')

namespace Returns

variable {σ α γ : Type u} {ε : Type w} {m : StateT σ (Except ε) α} {a : α}

/-- It returns nothing else. -/
lemma eq_ok_iff (h : Returns m a) (s : σ) (b : α) : (∃ s', m s = .ok (b, s')) ↔ b = a := by
  obtain ⟨s₁, hok⟩ := h s
  constructor
  · rintro ⟨s', hs'⟩
    exact (Prod.mk.inj (Except.ok.inj (hs'.symm.trans hok))).1
  · rintro rfl
    exact ⟨s₁, hok⟩

/-- Returning a value. -/
lemma pure (a : α) : Returns (Pure.pure a : StateT σ (Except ε) α) a := fun s => ⟨s, rfl⟩

/-- Two computations one after the other return what the second does. -/
lemma bind {f : α → StateT σ (Except ε) γ} {c : γ} (hm : Returns m a) (hf : Returns (f a) c) :
    Returns (m >>= f) c := by
  intro s
  obtain ⟨s₁, hok⟩ := hm s
  rw [StateT.bind_of_eq_ok hok]
  exact hf s₁

/-- A computation that ends with returning a function of what it has. -/
lemma bind_pure (hm : Returns m a) (g : α → γ) :
    Returns (m >>= fun a => Pure.pure (g a)) (g a) := hm.bind (.pure (g a))

/-- A loop over a list returns what its body does for each element. -/
lemma mapM {f : α → StateT σ (Except ε) γ} {g : α → γ} {as : List α}
    (h : ∀ a ∈ as, Returns (f a) (g a)) : Returns (as.mapM f) (as.map g) := by
  induction as with
  | nil =>
    rw [List.mapM_nil]
    exact pure []
  | cons a as ih =>
    rw [List.mapM_cons, List.map_cons]
    have hrest := ih fun a' ha' => h a' (List.mem_cons_of_mem a ha')
    exact (h a List.mem_cons_self).bind (hrest.bind_pure (g a :: ·))

end Returns

/-! ## Writing -/

/-- A state to which a sequence of `β` is written. -/
class Sink (σ : Type u) (β : outParam (Type v)) where
  /-- Write behind what has been written. -/
  emit : List β → σ → σ
  emit_nil : ∀ s, emit [] s = s
  emit_emit : ∀ xs ys s, emit ys (emit xs s) = emit (xs ++ ys) s

section Writing

variable {σ : Type u} {β : Type v} [Sink σ β] {ε : Type w} {α γ : Type u}

open Sink

/-- The writer returns `a` and writes just `output`. -/
def Prints (m : StateT σ (Except ε) α) (a : α) (output : List β) : Prop :=
  ∀ s, m s = .ok (a, emit output s)

namespace Prints

/-- Returning a value writes nothing. -/
lemma pure (a : α) : Prints (Pure.pure a : StateT σ (Except ε) α) a ([] : List β) :=
  fun s => congrArg (fun s' => Except.ok (a, s')) (emit_nil s).symm

/-- It returns its value from every state. -/
lemma returns {m : StateT σ (Except ε) α} {a : α} {output : List β} (hm : Prints m a output) :
    Returns m a := fun s => ⟨emit output s, hm s⟩

/-- One writer after another writes one output behind the other. -/
lemma bind {m : StateT σ (Except ε) α} {f : α → StateT σ (Except ε) γ} {a : α} {c : γ}
    {output output' : List β} (hm : Prints m a output) (hf : Prints (f a) c output') :
    Prints (m >>= f) c (output ++ output') := by
  intro s
  rw [StateT.bind_of_eq_ok (hm s), hf, emit_emit]

/-- A writer that ends with returning a value. -/
lemma bind_pure {m : StateT σ (Except ε) α} {a : α} {output : List β} (hm : Prints m a output)
    (g : α → γ) : Prints (m >>= fun a => Pure.pure (g a)) (g a) output := by
  have hbind : Prints (m >>= fun a => Pure.pure (g a)) (g a) (output ++ []) :=
    hm.bind (Prints.pure (g a))
  rwa [List.append_nil] at hbind

/-- A loop over a list writes the outputs of its elements in order, and returns what it has made of
them. -/
lemma mapM_map {f : α → StateT σ (Except ε) α} {g : α → α} {encode : α → List β} {as : List α}
    (h : ∀ a ∈ as, Prints (f a) (g a) (encode a)) :
    Prints (as.mapM f) (as.map g) (as.flatMap encode) := by
  induction as with
  | nil =>
    rw [List.mapM_nil]
    exact Prints.pure []
  | cons a as ih =>
    rw [List.mapM_cons, List.flatMap_cons, List.map_cons]
    have hrest := ih fun a' ha' => h a' (List.mem_cons_of_mem a ha')
    exact (h a List.mem_cons_self).bind (hrest.bind_pure (g a :: ·))

/-- A loop over a list writes the outputs of its elements in order. -/
lemma mapM {f : α → StateT σ (Except ε) α} {encode : α → List β} {as : List α}
    (h : ∀ a ∈ as, Prints (f a) a (encode a)) : Prints (as.mapM f) as (as.flatMap encode) := by
  have hmap : Prints (as.mapM f) (as.map id) (as.flatMap encode) := mapM_map h
  rwa [List.map_id] at hmap

end Prints

end Writing
