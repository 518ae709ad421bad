import Mathlib.Algebra.Group.Nat.Defs
import Mathlib.Data.List.Basic

/-!
# Bytes, spans and faults

The vocabulary the other modules share: byte strings, the ways in which the process can stop
instead of going on, and `gsl::span`, a view of memory by pointer and size.

A pointer is represented by the memory that can be read from it on.  So a view that is formed by
pointer arithmetic still shows what lies behind its end, which the code reads when a length it was
sent is too large.
-/

namespace MqttCpp

/-- A `std::vector<ubyte>`. -/
abbrev Bytes := List UInt8

/-- A `std::string`, as the bytes of its characters. -/
abbrev Str := List UInt8

/-- Strings are compared byte by byte. -/
instance lawfulBEqStr : LawfulBEq Str := inferInstance

/-- The ways in which a step of the process does not come to an end. -/
inductive Fault where
  /-- An address is read at which no memory is known to be. -/
  | badRead
  /-- A failed `assert`. -/
  | assertFailed
  /-- A failed `gsl::fail_fast_assert`, which calls `std::terminate`. -/
  | terminate
  /-- `std::length_error` or `std::bad_alloc`, thrown by `resize` and caught by nobody. -/
  | lengthError
  /-- A product that is no `int`, of which the language does not say what it is. -/
  | overflow
  /-- A loop that has not ended within the bound of its model. -/
  | diverged
  deriving DecidableEq, Repr

/-- A `gsl::span<const ubyte>` of existing memory. -/
structure Span where
  /-- What can be read from `data()` on. -/
  mem : Bytes
  /-- The number of bytes the span covers. -/
  size : ℕ
  size_le : size ≤ mem.length

namespace Span

/-- The bytes the span covers. -/
def bytes (s : Span) : Bytes := s.mem.take s.size

/-- The span of a whole vector. -/
def ofBytes (bytes : Bytes) : Span := ⟨bytes, bytes.length, Nat.le_refl _⟩

/-- The byte at an index below the size. -/
def index (s : Span) (i : ℕ) (h : i < s.size) : UInt8 :=
  s.mem.get ⟨i, Nat.lt_of_lt_of_le h s.size_le⟩

/-- `operator[]`: an index at or beyond the size terminates the process. -/
def get (s : Span) (i : ℕ) : Except Fault UInt8 :=
  if h : i < s.size then .ok (s.index i h) else .error .terminate

/-- `sub(0, count)`: the first bytes of the span. -/
def first (s : Span) (count : ℕ) (h : count ≤ s.size) : Span :=
  ⟨s.mem, count, Nat.le_trans h s.size_le⟩

/-- `sub(offset)`: the span without its first bytes. -/
def sub (s : Span) (offset : ℕ) : Span where
  mem := s.mem.drop offset
  size := s.size - offset
  size_le := by
    have := s.size_le
    rw [List.length_drop]
    omega

@[simp] lemma length_bytes (s : Span) : s.bytes.length = s.size := by
  rw [bytes, List.length_take, Nat.min_eq_left s.size_le]

@[simp] lemma bytes_ofBytes (bytes : Bytes) : (ofBytes bytes).bytes = bytes := List.take_length

@[simp] lemma size_sub (s : Span) (offset : ℕ) : (s.sub offset).size = s.size - offset := rfl

/-- The bytes of the first part of a span. -/
lemma bytes_first (s : Span) (count : ℕ) (h : count ≤ s.size) :
    (s.first count h).bytes = s.bytes.take count := by
  rw [bytes, bytes, List.take_take, Nat.min_eq_left h]
  rfl

/-- The bytes of the rest of a span. -/
lemma bytes_sub (s : Span) (offset : ℕ) : (s.sub offset).bytes = s.bytes.drop offset :=
  (List.drop_take).symm

/-- The bytes of a span are the bytes at its indices. -/
lemma getElem?_bytes (s : Span) {i : ℕ} (h : i < s.size) : s.bytes[i]? = some (s.index i h) := by
  have hlt : i < s.mem.length := Nat.lt_of_lt_of_le h s.size_le
  rw [bytes, List.getElem?_take_of_lt h, List.getElem?_eq_getElem hlt]
  rfl

/-- Inside the span an index reads the byte there. -/
lemma get_eq_ok {s : Span} {i : ℕ} {b : UInt8} (h : s.bytes[i]? = some b) :
    s.get i = .ok b := by
  have hlt : i < s.size := by
    have hlt' := (List.getElem?_eq_some_iff.mp h).1
    rwa [length_bytes] at hlt'
  rw [getElem?_bytes s hlt] at h
  rw [get, dif_pos hlt, Option.some.inj h]

/-- At or beyond its size an index terminates the process. -/
lemma get_eq_terminate {s : Span} {i : ℕ} (h : s.size ≤ i) : s.get i = .error .terminate := by
  rw [get, dif_neg (Nat.not_lt.mpr h)]

end Span

/-- A `gsl::cstring_span<>` made of a pointer and a length; nothing says that so much memory is
there. -/
structure CStringSpan where
  /-- What can be read from the pointer on. -/
  mem : Bytes
  /-- The length it was given. -/
  size : ℕ

/-- `gsl::to_string`: copy as many characters as the span claims to have. -/
def CStringSpan.toString (s : CStringSpan) : Except Fault Str :=
  if s.size ≤ s.mem.length then .ok (s.mem.take s.size) else .error .badRead

end MqttCpp
