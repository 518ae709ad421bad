import Mathlib.Algebra.Group.Nat.Defs
import Mathlib.Data.List.Basic

/-!
# Strings of bits

Numbers and byte strings as lists of bits, the most significant bit first: `Bits.ofNat n v` are the
last `n` binary digits of `v`, `Bits.toNat` is the number that bits are the digits of, and
`Bits.ofBytes` are the bits of bytes in their order.

The rules are about concatenation, since packing and unpacking put bits behind each other and take
them off the front: `ofNat_add`, `toNat_append`, and `drop` and `take` at a boundary.
-/

namespace Bits

/-! ## The digits of a number -/

/-- The `n` least significant bits of a number. -/
def ofNat : ℕ → ℕ → List Bool
  | 0, _ => []
  | n + 1, v => v.testBit n :: ofNat n v

/-- The number that the bits are the digits of. -/
def toNat : List Bool → ℕ
  | [] => 0
  | b :: bs => b.toNat * 2 ^ bs.length + toNat bs

@[simp] lemma ofNat_zero (v : ℕ) : ofNat 0 v = [] := rfl

@[simp] lemma toNat_nil : toNat [] = 0 := rfl

@[simp] lemma length_ofNat (n v : ℕ) : (ofNat n v).length = n := by
  induction n with
  | zero => rfl
  | succ n ih => rw [ofNat, List.length_cons, ih]

/-- The digits in two parts. -/
lemma ofNat_add (m n v : ℕ) : ofNat (m + n) v = ofNat m (v / 2 ^ n) ++ ofNat n v := by
  induction m with
  | zero => rw [Nat.zero_add, ofNat_zero, List.nil_append]
  | succ m ih =>
    rw [Nat.succ_add_eq_add_succ, Nat.add_succ, ofNat, ofNat, ih, Nat.testBit_div_two_pow]
    rfl

/-- The first digits. -/
lemma take_ofNat (m n v : ℕ) : (ofNat (m + n) v).take m = ofNat m (v / 2 ^ n) := by
  rw [ofNat_add, List.take_left' (length_ofNat m _)]

/-- The last digits. -/
lemma drop_ofNat (m n v : ℕ) : (ofNat (m + n) v).drop m = ofNat n v := by
  rw [ofNat_add, List.drop_left' (length_ofNat m _)]

/-- Digits that are not asked for do not matter. -/
lemma ofNat_mod {n k : ℕ} (h : n ≤ k) (v : ℕ) : ofNat n (v % 2 ^ k) = ofNat n v := by
  induction n with
  | zero => rfl
  | succ n ih =>
    have hlt : n < k := h
    rw [ofNat, ofNat, ih (Nat.le_of_lt hlt), Nat.testBit_mod_two_pow, decide_eq_true hlt,
      Bool.true_and]

/-- The number of bits in two parts. -/
lemma toNat_append (xs ys : List Bool) :
    toNat (xs ++ ys) = toNat xs * 2 ^ ys.length + toNat ys := by
  induction xs with
  | nil => rw [List.nil_append, toNat_nil, Nat.zero_mul, Nat.zero_add]
  | cons b bs ih =>
    rw [List.cons_append, toNat, ih, toNat, List.length_append, Nat.pow_add, Nat.add_mul,
      Nat.mul_assoc, Nat.add_assoc]

/-- As many bits are the digits of that many numbers. -/
lemma toNat_lt (bs : List Bool) : toNat bs < 2 ^ bs.length := by
  induction bs with
  | nil => exact Nat.one_pos
  | cons b bs ih =>
    have hb : b.toNat * 2 ^ bs.length ≤ 1 * 2 ^ bs.length :=
      Nat.mul_le_mul_right _ (Bool.toNat_le b)
    rw [toNat, List.length_cons, Nat.pow_succ]
    omega

/-- The same, as it is computed from the two numbers. -/
lemma toNat_append_eq_or (xs ys : List Bool) :
    toNat (xs ++ ys) = toNat xs <<< ys.length ||| toNat ys := by
  rw [toNat_append, ← Nat.shiftLeft_add_eq_or_of_lt (toNat_lt ys), Nat.shiftLeft_eq]

/-- The digits of a number are its digits. -/
lemma toNat_ofNat (n v : ℕ) : toNat (ofNat n v) = v % 2 ^ n := by
  induction n with
  | zero => exact (Nat.mod_one v).symm
  | succ n ih =>
    have hsplit : v % 2 ^ (n + 1) = v % 2 ^ n + 2 ^ n * (v / 2 ^ n % 2) := by
      rw [Nat.pow_succ]
      exact Nat.mod_mul
    have hbit : (v.testBit n).toNat = v / 2 ^ n % 2 := Nat.toNat_testBit v n
    rw [ofNat, toNat, length_ofNat, ih, hbit, hsplit, Nat.mul_comm, Nat.add_comm]

/-- A number that is not too large is the number of its digits. -/
lemma toNat_ofNat_of_lt {n v : ℕ} (h : v < 2 ^ n) : toNat (ofNat n v) = v := by
  rw [toNat_ofNat, Nat.mod_eq_of_lt h]

/-- Bits are the digits of their number. -/
lemma ofNat_toNat (bs : List Bool) : ofNat bs.length (toNat bs) = bs := by
  induction bs with
  | nil => rfl
  | cons b bs ih =>
    have hlt := toNat_lt bs
    have hhigh : toNat (b :: bs) / 2 ^ bs.length = b.toNat := by
      rw [toNat, Nat.add_comm, Nat.add_mul_div_right _ _ (Nat.two_pow_pos _),
        Nat.div_eq_of_lt hlt, Nat.zero_add]
    have hlow : toNat (b :: bs) % 2 ^ bs.length = toNat bs := by
      rw [toNat, Nat.add_comm, Nat.add_mul_mod_self_right, Nat.mod_eq_of_lt hlt]
    have hrest : ofNat bs.length (toNat (b :: bs)) = bs := by
      rw [← ofNat_mod (Nat.le_refl _), hlow, ih]
    have hbit : (toNat (b :: bs)).testBit bs.length = b := by
      rw [← Nat.zero_add bs.length, ← Nat.testBit_div_two_pow, hhigh]
      cases b <;> rfl
    rw [List.length_cons, ofNat, hrest, hbit]

/-! ## The bits of bytes -/

/-- The bits of bytes. -/
def ofBytes (bytes : List UInt8) : List Bool := bytes.flatMap fun b => ofNat 8 b.toNat

@[simp] lemma ofBytes_nil : ofBytes [] = [] := rfl

lemma ofBytes_cons (b : UInt8) (bytes : List UInt8) :
    ofBytes (b :: bytes) = ofNat 8 b.toNat ++ ofBytes bytes := List.flatMap_cons

lemma ofBytes_append (xs ys : List UInt8) : ofBytes (xs ++ ys) = ofBytes xs ++ ofBytes ys :=
  List.flatMap_append

@[simp] lemma length_ofBytes (bytes : List UInt8) : (ofBytes bytes).length = 8 * bytes.length := by
  induction bytes with
  | nil => rfl
  | cons b bytes ih =>
    rw [ofBytes_cons, List.length_append, ih, length_ofNat, List.length_cons, Nat.mul_succ,
      Nat.add_comm]

end Bits
