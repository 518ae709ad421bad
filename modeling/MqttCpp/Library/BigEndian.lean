import Mathlib.Algebra.Group.Nat.Defs
import Mathlib.Data.List.Induction

/-!
# Numbers as bytes

The digits of a number in base 256, the most significant first: `bigEndian n v` are its last `n`
digits and `ofBigEndian` is the number that bytes are the digits of.  `eq_bigEndian_iff` says that
they are inverse to each other, which is all that a reader and a writer of numbers need.
-/

/-- The `n` least significant bytes of a number, the most significant of them first. -/
def bigEndian : ℕ → ℕ → List UInt8
  | 0, _ => []
  | n + 1, v => bigEndian n (v / 256) ++ [UInt8.ofNat v]

/-- The number that the bytes are the digits of. -/
def ofBigEndian (bytes : List UInt8) : ℕ := bytes.foldl (fun v b => v * 256 + b.toNat) 0

@[simp] lemma length_bigEndian (n v : ℕ) : (bigEndian n v).length = n := by
  induction n generalizing v with
  | zero => rfl
  | succ n ih => simp [bigEndian, ih]

@[simp] lemma ofBigEndian_nil : ofBigEndian [] = 0 := rfl

@[simp] lemma ofBigEndian_append_singleton (bytes : List UInt8) (b : UInt8) :
    ofBigEndian (bytes ++ [b]) = ofBigEndian bytes * 256 + b.toNat := by
  rw [ofBigEndian, List.foldl_append]
  rfl

/-- The digits of a number are those of its remainder. -/
lemma ofBigEndian_bigEndian (n v : ℕ) : ofBigEndian (bigEndian n v) = v % 256 ^ n := by
  induction n generalizing v with
  | zero => simp [bigEndian, Nat.mod_one]
  | succ n ih =>
    have hdigit : (UInt8.ofNat v).toNat = v % 256 := UInt8.toNat_ofNat
    rw [bigEndian, ofBigEndian_append_singleton, ih, hdigit, Nat.pow_succ, Nat.mul_comm (256 ^ n),
      Nat.mod_mul, Nat.mul_comm, Nat.add_comm]

/-- Bytes are the digits of the number that they make up. -/
lemma bigEndian_ofBigEndian (bytes : List UInt8) :
    bigEndian bytes.length (ofBigEndian bytes) = bytes := by
  induction bytes using List.reverseRecOn with
  | nil => rfl
  | append_singleton bytes b ih =>
    have hb := b.toNat_lt
    have hhigh : (ofBigEndian bytes * 256 + b.toNat) / 256 = ofBigEndian bytes := by omega
    have hlow : UInt8.ofNat (ofBigEndian bytes * 256 + b.toNat) = b := by
      apply UInt8.toNat.inj
      rw [UInt8.toNat_ofNat']
      omega
    rw [List.length_append, List.length_singleton, bigEndian, ofBigEndian_append_singleton, hhigh,
      hlow, ih]

/-- So many bytes make up numbers below a bound only. -/
lemma ofBigEndian_lt (bytes : List UInt8) : ofBigEndian bytes < 256 ^ bytes.length := by
  have hmod := ofBigEndian_bigEndian bytes.length (ofBigEndian bytes)
  rw [bigEndian_ofBigEndian] at hmod
  rw [hmod]
  exact Nat.mod_lt _ (Nat.pow_pos (by decide))

/-- **Digits and numbers.**  Bytes are the digits of a number that has so many if they are as many
and make up the number. -/
theorem eq_bigEndian_iff {n v : ℕ} (h : v < 256 ^ n) {bytes : List UInt8} :
    bytes = bigEndian n v ↔ bytes.length = n ∧ ofBigEndian bytes = v := by
  constructor
  · rintro rfl
    rw [length_bigEndian, ofBigEndian_bigEndian, Nat.mod_eq_of_lt h]
    exact ⟨rfl, rfl⟩
  · rintro ⟨rfl, rfl⟩
    exact (bigEndian_ofBigEndian bytes).symm

/-- Digits that are not asked for do not matter. -/
lemma bigEndian_mod (n v : ℕ) : bigEndian n (v % 256 ^ n) = bigEndian n v := by
  have hback := bigEndian_ofBigEndian (bigEndian n v)
  rwa [length_bigEndian, ofBigEndian_bigEndian] at hback
