import MqttCpp.Message.Header
import Mathlib.Data.Nat.Digits.Defs

/-!
# The digits of the remaining length

The loop of `getRemainingSize` reads bytes up to the first below 128 and computes with an `int`
that it multiplies by 128 in every round.  Up to four digits it computes the number that the
digits are meant for; with the fifth the `int` overflows, whatever the digits are.  The digits
that are written are as few as there can be, and those with no needless zero at the end.
-/

namespace MqttCpp

open Cereal

namespace MqttFixedHeader

/-! ## What the loop reads and computes -/

/-- The bytes that the loop reads: up to the first below 128. -/
def digitsRead : Bytes → Bytes
  | [] => []
  | b :: bs => if b &&& 128 ≠ 0 then b :: digitsRead bs else [b]

/-- The number that digits are meant for: the least significant digit comes first. -/
def digitSum (ds : Bytes) : ℕ := Nat.ofDigits 128 (ds.map fun digit => digit.toNat % 128)

/-- The bytes that are read stand at the front. -/
lemma prefix_digitsRead (bs : Bytes) : digitsRead bs <+: bs := by
  induction bs with
  | nil => exact List.nil_prefix
  | cons b bs ih =>
    rw [digitsRead]
    split
    · exact List.cons_prefix_cons.mpr ⟨rfl, ih⟩
    · exact ⟨bs, rfl⟩

/-- If digits stand at the front, just these are read. -/
lemma digitsRead_eq {ds bs : Bytes} (hds : IsDigits ds) (h : ds <+: bs) : digitsRead bs = ds := by
  induction ds generalizing bs with
  | nil => cases hds
  | cons b ds ih =>
    obtain ⟨rest, rfl⟩ := h
    rw [List.cons_append, digitsRead]
    unfold IsDigits at hds
    split at hds
    · rename_i hb
      rw [if_pos hb, ih hds (List.prefix_append ds rest)]
    · rename_i hb
      rw [if_neg hb, hds]

/-- **What `getRemainingSize` does**: it reads these bytes, and fails only when memory ends before
the last digit. -/
theorem getRemainingSize_eq (d : Decerealiser) :
    (getRemainingSize : CerealM Decerealiser UInt32) d =
      if IsDigits (digitsRead (Cursor.unread d)) then
        .ok (digitsValue 1 0 (digitsRead (Cursor.unread d)),
          Cursor.advance (digitsRead (Cursor.unread d)).length d)
      else .error .badRead := by
  split
  · rename_i hds
    exact parses_getRemainingSize.eq_ok ⟨hds, rfl⟩ (prefix_digitsRead _)
  · rename_i hds
    cases hread : (getRemainingSize : CerealM Decerealiser UInt32) d with
    | error e => rw [failsWith_getRemainingSize d e hread]
    | ok p =>
      obtain ⟨ds, ⟨hds', -⟩, hprefix, -⟩ := (parses_getRemainingSize d p.1 p.2).mp hread
      rw [digitsRead_eq hds' hprefix] at hds
      exact absurd hds' hds

/-- At most `n` bytes are read when one of the first `n` is a last digit. -/
lemma length_digitsRead_le {bs : Bytes} {n : ℕ} (h : ∃ b ∈ bs.take n, b &&& 128 = 0) :
    (digitsRead bs).length ≤ n := by
  induction bs generalizing n with
  | nil => exact Nat.zero_le n
  | cons b bs ih =>
    cases n with
    | zero => simp at h
    | succ n =>
      rw [digitsRead]
      simp only [List.take_succ_cons, List.mem_cons, exists_eq_or_imp] at h
      split
      · rename_i hb
        exact Nat.succ_le_succ (ih (h.resolve_left hb))
      · exact Nat.succ_le_succ (Nat.zero_le n)

/-- If there are more bytes, this is the only way in which no more than `n` are read. -/
lemma exists_of_length_digitsRead_le {bs : Bytes} {n : ℕ} (h : n < bs.length)
    (hlen : (digitsRead bs).length ≤ n) : ∃ b ∈ bs.take n, b &&& 128 = 0 := by
  induction bs generalizing n with
  | nil => cases h
  | cons b bs ih =>
    rw [digitsRead] at hlen
    cases n with
    | zero => split at hlen <;> cases hlen
    | succ n =>
      simp only [List.take_succ_cons, List.mem_cons, exists_eq_or_imp]
      split at hlen
      · exact Or.inr (ih (Nat.lt_of_succ_lt_succ h) (Nat.le_of_succ_le_succ hlen))
      · rename_i hb
        exact Or.inl (not_not.mp hb)

/-! ## Overflow -/

/-- The value of a digit. -/
lemma toNat_and_127 (b : UInt8) : (b &&& 127).toNat = b.toNat % 128 := by
  have hmask : (127 : UInt8).toNat = 2 ^ 7 - 1 := rfl
  rw [UInt8.toNat_and, hmask, Nat.and_two_pow_sub_one_eq_mod]

/-- A digit that is not the last has its top bit set. -/
lemma le_toNat_of_and_128 {b : UInt8} (h : b &&& 128 ≠ 0) : 128 ≤ b.toNat := by
  have hall : ∀ n < 256, UInt8.ofNat n &&& 128 ≠ 0 → 128 ≤ n := by decide +kernel
  apply hall b.toNat b.toNat_lt
  rwa [UInt8.ofNat_toNat]

/-- The last digit has not. -/
lemma toNat_lt_of_and_128 {b : UInt8} (h : b &&& 128 = 0) : b.toNat < 128 := by
  have hall : ∀ n < 256, UInt8.ofNat n &&& 128 = 0 → n < 128 := by decide +kernel
  apply hall b.toNat b.toNat_lt
  rwa [UInt8.ofNat_toNat]

/-- The product of two numbers that are not negative. -/
lemma checked_ofNat {a b : ℕ} (ha : a < 2147483648) (hb : b < 2147483648) :
    checked (Int32.ofNat a) (Int32.ofNat b) =
      if a * b < 2147483648 then .ok (Int32.ofNat (a * b)) else .error .overflow := by
  have hmin : Int32.minValue.toInt = -2147483648 := rfl
  have hmax : Int32.maxValue.toInt = 2147483647 := rfl
  have hiff : (Int32.minValue.toInt ≤ (a : ℤ) * b ∧ (a : ℤ) * b ≤ Int32.maxValue.toInt) ↔
      a * b < 2147483648 := by
    rw [hmin, hmax, ← Nat.cast_mul]
    omega
  rw [checked, Int32.toInt_ofNat_of_lt ha, Int32.toInt_ofNat_of_lt hb, ← Int32.ofNat_mul]
  exact if_congr hiff rfl rfl

/-- The multiplier of the next round: it is an `int` up to the one behind the fourth digit. -/
lemma checked_multiplier {k : ℕ} (hk : k ≤ 4) :
    checked (Int32.ofNat (128 ^ k)) 128 =
      if k = 4 then .error .overflow else .ok (Int32.ofNat (128 ^ (k + 1))) := by
  have hpow : 128 ^ k ≤ 128 ^ 4 := Nat.pow_le_pow_right (by decide) hk
  change checked _ (Int32.ofNat 128) = _
  rw [checked_ofNat (by omega) (by decide), ← Nat.pow_succ]
  rcases Nat.eq_or_lt_of_le hk with rfl | hlt
  · rfl
  · have hnext : 128 ^ (k + 1) ≤ 128 ^ 4 := Nat.pow_le_pow_right (by decide) hlt
    rw [if_pos (by omega), if_neg (Nat.ne_of_lt hlt)]

/-- Before the fifth digit the product that is added is an `int`. -/
lemma checked_product {k : ℕ} (hk : k < 4) (b : UInt8) :
    checked (Int32.ofNat (b &&& 127).toNat) (Int32.ofNat (128 ^ k)) =
      .ok (Int32.ofNat (b &&& 127).toNat * Int32.ofNat (128 ^ k)) := by
  have hpow : 128 ^ k ≤ 128 ^ 3 := Nat.pow_le_pow_right (by decide) (Nat.le_of_lt_succ hk)
  have hdigit : (b &&& 127).toNat < 128 := by
    rw [toNat_and_127]
    exact Nat.mod_lt _ (by decide)
  have hproduct : (b &&& 127).toNat * 128 ^ k ≤ 128 * 128 ^ 3 :=
    Nat.mul_le_mul (Nat.le_of_lt hdigit) hpow
  rw [checked_ofNat (by omega) (by omega), if_pos (by omega), Int32.ofNat_mul]

/-- From the multiplier of a round on, the loop either computes as in two's complement or comes to
the fifth digit and overflows. -/
lemma getRemainingSizeLoop_checked {fuel k : ℕ} (hk : k ≤ 4) {d : Decerealiser}
    (hfuel : (Cursor.unread d).length < fuel) (value : UInt32) :
    getRemainingSizeLoop checked fuel (Int32.ofNat (128 ^ k)) value d =
      if 4 < k + (digitsRead (Cursor.unread d)).length then .error .overflow
      else getRemainingSizeLoop wrapping fuel (Int32.ofNat (128 ^ k)) value d := by
  induction fuel generalizing k value d with
  | zero => exact absurd hfuel (Nat.not_lt_zero _)
  | succ fuel ih =>
    cases hunread : Cursor.unread d with
    | nil =>
      have hnone : ¬4 < k + (digitsRead []).length := Nat.not_lt.mpr hk
      rw [if_neg hnone, getRemainingSizeLoop_of_nil hunread, getRemainingSizeLoop_of_nil hunread]
    | cons b rest =>
      rw [hunread, List.length_cons] at hfuel
      have hrest := unread_advance_one hunread
      have hrestfuel : (Cursor.unread (Cursor.advance 1 d)).length < fuel := by
        rw [hrest]
        exact Nat.lt_of_succ_lt_succ hfuel
      rw [getRemainingSizeLoop_of_cons hunread, checked_multiplier hk]
      rcases Nat.eq_or_lt_of_le hk with rfl | hlt
      · -- the fifth digit: if not the product, then the multiplier overflows
        have hfifth : 4 < 4 + (digitsRead (b :: rest)).length := by
          rw [digitsRead]
          split <;> simp
        rw [if_pos rfl, if_pos hfifth]
        unfold checked
        split <;> rfl
      · have hnext : (Int32.ofNat (128 ^ k)) * 128 = Int32.ofNat (128 ^ (k + 1)) := by
          rw [Nat.pow_succ, Int32.ofNat_mul]
          rfl
        rw [checked_product hlt, if_neg (Nat.ne_of_lt hlt), getRemainingSizeLoop_of_cons hunread,
          digitsRead, ← hnext]
        change (if b &&& 128 ≠ 0 then _ else _) = if _ then _ else if b &&& 128 ≠ 0 then _ else _
        by_cases hb : b &&& 128 ≠ 0
        · rw [if_pos hb, if_pos hb, if_pos hb, List.length_cons, hnext, ih hlt hrestfuel, hrest,
            Nat.succ_add_eq_add_succ]
        · have hlast : ¬4 < k + [b].length := Nat.not_lt.mpr hlt
          rw [if_neg hb, if_neg hb, if_neg hb, if_neg hlast]

/-- **The `int` overflows with the fifth digit and not before**; up to four digits two's complement
makes no difference. -/
theorem getRemainingSizeWith_checked (d : Decerealiser) :
    (getRemainingSizeWith checked : CerealM Decerealiser UInt32) d =
      if 4 < (digitsRead (Cursor.unread d)).length then .error .overflow
      else (getRemainingSize : CerealM Decerealiser UInt32) d := by
  have hloop := getRemainingSizeLoop_checked (Nat.zero_le 4) (length_unread_lt d) 0
  rwa [Nat.zero_add] at hloop

/-! ## The value of the digits -/

lemma digitSum_cons (b : UInt8) (ds : Bytes) :
    digitSum (b :: ds) = b.toNat % 128 + 128 * digitSum ds := Nat.ofDigits_cons

/-- Digits are meant for numbers below the next power of 128. -/
lemma digitSum_lt (ds : Bytes) : digitSum ds < 128 ^ ds.length := by
  have hdigits : ∀ n ∈ ds.map fun digit : UInt8 => digit.toNat % 128, n < 128 := by
    intro n hn
    obtain ⟨b, -, rfl⟩ := List.mem_map.mp hn
    exact Nat.mod_lt _ (by decide)
  have hlt := Nat.ofDigits_lt_base_pow_length (by decide : 1 < 128) hdigits
  rwa [List.length_map] at hlt

/-- What the loop computes, up to the size of its result. -/
lemma digitsValue_eq (multiplier : ℕ) (value : UInt32) (ds : Bytes) :
    digitsValue multiplier value ds = value + UInt32.ofNat (multiplier * digitSum ds) := by
  induction ds generalizing multiplier value with
  | nil => exact (UInt32.add_zero value).symm
  | cons b ds ih =>
    have hsum : (b.toNat % 128) * multiplier + multiplier * 128 * digitSum ds =
        multiplier * (b.toNat % 128 + 128 * digitSum ds) := by
      rw [Nat.mul_add, Nat.mul_comm multiplier (b.toNat % 128), Nat.mul_assoc]
    rw [digitsValue, ih, digitSum_cons, toNat_and_127, UInt32.add_assoc, ← UInt32.ofNat_add, hsum]

/-- Up to four digits are read as the number they are meant for. -/
lemma toNat_digitsValue {ds : Bytes} (h : ds.length ≤ 4) :
    (digitsValue 1 0 ds).toNat = digitSum ds := by
  have hlt := digitSum_lt ds
  have hpow : 128 ^ ds.length ≤ 128 ^ 4 := Nat.pow_le_pow_right (by decide) h
  have hsize : 128 ^ 4 < UInt32.size := by decide
  rw [digitsValue_eq, UInt32.zero_add, Nat.one_mul]
  exact UInt32.toNat_ofNat_of_lt' (hlt.trans_le (hpow.trans hsize.le))

/-! ## The digits that are written -/

/-- A number below a power of 128 has no more digits than the exponent. -/
lemma length_remainingDigits_le {x : UInt32} {n : ℕ} (h : x.toNat < 128 ^ (n + 1)) :
    (remainingDigits x).length ≤ n + 1 := by
  induction n generalizing x with
  | zero =>
    rw [remainingDigits_of_lt h]
    exact Nat.le_refl 1
  | succ n ih =>
    by_cases hx : x.toNat < 128
    · rw [remainingDigits_of_lt hx]
      exact Nat.succ_le_succ (Nat.zero_le _)
    · have hrest : (x / 128).toNat < 128 ^ (n + 1) := by
        rw [toNat_div]
        exact Nat.div_lt_of_lt_mul (by rwa [Nat.pow_succ'] at h)
      rw [remainingDigits_of_le (Nat.not_lt.mp hx), List.length_cons]
      exact Nat.succ_le_succ (ih hrest)

/-- **As few digits as there can be** are written. -/
lemma length_remainingDigits_le_of_digitSum_eq {x : UInt32} {ds : Bytes} (hds : IsDigits ds)
    (h : digitSum ds = x.toNat) : (remainingDigits x).length ≤ ds.length := by
  cases ds with
  | nil => cases hds
  | cons b ds =>
    have hlt := digitSum_lt (b :: ds)
    rw [h] at hlt
    exact length_remainingDigits_le hlt

/-- A maximal remaining length takes four digits. -/
lemma length_remainingDigits_le_four {x : UInt32} (h : x ≤ 268435455) :
    (remainingDigits x).length ≤ 4 := by
  have hle : x.toNat ≤ 268435455 := UInt32.le_iff_toNat_le.mp h
  exact length_remainingDigits_le (n := 3) (Nat.lt_of_le_of_lt hle (by decide))

/-- Digits that are as many and are meant for the same number are the same. -/
lemma eq_of_digitSum_eq {ds ds' : Bytes} (hds : IsDigits ds) (hds' : IsDigits ds')
    (hlen : ds.length = ds'.length) (hsum : digitSum ds = digitSum ds') : ds = ds' := by
  induction ds generalizing ds' with
  | nil => cases hds
  | cons b ds ih =>
    cases ds' with
    | nil => cases hlen
    | cons b' ds' =>
      have hlen' : ds.length = ds'.length := Nat.succ.inj hlen
      rw [digitSum_cons, digitSum_cons] at hsum
      unfold IsDigits at hds hds'
      split at hds
      · rename_i hb
        split at hds'
        · rename_i hb'
          obtain rfl : b = b' := by
            have h := le_toNat_of_and_128 hb
            have h' := le_toNat_of_and_128 hb'
            apply UInt8.toNat.inj
            have hlt := b.toNat_lt
            have hlt' := b'.toNat_lt
            omega
          rw [ih hds hds' hlen' (by omega)]
        · -- the second has no more digits, but the first has
          rw [hds'] at hlen'
          obtain rfl := List.length_eq_zero_iff.mp hlen'
          cases hds
      · rename_i hb
        subst hds
        obtain rfl := List.length_eq_zero_iff.mp hlen'.symm
        split at hds'
        · cases hds'
        · rename_i hb'
          have h := toNat_lt_of_and_128 (not_not.mp hb)
          have h' := toNat_lt_of_and_128 (not_not.mp hb')
          obtain rfl : b = b' := by
            apply UInt8.toNat.inj
            omega
          rfl

/-- A maximal remaining length is what its digits are meant for. -/
lemma digitSum_remainingDigits {x : UInt32} (h : x ≤ 268435455) :
    digitSum (remainingDigits x) = x.toNat := by
  have hzero : (0 : UInt32) + UInt32.ofNat (x.toNat * 1) = x := by
    rw [Nat.mul_one, UInt32.ofNat_toNat, UInt32.zero_add]
  rw [← toNat_digitsValue (length_remainingDigits_le_four h), digitsValue_remainingDigits, hzero]

/-- Up to four digits of which there are no fewer for the same number. -/
structure IsMinimal (ds : Bytes) : Prop where
  isDigits : IsDigits ds
  length_le : ds.length ≤ 4
  minimal : ∀ ds', IsDigits ds' → digitSum ds' = digitSum ds → ds.length ≤ ds'.length

/-- **Minimal digits are written** for the number that is read from them. -/
theorem remainingDigits_digitsValue {ds : Bytes} (h : IsMinimal ds) :
    remainingDigits (digitsValue 1 0 ds) = ds := by
  have hvalue := toNat_digitsValue h.length_le
  have hle : digitsValue 1 0 ds ≤ 268435455 := by
    have hlt := digitSum_lt ds
    have hpow : 128 ^ ds.length ≤ 128 ^ 4 := Nat.pow_le_pow_right (by decide) h.length_le
    have hmax : (268435455 : UInt32).toNat = 268435455 := rfl
    rw [UInt32.le_iff_toNat_le, hvalue, hmax]
    omega
  have hsum : digitSum (remainingDigits (digitsValue 1 0 ds)) = digitSum ds := by
    rw [digitSum_remainingDigits hle, hvalue]
  have hdigits := isDigits_remainingDigits (digitsValue 1 0 ds)
  refine eq_of_digitSum_eq hdigits h.isDigits (Nat.le_antisymm ?_ ?_) hsum
  · exact length_remainingDigits_le_of_digitSum_eq h.isDigits hvalue.symm
  · exact h.minimal _ hdigits hsum

/-- **The codec of the fixed header.**  A header is read back from the bytes that are written for
it, whatever follows, with as few digits as there can be; and up to four digits, needless ones
included, are read as the number they are meant for, with no overflow. -/
theorem fixedHeader_codec :
    (∀ h : MqttFixedHeader, h.qos ≤ 3 → h.remaining ≤ 268435455 →
      ∃ ds, Cerealiser.encode h.cerealise = .ok (h.flagByte :: ds) ∧ 1 ≤ ds.length ∧
        ds.length ≤ 4 ∧
        (∀ ds', IsDigits ds' → digitSum ds' = h.remaining.toNat → ds.length ≤ ds'.length) ∧
        ∀ (old : MqttFixedHeader) (rest beyond : Bytes), ∃ d,
          old.cerealise (Decerealiser.new (h.flagByte :: ds ++ rest) beyond) = .ok (h, d) ∧
            d.bytes.drop d.pos = rest) ∧
      ∀ ds : Bytes, IsDigits ds → ds.length ≤ 4 →
        ∀ d : Decerealiser, ds <+: Cursor.unread d → ∃ a,
          (getRemainingSizeWith checked : CerealM Decerealiser UInt32) d =
              .ok (a, Cursor.advance ds.length d) ∧
            (getRemainingSize : CerealM Decerealiser UInt32) d =
              .ok (a, Cursor.advance ds.length d) ∧ a.toNat = digitSum ds := by
  constructor
  · intro h hqos hremaining
    refine ⟨remainingDigits h.remaining, h.encode_cerealise, length_remainingDigits_pos _,
      length_remainingDigits_le_four hremaining,
      fun ds' => length_remainingDigits_le_of_digitSum_eq, ?_⟩
    intro old rest beyond
    have hunread : Cursor.unread (Decerealiser.new (h.headerBytes ++ rest) beyond) =
        h.headerBytes ++ (rest ++ beyond) := List.append_assoc _ _ _
    obtain ⟨d, hread, -, hpos, hbytes, -⟩ := old.cerealise_read_headerBytes hqos rfl hunread
    refine ⟨d, hread, ?_⟩
    rw [hbytes, hpos, Decerealiser.pos_new, Nat.zero_add]
    exact List.drop_left
  · intro ds hds hlen d hprefix
    have hread := parses_getRemainingSize.eq_ok ⟨hds, rfl⟩ hprefix
    have hfew : ¬4 < (digitsRead (Cursor.unread d)).length := by
      rw [digitsRead_eq hds hprefix]
      exact Nat.not_lt.mpr hlen
    refine ⟨_, ?_, hread, toNat_digitsValue hlen⟩
    rw [getRemainingSizeWith_checked, if_neg hfew, hread]

end MqttFixedHeader

end MqttCpp
