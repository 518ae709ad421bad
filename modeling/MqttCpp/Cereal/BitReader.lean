import MqttCpp.Cereal.Codec
import MqttCpp.Library.Bits
import Mathlib.Algebra.GroupWithZero.Nat

/-!
# Reading bits

`Decerealiser::readBits` returns the bits of the bytes one field after the other.  The state says
what is still to come: the bits of the current byte behind the bit index, and the bytes behind the
iterator.  A byte of which nothing is left stays current, with 8 as its bit index, until a bit of
the next one is needed; so whole bytes can be grained wherever the bits end with a byte.
-/

namespace MqttCpp

open Cereal

namespace Decerealiser

/-! ## The bits that are left -/

/-- The bits of the current byte that have not been returned. -/
def pendingBits (d : Decerealiser) : List Bool := (Bits.ofNat 8 d.currentByte.toNat).drop d.bitIndex

/-- What `readBitsHelper` takes bits from. -/
def helperBits (d : Decerealiser) : List Bool :=
  d.pendingBits ++ Bits.ofBytes (d.bytes.drop d.pos)

/-- What `readBits` takes bits from.  Before the first call no byte is current. -/
def unreadBits (d : Decerealiser) : List Bool :=
  if d.bitIndex = 0 then Bits.ofBytes (d.bytes.drop d.pos) else d.helperBits

/-- How many bits of the current byte are left. -/
@[simp] lemma length_pendingBits (d : Decerealiser) : d.pendingBits.length = 8 - d.bitIndex := by
  rw [pendingBits, List.length_drop, Bits.length_ofNat]

/-- When a byte is current, its bits come first. -/
lemma unreadBits_of_pos {d : Decerealiser} (h : 0 < d.bitIndex) :
    d.unreadBits = d.helperBits := if_neg (Nat.ne_of_gt h)

/-! ## One call -/

/-- The next byte, where there is one. -/
lemma next_of_lt {d : Decerealiser} (h : d.pos < d.bytes.length) :
    next d = .ok (d.bytes[d.pos], { d with pos := d.pos + 1 }) := by
  have hget : (d.bytes ++ d.beyond)[d.pos]? = some d.bytes[d.pos] := by
    rw [List.getElem?_append_left h, List.getElem?_eq_getElem h]
  rw [next, hget]

/-- The bits of the bytes that are left begin with those of the next byte. -/
lemma ofBytes_drop_of_lt {bytes : Bytes} {pos : ℕ} (h : pos < bytes.length) :
    Bits.ofBytes (bytes.drop pos) =
      Bits.ofNat 8 bytes[pos].toNat ++ Bits.ofBytes (bytes.drop (pos + 1)) := by
  rw [List.drop_eq_getElem_cons h, Bits.ofBytes_cons]

/-- The mask of the last line of `readBitsHelper`. -/
lemma mask_eq {bits : ℕ} (h : bits ≤ 8) : 0xff >>> (8 - bits) = 2 ^ bits - 1 := by
  revert bits
  decide

/-- Bits that are all in the current byte are the first of its pending bits. -/
lemma takeBits_eq (d : Decerealiser) (bits : ℕ) (h : d.bitIndex + bits ≤ 8) :
    d.takeBits bits h = (UInt32.ofNat (Bits.toNat (d.pendingBits.take bits)),
      { d with bitIndex := d.bitIndex + bits, bitIndex_le := h }) := by
  have hbits : bits ≤ 8 := Nat.le_trans (Nat.le_add_left _ _) h
  have hsplit : 8 = d.bitIndex + (bits + (8 - (d.bitIndex + bits))) := by omega
  have hpending : d.pendingBits.take bits =
      Bits.ofNat bits (d.currentByte.toNat / 2 ^ (8 - (d.bitIndex + bits))) := by
    rw [pendingBits]
    nth_rewrite 1 [hsplit]
    rw [Bits.drop_ofNat, Bits.take_ofNat]
  rw [takeBits, hpending, Bits.toNat_ofNat, mask_eq hbits, Nat.and_two_pow_sub_one_eq_mod,
    Nat.shiftRight_eq_div_pow]

/-- The pending bits behind those that were taken. -/
lemma pendingBits_takeBits (d : Decerealiser) (bits : ℕ) (h : d.bitIndex + bits ≤ 8) :
    (d.takeBits bits h).2.pendingBits = d.pendingBits.drop bits := List.drop_drop.symm

/-- Putting the bits of two bytes together. -/
lemma shiftLeft_or (xs ys : List Bool) (h : ys.length < 32) :
    (UInt32.ofNat (Bits.toNat xs) <<< UInt32.ofNat ys.length) ||| UInt32.ofNat (Bits.toNat ys) =
      UInt32.ofNat (Bits.toNat (xs ++ ys)) := by
  rw [Bits.toNat_append_eq_or, UInt32.ofNat_or, UInt32.ofNat_shiftLeft _ _ h]

/-- The bit index of a byte of which no bit is taken yet is in range. -/
lemma zero_le_eight : 0 ≤ 8 := Nat.zero_le 8

/-- The state when the next byte has become the current one and no bit of it is taken yet. -/
def withNext (d : Decerealiser) (h : d.pos < d.bytes.length) : Decerealiser :=
  { d with pos := d.pos + 1, currentByte := d.bytes[d.pos], bitIndex := 0,
           bitIndex_le := zero_le_eight }

/-- Its bits are the first that are left. -/
lemma helperBits_withNext {d : Decerealiser} (h : d.pos < d.bytes.length) :
    (d.withNext h).helperBits = Bits.ofBytes (d.bytes.drop d.pos) := (ofBytes_drop_of_lt h).symm

/-- When the bits go beyond the current byte, what is left of it is put in front of bits that are
taken from the next one. -/
lemma readBitsHelper_of_lt {d : Decerealiser} {bits : ℕ} (hover : 8 < d.bitIndex + bits)
    (hmore : d.pos < d.bytes.length) :
    readBitsHelper d bits =
      (readBitsHelper (d.withNext hmore) (d.bitIndex + bits - 8)).map fun p =>
        ((UInt32.ofNat (Bits.toNat d.pendingBits) <<< UInt32.ofNat (d.bitIndex + bits - 8)) ||| p.1,
          p.2) := by
  have hle := d.bitIndex_le
  have hfirst : d.bitIndex + (8 - d.bitIndex) ≤ 8 := by omega
  have hvalue : (d.takeBits (8 - d.bitIndex) hfirst).1 =
      UInt32.ofNat (Bits.toNat d.pendingBits) := by
    have hall : d.pendingBits.take (8 - d.bitIndex) = d.pendingBits :=
      List.take_of_length_le (Nat.le_of_eq d.length_pendingBits)
    rw [takeBits_eq, hall]
  have hnext : next { d with bitIndex := 0, bitIndex_le := Nat.zero_le 8 } =
      .ok (d.bytes[d.pos], { d with pos := d.pos + 1, bitIndex := 0,
                                    bitIndex_le := Nat.zero_le 8 }) :=
    next_of_lt (d := { d with bitIndex := 0, bitIndex_le := Nat.zero_le 8 }) hmore
  rw [readBitsHelper, dif_pos hover]
  change (readBitsHelper d (8 - d.bitIndex) >>= _) = _
  rw [readBitsHelper_of_le hfirst]
  change (next { d with bitIndex := 0, bitIndex_le := Nat.zero_le 8 } >>= _) = _
  rw [hnext, ← hvalue]
  change (readBitsHelper (d.withNext hmore) (d.bitIndex + bits - 8) >>= _) = _
  cases readBitsHelper (d.withNext hmore) (d.bitIndex + bits - 8) <;> rfl

/-- What a call leaves of a decerealiser from which a number of bits was taken. -/
structure Took (d : Decerealiser) (bits : List Bool) (width : ℕ) (d' : Decerealiser) : Prop where
  bytes_eq : d'.bytes = d.bytes
  beyond_eq : d'.beyond = d.beyond
  pos_le : d'.pos ≤ d'.bytes.length
  helperBits_eq : d'.helperBits = bits.drop width
  bitIndex_pos : 0 < width → 0 < d'.bitIndex

/-- **`readBitsHelper` takes bits off the front**, going on to the next byte for as long as there
are bits to read. -/
theorem readBitsHelper_eq (d : Decerealiser) {bits : ℕ} (hbits : bits < 32)
    (hpos : d.pos ≤ d.bytes.length) (hlen : bits ≤ d.helperBits.length) :
    ∃ d', readBitsHelper d bits = .ok (UInt32.ofNat (Bits.toNat (d.helperBits.take bits)), d') ∧
      Took d d.helperBits bits d' := by
  -- the call that goes on starts at the beginning of a byte
  induction hn : d.bitIndex + bits using Nat.strong_induction_on generalizing d bits with
  | _ n ih =>
    have hle := d.bitIndex_le
    have hpending := d.length_pendingBits
    by_cases hcarry : d.bitIndex + bits ≤ 8
    · have hall : bits ≤ d.pendingBits.length := by omega
      refine ⟨(d.takeBits bits hcarry).2, ?_, rfl, rfl, hpos, ?_, fun hwidth => ?_⟩
      · rw [readBitsHelper_of_le hcarry, takeBits_eq, helperBits,
          List.take_append_of_le_length hall]
      · rw [helperBits, helperBits, pendingBits_takeBits, List.drop_append_of_le_length hall]
        rfl
      · exact Nat.lt_of_lt_of_le hwidth (Nat.le_add_left _ _)
    · have hover : 8 < d.bitIndex + bits := Nat.not_le.mp hcarry
      have hsum : bits = d.pendingBits.length + (d.bitIndex + bits - 8) := by omega
      have hmore : d.pos < d.bytes.length := by
        rw [helperBits, List.length_append, Bits.length_ofBytes, List.length_drop] at hlen
        omega
      have hbits₁ := helperBits_withNext hmore
      have hlen₁ : d.bitIndex + bits - 8 ≤ (d.withNext hmore).helperBits.length := by
        rw [helperBits, List.length_append] at hlen
        rw [hbits₁]
        omega
      obtain ⟨d', hread, htook⟩ :=
        ih (0 + (d.bitIndex + bits - 8)) (by omega) (d.withNext hmore) (by omega) hmore hlen₁ rfl
      have htake : d.helperBits.take bits =
          d.pendingBits ++ (d.withNext hmore).helperBits.take (d.bitIndex + bits - 8) := by
        nth_rewrite 1 [helperBits, hbits₁, hsum]
        exact List.take_length_add_append _
      have hdrop : d.helperBits.drop bits =
          (d.withNext hmore).helperBits.drop (d.bitIndex + bits - 8) := by
        nth_rewrite 1 [helperBits, hbits₁, hsum]
        exact List.drop_length_add_append _
      have hlength : ((d.withNext hmore).helperBits.take (d.bitIndex + bits - 8)).length =
          d.bitIndex + bits - 8 := List.length_take_of_le hlen₁
      refine ⟨d', ?_, htook.bytes_eq, htook.beyond_eq, htook.pos_le, ?_, fun _ => ?_⟩
      · have hjoin := shiftLeft_or d.pendingBits
          ((d.withNext hmore).helperBits.take (d.bitIndex + bits - 8)) (by omega)
        rw [hlength] at hjoin
        rw [readBitsHelper_of_lt hover hmore, hread, htake, ← hjoin]
        rfl
      · rw [htook.helperBits_eq, hdrop]
      · exact htook.bitIndex_pos (by omega)

/-- **`readBits` takes bits off the front.** -/
theorem readBits_eq (d : Decerealiser) {bits : ℕ} (hwidth : 0 < bits) (hbits : bits < 32)
    (hpos : d.pos ≤ d.bytes.length) (hlen : bits ≤ d.unreadBits.length) :
    ∃ d', readBits bits d = .ok (UInt32.ofNat (Bits.toNat (d.unreadBits.take bits)), d') ∧
      Took d d.unreadBits bits d' := by
  by_cases hzero : d.bitIndex = 0
  · -- the first call makes the first byte the current one
    have hunread : d.unreadBits = Bits.ofBytes (d.bytes.drop d.pos) := if_pos hzero
    have hmore : d.pos < d.bytes.length := by
      rw [hunread, Bits.length_ofBytes, List.length_drop] at hlen
      omega
    rw [hunread, ← helperBits_withNext hmore] at hlen ⊢
    obtain ⟨d', hread, htook⟩ := readBitsHelper_eq (d.withNext hmore) hbits hmore hlen
    refine ⟨d', ?_, htook.bytes_eq, htook.beyond_eq, htook.pos_le, htook.helperBits_eq,
      htook.bitIndex_pos⟩
    have hstate : ({ d with pos := d.pos + 1, currentByte := d.bytes[d.pos] } : Decerealiser) =
        d.withNext hmore := by
      obtain ⟨bytes, beyond, pos, currentByte, bitIndex, hle⟩ := d
      obtain rfl : bitIndex = 0 := hzero
      rfl
    rw [readBits, if_pos hzero, next_of_lt hmore, ← hread, ← hstate]
    rfl
  · rw [unreadBits_of_pos (Nat.pos_of_ne_zero hzero)] at hlen ⊢
    rw [readBits, if_neg hzero]
    exact readBitsHelper_eq d hbits hpos hlen

/-! ## A sequence of calls -/

/-- The state when the first `n` bits of the bytes have been returned. -/
structure HasReadBits (bytes beyond : Bytes) (n : ℕ) (d : Decerealiser) : Prop where
  bytes_eq : d.bytes = bytes
  beyond_eq : d.beyond = beyond
  pos_le : d.pos ≤ bytes.length
  unreadBits_eq : d.unreadBits = (Bits.ofBytes bytes).drop n

namespace HasReadBits

variable {bytes beyond : Bytes} {n : ℕ} {d : Decerealiser}

/-- The state before the first call. -/
lemma new (bytes beyond : Bytes) : HasReadBits bytes beyond 0 (Decerealiser.new bytes beyond) where
  bytes_eq := rfl
  beyond_eq := rfl
  pos_le := Nat.zero_le _
  unreadBits_eq := rfl

/-- How many bits are left. -/
lemma length_unreadBits (h : HasReadBits bytes beyond n d) :
    d.unreadBits.length = 8 * bytes.length - n := by
  rw [h.unreadBits_eq, List.length_drop, Bits.length_ofBytes]

/-- Bits are read. -/
lemma readBits (h : HasReadBits bytes beyond n d) {bits : ℕ} (hwidth : 0 < bits)
    (hbits : bits < 32) (hfit : n + bits ≤ 8 * bytes.length) :
    ∃ d', Decerealiser.readBits bits d =
        .ok (UInt32.ofNat (Bits.toNat (((Bits.ofBytes bytes).drop n).take bits)), d') ∧
      HasReadBits bytes beyond (n + bits) d' := by
  have hlen : bits ≤ d.unreadBits.length := by
    rw [h.length_unreadBits]
    omega
  have hpos : d.pos ≤ d.bytes.length := by
    rw [h.bytes_eq]
    exact h.pos_le
  obtain ⟨d', hread, htook⟩ := readBits_eq d hwidth hbits hpos hlen
  rw [h.unreadBits_eq] at hread htook
  refine ⟨d', hread, htook.bytes_eq.trans h.bytes_eq, htook.beyond_eq.trans h.beyond_eq, ?_, ?_⟩
  · rw [← h.bytes_eq, ← htook.bytes_eq]
    exact htook.pos_le
  · rw [unreadBits_of_pos (htook.bitIndex_pos hwidth), htook.helperBits_eq, List.drop_drop]

/-- The iterator is behind the byte of the last bit that was returned. -/
lemma pos_eq (h : HasReadBits bytes beyond n d) (hfit : n ≤ 8 * bytes.length) :
    d.pos = (n + 7) / 8 := by
  have hlen := h.length_unreadBits
  have hpos := h.pos_le
  have hrest : (Bits.ofBytes (d.bytes.drop d.pos)).length = 8 * (bytes.length - d.pos) := by
    rw [Bits.length_ofBytes, List.length_drop, h.bytes_eq]
  rw [unreadBits] at hlen
  split at hlen
  · omega
  · have hpending := d.length_pendingBits
    rw [helperBits, List.length_append] at hlen
    omega

/-- Where the bits that were returned end with a byte, the bytes that are left are those behind the
iterator. -/
lemma unreadBits_of_mod (h : HasReadBits bytes beyond n d) (hfit : n ≤ 8 * bytes.length)
    (hbyte : n % 8 = 0) : d.unreadBits = Bits.ofBytes (d.bytes.drop d.pos) := by
  have hpos := h.pos_eq hfit
  have hlen := h.length_unreadBits
  rw [unreadBits] at hlen ⊢
  split
  · rfl
  · rename_i hindex
    have hpending := d.length_pendingBits
    rw [if_neg hindex, helperBits, List.length_append, Bits.length_ofBytes, List.length_drop,
      h.bytes_eq] at hlen
    have hnone : d.pendingBits = [] := List.eq_nil_of_length_eq_zero (by omega)
    rw [helperBits, hnone, List.nil_append]

/-- A whole byte is read, where the bits that were returned end with a byte. -/
lemma grainUInt8 (h : HasReadBits bytes beyond n d) (hbyte : n % 8 = 0)
    (hfit : n + 8 ≤ 8 * bytes.length) :
    ∃ b d', (Cereal.grainUInt8 0 : CerealM Decerealiser UInt8) d = .ok (b, d') ∧
      b.toNat = Bits.toNat (((Bits.ofBytes bytes).drop n).take 8) ∧
        HasReadBits bytes beyond (n + 8) d' := by
  have hle : n ≤ 8 * bytes.length := Nat.le_of_add_right_le hfit
  have hpos := h.pos_eq hle
  have hmore : d.pos < d.bytes.length := by
    rw [h.bytes_eq]
    omega
  have hunread := h.unreadBits_of_mod hle hbyte
  have hbits : (Bits.ofBytes bytes).drop n =
      Bits.ofNat 8 d.bytes[d.pos].toNat ++ Bits.ofBytes (d.bytes.drop (d.pos + 1)) := by
    rw [← h.unreadBits_eq, hunread, ofBytes_drop_of_lt hmore]
  refine ⟨d.bytes[d.pos], { d with pos := d.pos + 1 }, next_of_lt hmore, ?_, h.bytes_eq,
    h.beyond_eq, ?_, ?_⟩
  · rw [hbits, List.take_left' (Bits.length_ofNat 8 _),
      Bits.toNat_ofNat_of_lt d.bytes[d.pos].toNat_lt]
  · rw [← h.bytes_eq]
    exact hmore
  · -- nothing is left of the current byte, before the call and behind it
    have hcurrent : unreadBits { d with pos := d.pos + 1 } =
        Bits.ofBytes (d.bytes.drop (d.pos + 1)) := by
      rw [unreadBits] at hunread ⊢
      split
      · rfl
      · rename_i hindex
        rw [if_neg hindex, helperBits] at hunread
        have hnone : d.pendingBits = [] := List.append_left_eq_self.mp hunread
        change d.pendingBits ++ _ = _
        rw [hnone]
        rfl
    have hbehind : (Bits.ofBytes bytes).drop (n + 8) = Bits.ofBytes (d.bytes.drop (d.pos + 1)) := by
      rw [← List.drop_drop, hbits, List.drop_left' (Bits.length_ofNat 8 _)]
    rw [hcurrent, hbehind]

end HasReadBits

/-- After `reset` the state is as after the constructor. -/
lemma reset_eq_new (d : Decerealiser) : d.reset = new d.bytes d.beyond := rfl

end Decerealiser

/-- A call that reads. -/
inductive BitRead where
  /-- `readBits`. -/
  | bits (width : ℕ)
  /-- `grain` of a byte. -/
  | byte
  deriving DecidableEq, Repr

namespace BitRead

/-- How many bits the call reads. -/
def width : BitRead → ℕ
  | bits w => w
  | byte => 8

/-- The call; it returns what was read as a number. -/
def perform : BitRead → CerealM Decerealiser ℕ
  | bits w => do
    let value ← Decerealiser.readBits w
    return value.toNat
  | byte => do
    let value ← grainUInt8 0
    return value.toNat

/-- From 1 to 31 bits are read at once, and a whole byte only where the `n` bits that were read
before end with a byte. -/
def Fits (n : ℕ) : BitRead → Prop
  | bits w => 1 ≤ w ∧ w ≤ 31
  | byte => n % 8 = 0

/-- Every call of a sequence fits in its place. -/
def AllFit : ℕ → List BitRead → Prop
  | _, [] => True
  | n, r :: rs => r.Fits n ∧ AllFit (n + r.width) rs

/-- The numbers of successive fields of a string of bits. -/
def fields (bs : List Bool) : List BitRead → List ℕ
  | [] => []
  | r :: rs => Bits.toNat (bs.take r.width) :: fields (bs.drop r.width) rs

/-- One call reads the next field. -/
lemma perform_eq_ok {bytes beyond : Bytes} {n : ℕ} {d : Decerealiser}
    (hd : Decerealiser.HasReadBits bytes beyond n d) {r : BitRead} (hr : r.Fits n)
    (hfit : n + r.width ≤ 8 * bytes.length) :
    ∃ d', r.perform d = .ok (Bits.toNat (((Bits.ofBytes bytes).drop n).take r.width), d') ∧
      Decerealiser.HasReadBits bytes beyond (n + r.width) d' := by
  cases r with
  | bits w =>
    obtain ⟨hpos, hle⟩ := hr
    obtain ⟨d', hread, hd'⟩ := hd.readBits hpos (Nat.lt_succ_of_le hle) hfit
    refine ⟨d', ?_, hd'⟩
    have hlt : Bits.toNat (((Bits.ofBytes bytes).drop n).take w) < 2 ^ 32 :=
      calc Bits.toNat (((Bits.ofBytes bytes).drop n).take w)
          < 2 ^ (((Bits.ofBytes bytes).drop n).take w).length := Bits.toNat_lt _
        _ ≤ 2 ^ 32 := Nat.pow_le_pow_right (by decide) (by rw [List.length_take]; omega)
    rw [perform, StateT.bind_of_eq_ok hread]
    exact congrArg (fun v => Except.ok (v, d')) (UInt32.toNat_ofNat_of_lt' hlt)
  | byte =>
    obtain ⟨b, d', hread, hvalue, hd'⟩ := hd.grainUInt8 hr hfit
    refine ⟨d', ?_, hd'⟩
    rw [perform, StateT.bind_of_eq_ok hread]
    exact congrArg (fun v => Except.ok (v, d')) hvalue

/-- A sequence of calls reads the next fields. -/
lemma mapM_perform_eq_ok {bytes beyond : Bytes} {n : ℕ} {d : Decerealiser}
    (hd : Decerealiser.HasReadBits bytes beyond n d) {reads : List BitRead}
    (hreads : AllFit n reads) (hfit : n + (reads.map width).sum ≤ 8 * bytes.length) :
    ∃ d', reads.mapM perform d = .ok (fields ((Bits.ofBytes bytes).drop n) reads, d') ∧
      Decerealiser.HasReadBits bytes beyond (n + (reads.map width).sum) d' := by
  induction reads generalizing n d with
  | nil => exact ⟨d, rfl, hd⟩
  | cons r rs ih =>
    rw [List.map_cons, List.sum_cons, ← Nat.add_assoc] at hfit ⊢
    obtain ⟨d₁, hfirst, hd₁⟩ := perform_eq_ok hd hreads.1 (Nat.le_of_add_right_le hfit)
    obtain ⟨d', hrest, hd'⟩ := ih hd₁ hreads.2 hfit
    refine ⟨d', ?_, hd'⟩
    rw [List.mapM_cons, StateT.bind_of_eq_ok hfirst, StateT.bind_of_eq_ok hrest, fields,
      List.drop_drop]
    rfl

/-- **Calls read the successive fields of the bits of the bytes**, each most significant bit first,
from a decerealiser that is fresh or was reset.  Whole bytes can be read in between where the bits
end with a byte, and no byte is read before a bit of it is needed. -/
theorem mapM_perform_eq_fields (bytes beyond : Bytes) (reads : List BitRead)
    (hreads : AllFit 0 reads) (hfit : (reads.map width).sum ≤ 8 * bytes.length)
    {d : Decerealiser}
    (hd : d = .new bytes beyond ∨ ∃ d₀ : Decerealiser, d₀.bytes = bytes ∧ d₀.beyond = beyond ∧
      d = d₀.reset) :
    ∃ d', reads.mapM perform d = .ok (fields (Bits.ofBytes bytes) reads, d') ∧
      d'.pos = ((reads.map width).sum + 7) / 8 := by
  have hnew : d = .new bytes beyond := by
    rcases hd with rfl | ⟨d₀, rfl, rfl, rfl⟩
    · rfl
    · exact d₀.reset_eq_new
  subst hnew
  have hstart := Decerealiser.HasReadBits.new bytes beyond
  have hfit' : 0 + (reads.map width).sum ≤ 8 * bytes.length := by rwa [Nat.zero_add]
  obtain ⟨d', hread, hd'⟩ := mapM_perform_eq_ok hstart hreads hfit'
  have hpos := hd'.pos_eq hfit'
  rw [Nat.zero_add] at hpos
  exact ⟨d', hread, hpos⟩

/-- Nine bits, seven bits and a whole byte are read from three bytes of which one had been read
before the reset. -/
theorem mapM_perform_eq_fields_three_bytes :
    let d : Decerealiser :=
      { bytes := [0x9e, 0xea, 0x17], beyond := [], pos := 1, currentByte := 0x9e, bitIndex := 5 }
    ∃ d', [bits 9, bits 7, byte].mapM perform d.reset = .ok ([317, 0x6a, 0x17], d') ∧ d'.pos = 3 :=
  mapM_perform_eq_fields [0x9e, 0xea, 0x17] [] [bits 9, bits 7, byte]
    ⟨⟨by decide, by decide⟩, ⟨by decide, by decide⟩, rfl, trivial⟩ (by decide)
    (Or.inr ⟨_, rfl, rfl, rfl⟩)

end BitRead

end MqttCpp
