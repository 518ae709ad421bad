import MqttCpp.Library.Codec
import MqttCpp.Cereal.Cerealiser
import MqttCpp.Cereal.Decerealiser

/-!
# The formats of the grain functions

What each `grain` function writes and what it reads, as a format in the sense of
`Library.Codec`: bytes, 16-bit numbers, strings, and arrays without a length.  A
`grainRawArray` reads up to the end of the bytes, so it is described by the bytes that are left,
not by a format that may be followed by anything.
-/

namespace MqttCpp

open Cereal

/-! ## The two cereals as cursor and sink -/

instance : Sink Cerealiser UInt8 where
  emit output c := { c with bytes := c.bytes ++ output }
  emit_nil c := by rw [List.append_nil]
  emit_emit xs ys c := by rw [List.append_assoc]

instance : Cursor Decerealiser UInt8 where
  unread d := (d.bytes ++ d.beyond).drop d.pos
  advance n d := { d with pos := d.pos + n }
  unread_advance n d := List.drop_drop.symm
  advance_zero d := rfl
  advance_advance m n d := by rw [Nat.add_assoc]

/-- The byte the iterator points to is the first that has not been read. -/
lemma getElem?_pos_eq (d : Decerealiser) :
    (d.bytes ++ d.beyond)[d.pos]? = (Cursor.unread d)[0]? := by
  change _ = ((d.bytes ++ d.beyond).drop d.pos)[0]?
  rw [List.getElem?_drop, Nat.add_zero]

/-! ## Bytes and 16-bit numbers -/

/-- A 16-bit number, most significant byte first. -/
def be16 (w : UInt16) : Bytes := [(w >>> 8).toUInt8, (w &&& 0xff).toUInt8]

@[simp] lemma length_be16 (w : UInt16) : (be16 w).length = 2 := rfl

/-- The value of two bytes put together. -/
lemma toNat_join (h l : UInt8) :
    ((h.toUInt16 <<< 8) + l.toUInt16).toNat = h.toNat * 256 + l.toNat := by
  have hh := h.toNat_lt
  have hl := l.toNat_lt
  have h8 : (8 : UInt16).toNat % 16 = 8 := rfl
  rw [UInt16.toNat_add, UInt16.toNat_shiftLeft, UInt8.toNat_toUInt16, UInt8.toNat_toUInt16, h8,
    Nat.shiftLeft_eq]
  omega

/-- The value of the high byte. -/
lemma toNat_high (w : UInt16) : (w >>> 8).toUInt8.toNat = w.toNat / 256 := by
  have hw := w.toNat_lt
  have h8 : (8 : UInt16).toNat % 16 = 8 := rfl
  rw [UInt16.toNat_toUInt8, UInt16.toNat_shiftRight, h8, Nat.shiftRight_eq_div_pow]
  omega

/-- The value of the low byte. -/
lemma toNat_low (w : UInt16) : (w &&& 0xff).toUInt8.toNat = w.toNat % 256 := by
  have hmask : (0xff : UInt16).toNat = 2 ^ 8 - 1 := rfl
  rw [UInt16.toNat_toUInt8, UInt16.toNat_and, hmask, Nat.and_two_pow_sub_one_eq_mod]
  omega

/-- A number is its high and its low byte put together. -/
lemma join_bytes (w : UInt16) :
    ((w >>> 8).toUInt8.toUInt16 <<< 8) + (w &&& 0xff).toUInt8.toUInt16 = w := by
  apply UInt16.toNat.inj
  rw [toNat_join, toNat_high, toNat_low]
  omega

/-- Two bytes are the high and the low byte of what they are together. -/
lemma be16_join (h l : UInt8) : be16 ((h.toUInt16 <<< 8) + l.toUInt16) = [h, l] := by
  have hl := l.toNat_lt
  have hhigh : (((h.toUInt16 <<< 8) + l.toUInt16) >>> 8).toUInt8 = h := by
    apply UInt8.toNat.inj
    rw [toNat_high, toNat_join]
    omega
  have hlow : (((h.toUInt16 <<< 8) + l.toUInt16) &&& 0xff).toUInt8 = l := by
    apply UInt8.toNat.inj
    rw [toNat_low, toNat_join]
    omega
  rw [be16, hhigh, hlow]

/-- Writing a byte. -/
lemma prints_grainUInt8 (b : UInt8) : Prints (grainUInt8 b : CerealM Cerealiser UInt8) b [b] :=
  fun _ => rfl

/-- Writing bytes one after the other. -/
lemma prints_mapM_grainUInt8 (bytes : Bytes) :
    Prints (bytes.mapM grainUInt8 : CerealM Cerealiser Bytes) bytes bytes := by
  have hbytes : Prints (bytes.mapM grainUInt8 : CerealM Cerealiser Bytes) bytes
      (bytes.flatMap fun b => [b]) := Prints.mapM fun b _ => prints_grainUInt8 b
  rwa [List.flatMap_singleton'] at hbytes

/-- When nothing is left, a byte is read where there is no memory. -/
lemma grainUInt8_of_unread_eq_nil {d : Decerealiser} (h : Cursor.unread d = []) (b : UInt8) :
    (grainUInt8 b : CerealM Decerealiser UInt8) d = .error .badRead := by
  change Decerealiser.next d = _
  rw [Decerealiser.next, getElem?_pos_eq, h]
  rfl

/-- Otherwise the first byte that is left is read. -/
lemma grainUInt8_of_unread_eq_cons {d : Decerealiser} {c : UInt8} {rest : Bytes}
    (h : Cursor.unread d = c :: rest) (b : UInt8) :
    (grainUInt8 b : CerealM Decerealiser UInt8) d = .ok (c, Cursor.advance 1 d) := by
  change Decerealiser.next d = _
  rw [Decerealiser.next, getElem?_pos_eq, h]
  rfl

/-- Reading a byte. -/
lemma parses_grainUInt8 (b : UInt8) :
    Parses (grainUInt8 b : CerealM Decerealiser UInt8) fun c input => input = [c] := by
  intro d c d'
  cases hunread : Cursor.unread d with
  | nil =>
    rw [grainUInt8_of_unread_eq_nil hunread]
    constructor
    · intro h
      cases h
    · rintro ⟨_, rfl, hprefix, -⟩
      cases List.prefix_nil.mp hprefix
  | cons b' rest =>
    rw [grainUInt8_of_unread_eq_cons hunread]
    constructor
    · intro h
      obtain ⟨rfl, rfl⟩ := Prod.mk.inj (Except.ok.inj h)
      exact ⟨[b'], rfl, ⟨rest, rfl⟩, rfl⟩
    · rintro ⟨_, rfl, hprefix, rfl⟩
      obtain rfl := (List.cons_prefix_cons.mp hprefix).1
      rfl

/-- Reading a byte fails when there is no memory to read only. -/
lemma failsWith_grainUInt8 (b : UInt8) :
    FailsWith (grainUInt8 b : CerealM Decerealiser UInt8) (· = .badRead) := by
  intro d e h
  cases hunread : Cursor.unread d with
  | nil =>
    rw [grainUInt8_of_unread_eq_nil hunread] at h
    exact (Except.error.inj h).symm
  | cons b' rest =>
    rw [grainUInt8_of_unread_eq_cons hunread] at h
    cases h

/-- Writing a 16-bit number. -/
lemma prints_grainUInt16 (w : UInt16) :
    Prints (grainUInt16 w : CerealM Cerealiser UInt16) w (be16 w) := by
  have hbytes : Prints (grainUInt16 w : CerealM Cerealiser UInt16)
      (((w >>> 8).toUInt8.toUInt16 <<< 8) + (w &&& 0xff).toUInt8.toUInt16)
      ([(w >>> 8).toUInt8] ++ [(w &&& 0xff).toUInt8]) := by
    unfold grainUInt16
    exact (prints_grainUInt8 _).bind ((prints_grainUInt8 _).bind_pure
      fun l => ((w >>> 8).toUInt8.toUInt16 <<< 8) + l.toUInt16)
  rw [join_bytes] at hbytes
  exact hbytes

/-- Reading a 16-bit number. -/
lemma parses_grainUInt16 (w : UInt16) :
    Parses (grainUInt16 w : CerealM Decerealiser UInt16) fun v input => input = be16 v := by
  refine ((parses_grainUInt8 _).bind fun h =>
    (parses_grainUInt8 _).map fun l => (h.toUInt16 <<< 8) + l.toUInt16).congr fun v input => ?_
  constructor
  · rintro ⟨h, _, _, rfl, ⟨l, rfl, rfl⟩, rfl⟩
    exact (be16_join h l).symm
  · rintro rfl
    exact ⟨_, _, _, rfl, ⟨_, rfl, (join_bytes v).symm⟩, rfl⟩

/-- Reading a 16-bit number fails as reading a byte does. -/
lemma failsWith_grainUInt16 (w : UInt16) :
    FailsWith (grainUInt16 w : CerealM Decerealiser UInt16) (· = .badRead) := by
  unfold grainUInt16
  exact (failsWith_grainUInt8 _).bind fun _ => (failsWith_grainUInt8 _).bind fun _ => .pure _

/-! ## Strings -/

/-- A string behind its length. -/
def encodeString (s : Str) : Bytes := be16 (UInt16.ofNat s.length) ++ s

@[simp] lemma length_encodeString (s : Str) : (encodeString s).length = 2 + s.length := by
  rw [encodeString, List.length_append, length_be16]

/-- A length below `2 ^ 16` is not cut off. -/
lemma toNat_ofNat_length {s : Str} (h : s.length < 65536) :
    (UInt16.ofNat s.length).toNat = s.length := UInt16.toNat_ofNat_of_lt' h

@[simp] lemma length_resize {α : Type} (n : ℕ) (default : α) (val : List α) :
    (resize n default val).length = n := by
  rw [resize, List.length_append, List.length_take, List.length_replicate]
  omega

/-- Writing a string whose length fits into 16 bits. -/
lemma prints_grainString {s : Str} (h : s.length < 65536) :
    Prints (grainString s : CerealM Cerealiser Str) s (encodeString s) := by
  unfold grainString
  apply (prints_grainUInt16 (UInt16.ofNat s.length)).bind
  rw [toNat_ofNat_length h, if_neg (not_not_intro rfl)]
  exact prints_mapM_grainUInt8 s

/-- Reading a string: a length, and as many characters. -/
lemma parses_grainString (old : Str) :
    Parses (grainString old : CerealM Decerealiser Str) fun s input =>
      s.length < 65536 ∧ input = encodeString s := by
  have hresize : ∀ num : UInt16,
      (if old.length ≠ num.toNat then resize num.toNat 0 old else old).length = num.toNat := by
    intro num
    split
    · exact length_resize _ _ _
    · rename_i h
      exact not_not.mp h
  unfold grainString
  refine ((parses_grainUInt16 _).bind fun num =>
    Parses.mapM (fun b => parses_grainUInt8 b) _).congr fun s input => ?_
  constructor
  · rintro ⟨num, _, chars, rfl, ⟨hlen, rfl⟩, rfl⟩
    rw [hresize] at hlen
    have hnum := num.toNat_lt
    have hback : UInt16.ofNat chars.length = num := by rw [hlen, UInt16.ofNat_toNat]
    exact ⟨by omega, by rw [encodeString, hback]⟩
  · rintro ⟨hlen, rfl⟩
    refine ⟨UInt16.ofNat s.length, _, _, rfl, ⟨?_, rfl⟩, rfl⟩
    rw [hresize, toNat_ofNat_length hlen]

/-- Reading a string fails as reading a byte does. -/
lemma failsWith_grainString (old : Str) :
    FailsWith (grainString old : CerealM Decerealiser Str) (· = .badRead) := by
  unfold grainString
  exact (failsWith_grainUInt16 _).bind fun _ => .mapM failsWith_grainUInt8 _

/-! ## Arrays without a length -/

section RawArray

variable {T : Type} {grain : T → CerealM Decerealiser T} {default : T} {valid : T → Prop}
  {encode : T → Bytes}

/-- The bytes that are left are those the iterator has not passed, if an `int` can count them. -/
lemma bytesLeft_eq {d : Decerealiser} (h : d.pos ≤ d.bytes.length)
    (hsize : d.bytes.length < 2 ^ 31) :
    bytesLeft d = ((d.bytes.drop d.pos).length : Int) := by
  have hleft : (d.bytes.length : Int) - d.pos = ((d.bytes.drop d.pos).length : Int) := by
    rw [List.length_drop]
    omega
  change ((d.bytes.length : Int) - d.pos).bmod (2 ^ 32) = _
  rw [hleft]
  rw [List.length_drop]
  apply Int.bmod_eq_of_le <;> omega

/-- An element that is inside the bytes leaves no negative number of them. -/
lemma not_bytesLeft_advance_neg {d : Decerealiser} {n : ℕ} (h : d.pos + n ≤ d.bytes.length)
    (hsize : d.bytes.length < 2 ^ 31) : ¬bytesLeft (Cursor.advance n d) < 0 := by
  have hadvance : (Cursor.advance n d).pos ≤ (Cursor.advance n d).bytes.length := h
  rw [bytesLeft_eq hadvance hsize]
  exact Int.not_lt.mpr (Int.natCast_nonneg _)

/-- What can be read are the bytes that are left, and what is behind them. -/
lemma unread_eq {d : Decerealiser} (h : d.pos ≤ d.bytes.length) :
    Cursor.unread d = d.bytes.drop d.pos ++ d.beyond := List.drop_append_of_le_length h

/-- With no bytes left the loop ends. -/
lemma grainRawArrayLoop_of_le {d : Decerealiser} (h : bytesLeft d ≤ 0) (fuel : ℕ)
    (val : List T) : grainRawArrayLoop grain default fuel val d = .ok (val, d) := by
  have hleft : ¬bytesLeft d > 0 := Int.not_lt.mpr h
  cases fuel with
  | zero =>
    change (if bytesLeft d > 0 then throw .diverged else pure val :
      CerealM Decerealiser (List T)) d = _
    rw [if_neg hleft]
    rfl
  | succ fuel =>
    change (if bytesLeft d > 0 then _ else pure val : CerealM Decerealiser (List T)) d = _
    rw [if_neg hleft]
    rfl

/-- With bytes left the loop reads an element, checks that it has not read too far and goes on. -/
lemma grainRawArrayLoop_of_pos {d : Decerealiser} (h : 0 < bytesLeft d) (fuel : ℕ)
    (val : List T) :
    grainRawArrayLoop grain default (fuel + 1) val d =
      grain default d >>= fun p =>
        if bytesLeft p.2 < 0 then .error .assertFailed
        else grainRawArrayLoop grain default fuel (val ++ [p.1]) p.2 := by
  change (if bytesLeft d > 0 then _ else pure val : CerealM Decerealiser (List T)) d = _
  rw [if_pos h]
  change (grain default d >>= fun p =>
    (if bytesLeft p.2 < 0 then throw .assertFailed
      else grainRawArrayLoop grain default fuel (val ++ [p.1]) :
        CerealM Decerealiser (List T)) p.2) = _
  congr 1
  funext p
  split <;> rfl

/-- Reading an element moves the iterator behind its encoding, which is inside the bytes. -/
lemma pos_advance_le {d : Decerealiser} (hpos : d.pos ≤ d.bytes.length) {input rest : Bytes}
    (h : d.bytes.drop d.pos = input ++ rest) :
    d.pos + input.length ≤ d.bytes.length ∧
      d.bytes.drop (d.pos + input.length) = rest := by
  have hlen := congrArg List.length h
  rw [List.length_drop, List.length_append] at hlen
  refine ⟨by omega, ?_⟩
  rw [← List.drop_drop, h, List.drop_left]

/-- **The loop accepts a concatenation of encodings**: if the encodings of a list make up the bytes
that are left, the list is read and the iterator ends where the bytes end. -/
theorem grainRawArrayLoop_eq_ok
    (hgrain : Parses (grain default) fun t input => valid t ∧ input = encode t)
    (hencode : ∀ t, 0 < (encode t).length) {ts : List T} (hts : ∀ t ∈ ts, valid t)
    {d : Decerealiser} (hpos : d.pos ≤ d.bytes.length) (hsize : d.bytes.length < 2 ^ 31)
    (hleft : d.bytes.drop d.pos = ts.flatMap encode) {fuel : ℕ}
    (hfuel : (ts.flatMap encode).length ≤ fuel) (val : List T) :
    grainRawArrayLoop grain default fuel val d =
      .ok (val ++ ts, { d with pos := d.bytes.length }) := by
  induction ts generalizing d fuel val with
  | nil =>
    have hlen := congrArg List.length hleft
    rw [List.length_drop, List.flatMap_nil, List.length_nil] at hlen
    have hend : d.pos = d.bytes.length := by omega
    rw [grainRawArrayLoop_of_le (by rw [bytesLeft_eq hpos hsize, hleft]; exact Int.le_refl 0),
      List.append_nil, ← hend]
  | cons t ts ih =>
    rw [List.flatMap_cons] at hleft hfuel
    rw [List.length_append] at hfuel
    have ht := hencode t
    obtain ⟨hpos', hleft'⟩ := pos_advance_le hpos hleft
    have hprefix : encode t <+: Cursor.unread d := by
      rw [unread_eq hpos, hleft, List.append_assoc]
      exact List.prefix_append _ _
    have hread := hgrain.eq_ok ⟨hts t List.mem_cons_self, rfl⟩ hprefix
    have hsome : 0 < bytesLeft d := by
      rw [bytesLeft_eq hpos hsize, hleft, List.length_append]
      omega
    have hinside := not_bytesLeft_advance_neg hpos' hsize
    have hsize' : (Cursor.advance (encode t).length d).bytes.length < 2 ^ 31 := hsize
    obtain ⟨fuel, rfl⟩ : ∃ fuel', fuel = fuel' + 1 := ⟨fuel - 1, by omega⟩
    rw [grainRawArrayLoop_of_pos hsome, hread]
    change (if bytesLeft (Cursor.advance (encode t).length d) < 0 then _ else _) = _
    rw [if_neg hinside,
      ih (fun t' ht' => hts t' (List.mem_cons_of_mem t ht')) hpos' hsize' hleft' (by omega),
      List.append_assoc]
    rfl

/-- A round of the loop when there is no memory behind the bytes: an element that is read is valid
and inside the bytes, so the loop goes on. -/
lemma exists_of_grain_eq_ok
    (hgrain : Parses (grain default) fun t input => valid t ∧ input = encode t)
    {d : Decerealiser} (hpos : d.pos ≤ d.bytes.length) (hsize : d.bytes.length < 2 ^ 31)
    (hbeyond : d.beyond = [])
    (hleft : 0 < bytesLeft d) {p : T × Decerealiser} (hread : grain default d = .ok p)
    (fuel : ℕ) (val : List T) :
    ∃ t rest, valid t ∧ d.bytes.drop d.pos = encode t ++ rest ∧
      grainRawArrayLoop grain default (fuel + 1) val d =
        grainRawArrayLoop grain default fuel (val ++ [t])
          (Cursor.advance (encode t).length d) := by
  obtain ⟨t, d'⟩ := p
  obtain ⟨_, ⟨ht, rfl⟩, hprefix, rfl⟩ := (hgrain d t d').mp hread
  rw [unread_eq hpos, hbeyond, List.append_nil] at hprefix
  obtain ⟨rest, hrest⟩ := hprefix
  obtain ⟨hpos', -⟩ := pos_advance_le hpos hrest.symm
  have hinside := not_bytesLeft_advance_neg hpos' hsize
  refine ⟨t, rest, ht, hrest.symm, ?_⟩
  rw [grainRawArrayLoop_of_pos hleft, hread]
  change (if bytesLeft (Cursor.advance (encode t).length d) < 0 then _ else _) = _
  rw [if_neg hinside]

/-- With the bound of the model used up, the loop goes on only if no bytes are left. -/
lemma grainRawArrayLoop_zero {d : Decerealiser} (h : ¬bytesLeft d ≤ 0) (val : List T) :
    grainRawArrayLoop grain default 0 val d = .error .diverged := by
  change (if bytesLeft d > 0 then throw .diverged else _ : CerealM Decerealiser (List T)) d = _
  rw [if_pos (Int.not_le.mp h)]
  rfl

/-- When no bytes are left the loop has read nothing. -/
lemma grainRawArrayLoop_reads_of_le {d d' : Decerealiser} (hleft : bytesLeft d ≤ 0) {fuel : ℕ}
    {val vals : List T} (h : grainRawArrayLoop grain default fuel val d = .ok (vals, d')) :
    ∃ ts, (∀ t ∈ ts, valid t) ∧ ts.flatMap encode <+: Cursor.unread d ∧ vals = val ++ ts ∧
      d' = Cursor.advance (ts.flatMap encode).length d ∧ bytesLeft d' ≤ 0 := by
  rw [grainRawArrayLoop_of_le hleft] at h
  obtain ⟨rfl, rfl⟩ := Prod.mk.inj (Except.ok.inj h)
  exact ⟨[], by simp, by simp, by simp, rfl, hleft⟩

/-- **What the loop has read** when it ends without a fault: encodings of elements, up to where no
bytes are left as the code counts them. -/
theorem grainRawArrayLoop_reads
    (hgrain : Parses (grain default) fun t input => valid t ∧ input = encode t)
    {d d' : Decerealiser} {fuel : ℕ} {val vals : List T}
    (h : grainRawArrayLoop grain default fuel val d = .ok (vals, d')) :
    ∃ ts, (∀ t ∈ ts, valid t) ∧ ts.flatMap encode <+: Cursor.unread d ∧ vals = val ++ ts ∧
      d' = Cursor.advance (ts.flatMap encode).length d ∧ bytesLeft d' ≤ 0 := by
  induction fuel generalizing d val with
  | zero =>
    by_cases hleft : bytesLeft d ≤ 0
    · exact grainRawArrayLoop_reads_of_le hleft h
    · rw [grainRawArrayLoop_zero hleft] at h
      cases h
  | succ fuel ih =>
    by_cases hleft : bytesLeft d ≤ 0
    · exact grainRawArrayLoop_reads_of_le hleft h
    · rw [grainRawArrayLoop_of_pos (Int.not_le.mp hleft)] at h
      cases hread : grain default d with
      | error e =>
        rw [hread] at h
        cases h
      | ok q =>
        obtain ⟨t, d₁⟩ := q
        obtain ⟨_, ⟨ht, rfl⟩, ⟨rest, hrest⟩, rfl⟩ := (hgrain d t d₁).mp hread
        rw [hread] at h
        change (if bytesLeft (Cursor.advance (encode t).length d) < 0 then _ else _) = _ at h
        split at h
        · cases h
        · obtain ⟨ts, hts, hprefix, rfl, rfl, hend⟩ := ih h
          rw [Cursor.unread_advance, ← hrest, List.drop_left] at hprefix
          refine ⟨t :: ts, List.forall_mem_cons.mpr ⟨ht, hts⟩, ?_, ?_, ?_, hend⟩
          · rw [List.flatMap_cons, ← hrest]
            exact (List.prefix_append_right_inj (encode t)).mpr hprefix
          · rw [List.append_assoc]
            rfl
          · rw [Cursor.advance_advance, List.flatMap_cons, List.length_append]

/-- The loop does not end at its bound: with no memory behind the bytes it fails as reading an
element does. -/
theorem grainRawArrayLoop_failsWith
    (hgrain : Parses (grain default) fun t input => valid t ∧ input = encode t)
    (hencode : ∀ t, 0 < (encode t).length) {P : Fault → Prop} (hfails : FailsWith (grain default) P)
    {d : Decerealiser} (hpos : d.pos ≤ d.bytes.length) (hsize : d.bytes.length < 2 ^ 31)
    (hbeyond : d.beyond = []) {fuel : ℕ}
    (hfuel : d.bytes.length ≤ d.pos + fuel) {val : List T} {e : Fault}
    (h : grainRawArrayLoop grain default fuel val d = .error e) : P e := by
  induction fuel generalizing d val with
  | zero =>
    have hleft : bytesLeft d ≤ 0 := by
      rw [bytesLeft_eq hpos hsize, List.length_drop]
      omega
    rw [grainRawArrayLoop_of_le hleft] at h
    cases h
  | succ fuel ih =>
    by_cases hleft : bytesLeft d ≤ 0
    · rw [grainRawArrayLoop_of_le hleft] at h
      cases h
    · cases hread : grain default d with
      | error e' =>
        rw [grainRawArrayLoop_of_pos (Int.not_le.mp hleft), hread] at h
        obtain rfl := Except.error.inj h
        exact hfails d e' hread
      | ok q =>
        obtain ⟨t, rest, -, hrest, hround⟩ :=
          exists_of_grain_eq_ok hgrain hpos hsize hbeyond (Int.not_le.mp hleft) hread fuel val
        obtain ⟨hpos', -⟩ := pos_advance_le hpos hrest
        have ht := hencode t
        have hbeyond' : (Cursor.advance (encode t).length d).beyond = [] := hbeyond
        have hfuel' : d.bytes.length ≤ d.pos + (encode t).length + fuel := by omega
        have hsize' : (Cursor.advance (encode t).length d).bytes.length < 2 ^ 31 := hsize
        rw [hround] at h
        exact ih hpos' hsize' hbeyond' hfuel' h

/-- Reading an array in whole: exactly the concatenations of encodings are read without going
beyond the bytes. -/
theorem grainRawArray_eq_ok
    (hgrain : Parses (grain default) fun t input => valid t ∧ input = encode t)
    (hencode : ∀ t, 0 < (encode t).length) {ts : List T} (hts : ∀ t ∈ ts, valid t)
    {d : Decerealiser} (hpos : d.pos ≤ d.bytes.length) (hsize : d.bytes.length < 2 ^ 31)
    (hleft : d.bytes.drop d.pos = ts.flatMap encode) (val : List T) :
    grainRawArray grain default val d = .ok (ts, { d with pos := d.bytes.length }) := by
  have hfuel : (ts.flatMap encode).length ≤ (bytesLeft d).toNat := by
    rw [bytesLeft_eq hpos hsize, hleft, Int.toNat_natCast]
  exact grainRawArrayLoop_eq_ok hgrain hencode hts hpos hsize hleft hfuel []

/-- What an array was read from, wherever it ends. -/
lemma consumes_grainRawArray
    (hgrain : Parses (grain default) fun t input => valid t ∧ input = encode t) (val : List T) :
    Consumes (grainRawArray grain default val) fun ts input =>
      (∀ t ∈ ts, valid t) ∧ input = ts.flatMap encode := by
  intro d vals d' hok
  obtain ⟨ts, hts, hprefix, hvals, hd, -⟩ := grainRawArrayLoop_reads hgrain hok
  obtain rfl : vals = ts := hvals
  exact ⟨vals.flatMap encode, ⟨hts, rfl⟩, hprefix, hd⟩

/-- What an array was read from without going beyond the bytes. -/
theorem exists_of_grainRawArray_eq_ok
    (hgrain : Parses (grain default) fun t input => valid t ∧ input = encode t)
    {d : Decerealiser} (hpos : d.pos ≤ d.bytes.length) (hsize : d.bytes.length < 2 ^ 31)
    (hbeyond : d.beyond = []) {val : List T}
    {p : List T × Decerealiser} (h : grainRawArray grain default val d = .ok p) :
    ∃ ts : List T, (∀ t ∈ ts, valid t) ∧ d.bytes.drop d.pos = ts.flatMap encode := by
  obtain ⟨ts, hts, hprefix, -, hd, hend⟩ := grainRawArrayLoop_reads hgrain h
  rw [unread_eq hpos, hbeyond, List.append_nil] at hprefix
  obtain ⟨rest, hrest⟩ := hprefix
  obtain ⟨hpos', hleft⟩ := pos_advance_le hpos hrest.symm
  have hadvance : p.2.pos ≤ p.2.bytes.length ∧ p.2.bytes.length < 2 ^ 31 ∧
      p.2.bytes.drop p.2.pos = rest := by
    rw [hd]
    exact ⟨hpos', hsize, hleft⟩
  rw [bytesLeft_eq hadvance.1 hadvance.2.1, hadvance.2.2] at hend
  have hnil : rest = [] := List.length_eq_zero_iff.mp (by omega)
  rw [hnil, List.append_nil] at hrest
  exact ⟨ts, hts, hrest.symm⟩

/-- How reading an array fails when there is no memory behind the bytes. -/
theorem grainRawArray_failsWith
    (hgrain : Parses (grain default) fun t input => valid t ∧ input = encode t)
    (hencode : ∀ t, 0 < (encode t).length) {P : Fault → Prop} (hfails : FailsWith (grain default) P)
    {d : Decerealiser} (hpos : d.pos ≤ d.bytes.length) (hsize : d.bytes.length < 2 ^ 31)
    (hbeyond : d.beyond = []) {val : List T}
    {e : Fault} (h : grainRawArray grain default val d = .error e) : P e := by
  have hfuel : d.bytes.length ≤ d.pos + (bytesLeft d).toNat := by
    rw [bytesLeft_eq hpos hsize, Int.toNat_natCast, List.length_drop]
    omega
  exact grainRawArrayLoop_failsWith hgrain hencode hfails hpos hsize hbeyond hfuel h

end RawArray

end MqttCpp
