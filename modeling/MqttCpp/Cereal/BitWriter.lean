import MqttCpp.Cereal.BitReader

/-!
# Writing bits

`Cerealiser::writeBits` collects bits in a partial byte.  When a value just fills the byte, the
function goes on to its last two lines and puts the value into the next byte as well.  So what is
written is not the concatenation of the values, but that of the values with every write repeated
that ends with a byte; and since the repeated bits move all that follow, which writes end with a
byte depends on the repeats before them.  Values are written back as they are when no write but the
last ends with a byte; where another one does, values are lost except by coincidence.
-/

namespace MqttCpp

namespace Cerealiser

/-! ## One write -/

/-- A byte that begins with the given bits and goes on with zeros. -/
def padded (p : List Bool) : UInt8 := UInt8.ofNat (Bits.toNat p <<< (8 - p.length))

/-- A cerealiser that holds bytes and the first bits of a byte. -/
def holding (bytes : Bytes) (p : List Bool) : Cerealiser where
  bytes := bytes
  currentByte := padded p
  bitIndex := p.length

/-- A value is put behind the bits of a byte. -/
lemma padded_or {p : List Bool} {v w : ℕ} (hv : v < 2 ^ w) (hfit : p.length + w ≤ 8) :
    padded p ||| UInt8.ofNat (v <<< (8 - w - p.length)) = padded (p ++ Bits.ofNat w v) := by
  have hfirst : 8 - p.length = w + (8 - w - p.length) := by omega
  have hlast : 8 - (p ++ Bits.ofNat w v).length = 8 - w - p.length := by
    rw [List.length_append, Bits.length_ofNat]
    omega
  rw [padded, padded, hlast, Bits.toNat_append_eq_or, Bits.length_ofNat,
    Bits.toNat_ofNat_of_lt hv, Nat.shiftLeft_or_distrib, ← Nat.shiftLeft_add, ← hfirst,
    UInt8.ofNat_or]

/-- The bits of a full byte. -/
lemma ofNat_padded {p : List Bool} (h : p.length = 8) : Bits.ofNat 8 (padded p).toNat = p := by
  have hlt : Bits.toNat p < 2 ^ 8 := by
    rw [← h]
    exact Bits.toNat_lt p
  have hnat : (padded p).toNat = Bits.toNat p := by
    rw [padded, h]
    exact UInt8.toNat_ofNat_of_lt' hlt
  rw [hnat, ← h, Bits.ofNat_toNat]

/-- The bits of bytes behind which a full byte is pushed. -/
lemma ofBytes_push {p : List Bool} (h : p.length = 8) (bytes : Bytes) :
    Bits.ofBytes (bytes ++ [padded p]) = Bits.ofBytes bytes ++ p := by
  rw [Bits.ofBytes_append, Bits.ofBytes_cons, Bits.ofBytes_nil, List.append_nil, ofNat_padded h]

/-- A value that does not fill the byte is put behind its bits. -/
lemma writeBits_holding_of_lt {p : List Bool} {v w : ℕ} (hv : v < 2 ^ w) (h : p.length + w < 8)
    (bytes : Bytes) :
    (holding bytes p).writeBits v w = holding bytes (p ++ Bits.ofNat w v) := by
  rw [writeBits_of_lt p.length rfl h]
  change Cerealiser.mk bytes (padded p ||| _) _ = _
  rw [padded_or hv (Nat.le_of_lt h), holding, List.length_append, Bits.length_ofNat]

/-- A value that just fills the byte completes it, and begins the next byte too. -/
lemma writeBits_holding_of_eq {p : List Bool} {v w : ℕ} (hv : v < 2 ^ w) (h : p.length + w = 8)
    (bytes : Bytes) :
    (holding bytes p).writeBits v w =
      holding (bytes ++ [padded (p ++ Bits.ofNat w v)]) (Bits.ofNat w v) := by
  have hshift : 8 - w - p.length = 0 := by omega
  have hfull := padded_or hv (Nat.le_of_eq h)
  have hnext : padded [] ||| UInt8.ofNat (v <<< (8 - w)) = padded (Bits.ofNat w v) :=
    padded_or hv (h ▸ Nat.add_le_add_right (Nat.zero_le _) w)
  rw [hshift, Nat.shiftLeft_zero] at hfull
  rw [writeBits_of_eq p.length rfl h]
  change Cerealiser.mk (bytes ++ [padded p ||| _]) (padded [] ||| UInt8.ofNat _) _ = _
  rw [hfull, hnext, holding, Bits.length_ofNat]

/-- Of a value that goes beyond the byte, the first bits complete it and the others are written
behind it. -/
lemma writeBits_holding_of_gt {p : List Bool} {v w : ℕ} (hv : v < 2 ^ w) (hp : p.length ≤ 8)
    (hw : w ≤ 8) (h : 8 < p.length + w) (bytes : Bytes) :
    (holding bytes p).writeBits v w =
      (holding (bytes ++ [padded (p ++ Bits.ofNat (8 - p.length) (v / 2 ^ (p.length + w - 8)))])
        []).writeBits (v % 2 ^ (p.length + w - 8)) (p.length + w - 8) := by
  have hsplit : w = 8 - p.length + (p.length + w - 8) := by omega
  have hhigh : v / 2 ^ (p.length + w - 8) < 2 ^ (8 - p.length) := by
    rw [Nat.div_lt_iff_lt_mul (Nat.two_pow_pos _), ← Nat.pow_add, ← hsplit]
    exact hv
  have hfit : p.length + (8 - p.length) ≤ 8 := Nat.le_of_eq (Nat.add_sub_cancel' hp)
  have hfull := padded_or hhigh hfit
  have hshift : 8 - (8 - p.length) - p.length = 0 := by omega
  rw [hshift, Nat.shiftLeft_zero] at hfull
  have hmask := Decerealiser.mask_eq (show p.length + w - 8 ≤ 8 by omega)
  rw [writeBits, if_pos (show 8 ≤ (holding bytes p).bitIndex + w from Nat.le_of_lt h)]
  change (if p.length + w - 8 > 0 then _ else _) = _
  rw [if_pos (Nat.sub_pos_of_lt h)]
  change writeBits { bytes := bytes ++ [padded p ||| UInt8.ofNat (v >>> (p.length + w - 8))] }
    (v &&& (0xff >>> (8 - (p.length + w - 8)))) (p.length + w - 8) = _
  rw [hmask, Nat.and_two_pow_sub_one_eq_mod, Nat.shiftRight_eq_div_pow, hfull]
  rfl

/-- What a write adds, when `n` bits were put before it: the value, and the value again if it ends
with a byte. -/
def writtenBits (n v w : ℕ) : List Bool :=
  Bits.ofNat w v ++ if (n + w) % 8 = 0 then Bits.ofNat w v else []

/-- **What one write does**, as long as the cerealiser does not hold more than one byte besides the
bytes: it adds to the bits that are held, of which less than a byte is left besides the bytes or a
full one. -/
lemma exists_writeBits_eq {p : List Bool} (hp : p.length ≤ 8) {v w : ℕ} (hw : 1 ≤ w ∧ w ≤ 8)
    (hv : v < 2 ^ w) (bytes : Bytes) :
    ∃ bytes' p', (holding bytes p).writeBits v w = holding bytes' p' ∧
      (1 ≤ p'.length ∧ p'.length ≤ 8) ∧
        Bits.ofBytes bytes' ++ p' = Bits.ofBytes bytes ++ p ++ writtenBits p.length v w := by
  obtain ⟨hpos, hle⟩ := hw
  rcases Nat.lt_trichotomy (p.length + w) 8 with hlt | heq | hgt
  · refine ⟨_, _, writeBits_holding_of_lt hv hlt bytes, ?_, ?_⟩
    · rw [List.length_append, Bits.length_ofNat]
      omega
    · rw [writtenBits, if_neg (by omega), List.append_nil, List.append_assoc]
  · have hfull : (p ++ Bits.ofNat w v).length = 8 := by
      rw [List.length_append, Bits.length_ofNat, heq]
    refine ⟨_, _, writeBits_holding_of_eq hv heq bytes, ?_, ?_⟩
    · rw [Bits.length_ofNat]
      omega
    · rw [ofBytes_push hfull, writtenBits, if_pos (by omega)]
      simp only [List.append_assoc]
  · -- the value in two parts, the second of which is written to an empty byte
    have hfull : (p ++ Bits.ofNat (8 - p.length) (v / 2 ^ (p.length + w - 8))).length = 8 := by
      rw [List.length_append, Bits.length_ofNat]
      omega
    have hvalue : Bits.ofNat (8 - p.length) (v / 2 ^ (p.length + w - 8)) ++
        Bits.ofNat (p.length + w - 8) (v % 2 ^ (p.length + w - 8)) = Bits.ofNat w v := by
      rw [Bits.ofNat_mod (Nat.le_refl _), ← Bits.ofNat_add]
      congr 1
      omega
    have hlow : v % 2 ^ (p.length + w - 8) < 2 ^ (p.length + w - 8) :=
      Nat.mod_lt _ (Nat.two_pow_pos _)
    rw [writeBits_holding_of_gt hv hp hle hgt]
    rcases Nat.lt_or_ge (p.length + w - 8) 8 with hrest | hrest
    · refine ⟨_, _, writeBits_holding_of_lt hlow (by rwa [List.length_nil, Nat.zero_add]) _, ?_, ?_⟩
      · rw [List.nil_append, Bits.length_ofNat]
        omega
      · rw [ofBytes_push hfull, writtenBits, if_neg (by omega), List.nil_append, List.append_nil,
          ← hvalue]
        simp only [List.append_assoc]
    · -- a whole byte is written behind a full one
      have hnone : Bits.ofNat (8 - p.length) (v / 2 ^ (p.length + w - 8)) = [] :=
        List.eq_nil_of_length_eq_zero (by rw [Bits.length_ofNat]; omega)
      have height : ([] : List Bool).length + (p.length + w - 8) = 8 := by
        rw [List.length_nil]
        omega
      have hlowfull : ([] ++ Bits.ofNat (p.length + w - 8) (v % 2 ^ (p.length + w - 8))).length =
          8 := by
        rw [List.nil_append, Bits.length_ofNat]
        omega
      refine ⟨_, _, writeBits_holding_of_eq hlow height _, ?_, ?_⟩
      · rw [Bits.length_ofNat]
        omega
      · rw [ofBytes_push hlowfull, ofBytes_push hfull, writtenBits, if_pos (by omega), ← hvalue,
          hnone]
        simp only [List.append_assoc, List.nil_append]

/-! ## A sequence of writes -/

/-- A value of 1 to 8 bits and its width. -/
def IsWrite (x : ℕ × ℕ) : Prop := (1 ≤ x.2 ∧ x.2 ≤ 8) ∧ x.1 < 2 ^ x.2

/-- Make the writes one after the other. -/
def writeAll (c : Cerealiser) (writes : List (ℕ × ℕ)) : Cerealiser :=
  writes.foldl (fun c x => c.writeBits x.1 x.2) c

/-- The bits of the values. -/
def valueBits (writes : List (ℕ × ℕ)) : List Bool := writes.flatMap fun x => Bits.ofNat x.2 x.1

/-- The bits of the values behind `n` bits, when each write that ends with a byte is repeated. -/
def repeatedBits : ℕ → List (ℕ × ℕ) → List Bool
  | _, [] => []
  | n, x :: xs =>
    writtenBits n x.1 x.2 ++ repeatedBits (n + (writtenBits n x.1 x.2).length) xs

/-- Only where the bits before are within a byte matters. -/
lemma writtenBits_congr {m n : ℕ} (h : m % 8 = n % 8) (v w : ℕ) :
    writtenBits m v w = writtenBits n v w := by
  rw [writtenBits, writtenBits, Nat.add_mod m, h, ← Nat.add_mod n]

/-- The same for a sequence. -/
lemma repeatedBits_congr {m n : ℕ} (h : m % 8 = n % 8) (writes : List (ℕ × ℕ)) :
    repeatedBits m writes = repeatedBits n writes := by
  induction writes generalizing m n with
  | nil => rfl
  | cons x xs ih =>
    rw [repeatedBits, repeatedBits, writtenBits_congr h, ih (m := m + _) (n := n + _)
      (by rw [Nat.add_mod m, h, ← Nat.add_mod n])]

/-- **What a sequence of writes does**: it adds the bits with the repeats to those that are
held. -/
theorem exists_writeAll_eq {p : List Bool} (hp : p.length ≤ 8) {writes : List (ℕ × ℕ)}
    (hwrites : ∀ x ∈ writes, IsWrite x) (bytes : Bytes) :
    ∃ bytes' p', (holding bytes p).writeAll writes = holding bytes' p' ∧ p'.length ≤ 8 ∧
      (1 ≤ p.length ∨ writes ≠ [] → 1 ≤ p'.length) ∧
        Bits.ofBytes bytes' ++ p' = Bits.ofBytes bytes ++ p ++ repeatedBits p.length writes := by
  induction writes generalizing p bytes with
  | nil =>
    refine ⟨bytes, p, rfl, hp, fun h => h.resolve_right fun hne => hne rfl, ?_⟩
    rw [repeatedBits, List.append_nil]
  | cons x xs ih =>
    obtain ⟨hwidth, hvalue⟩ := hwrites x List.mem_cons_self
    obtain ⟨bytes₁, p₁, hfirst, ⟨hpos, hle⟩, hbits⟩ := exists_writeBits_eq hp hwidth hvalue bytes
    obtain ⟨bytes', p', hrest, hle', hpos', hbits'⟩ :=
      ih hle (fun y hy => hwrites y (List.mem_cons_of_mem x hy)) bytes₁
    refine ⟨bytes', p', ?_, hle', fun _ => hpos' (Or.inl hpos), ?_⟩
    · rw [writeAll, List.foldl_cons, hfirst]
      exact hrest
    · have hindex : p₁.length % 8 = (p.length + (writtenBits p.length x.1 x.2).length) % 8 := by
        have hlength := congrArg List.length hbits
        simp only [List.length_append, Bits.length_ofBytes] at hlength
        omega
      rw [hbits', hbits, repeatedBits, repeatedBits_congr hindex]
      simp only [List.append_assoc]

/-! ## When the repeats do no harm -/

/-- The repeats of the writes behind `n` bits do no harm: no write but the last ends with a byte,
or where the first does that ends with a byte, the repeats from there on begin with the values that
they are put in front of, and add a byte at most. -/
def RepeatsFit : ℕ → List (ℕ × ℕ) → Prop
  | _, [] => True
  | n, x :: xs =>
    if (n + x.2) % 8 = 0 then
      let behind := Bits.ofNat x.2 x.1 ++ repeatedBits x.2 xs
      valueBits xs <+: behind ∧ behind.length ≤ (valueBits xs).length + 8
    else RepeatsFit (n + x.2) xs

/-- A first write that ends with a byte, with the bits behind it. -/
lemma repeatedBits_cons_of_mod {n : ℕ} {x : ℕ × ℕ} (h : (n + x.2) % 8 = 0)
    (xs : List (ℕ × ℕ)) :
    repeatedBits n (x :: xs) =
      Bits.ofNat x.2 x.1 ++ (Bits.ofNat x.2 x.1 ++ repeatedBits x.2 xs) := by
  have hindex : (n + (writtenBits n x.1 x.2).length) % 8 = x.2 % 8 := by
    rw [writtenBits, if_pos h, List.length_append, Bits.length_ofNat]
    omega
  rw [repeatedBits, repeatedBits_congr hindex, writtenBits, if_pos h, List.append_assoc]

/-- A first write that does not end with a byte. -/
lemma repeatedBits_cons_of_not_mod {n : ℕ} {x : ℕ × ℕ} (h : ¬(n + x.2) % 8 = 0)
    (xs : List (ℕ × ℕ)) :
    repeatedBits n (x :: xs) = Bits.ofNat x.2 x.1 ++ repeatedBits (n + x.2) xs := by
  rw [repeatedBits, writtenBits, if_neg h, List.append_nil, Bits.length_ofNat]

/-- The bits of the first value come first. -/
lemma valueBits_cons (x : ℕ × ℕ) (xs : List (ℕ × ℕ)) :
    valueBits (x :: xs) = Bits.ofNat x.2 x.1 ++ valueBits xs := List.flatMap_cons

/-- As many bits as the widths say. -/
lemma length_valueBits (writes : List (ℕ × ℕ)) :
    (valueBits writes).length = (writes.map Prod.snd).sum := by
  induction writes with
  | nil => rfl
  | cons x xs ih =>
    simp [valueBits_cons, ih]

/-- Of writes with these widths behind `n` bits, none but the last ends with a byte. -/
def OnlyLastEndsByte (n : ℕ) (widths : List ℕ) : Prop :=
  ∀ k < widths.length, 0 < k → ¬(n + (widths.take k).sum) % 8 = 0

instance (n : ℕ) (widths : List ℕ) : Decidable (OnlyLastEndsByte n widths) :=
  inferInstanceAs (Decidable (∀ k < widths.length, 0 < k → ¬(n + (widths.take k).sum) % 8 = 0))

/-- Behind a first write that ends with a byte there is none, and behind another the same holds. -/
lemma onlyLastEndsByte_cons_iff (n w : ℕ) (ws : List ℕ) :
    OnlyLastEndsByte n (w :: ws) ↔
      if (n + w) % 8 = 0 then ws = [] else OnlyLastEndsByte (n + w) ws := by
  have htake : ∀ k, n + ((w :: ws).take (k + 1)).sum = n + w + (ws.take k).sum := by
    intro k
    rw [List.take_succ_cons, List.sum_cons, Nat.add_assoc]
  split
  · rename_i hbyte
    constructor
    · intro h
      by_contra hne
      have hlen : 1 < (w :: ws).length := Nat.succ_lt_succ (List.length_pos_iff.mpr hne)
      refine h 1 hlen Nat.one_pos ?_
      rw [htake 0]
      exact hbyte
    · rintro rfl k hk hpos
      exact absurd hk (Nat.not_lt.mpr hpos)
  · rename_i hbyte
    constructor
    · intro h k hk _
      rw [← htake]
      exact h (k + 1) (Nat.succ_lt_succ hk) (Nat.succ_pos k)
    · intro h k hk hpos
      obtain ⟨k, rfl⟩ := Nat.exists_eq_succ_of_ne_zero (Nat.ne_of_gt hpos)
      rw [Nat.succ_eq_add_one, htake]
      rcases Nat.eq_zero_or_pos k with rfl | hk'
      · exact hbyte
      · exact h k (Nat.lt_of_succ_lt_succ hk) hk'

/-- Then the repeats do no harm, whatever the values are. -/
lemma repeatsFit_of_onlyLastEndsByte {n : ℕ} {writes : List (ℕ × ℕ)}
    (hwrites : ∀ x ∈ writes, IsWrite x) (h : OnlyLastEndsByte n (writes.map Prod.snd)) :
    RepeatsFit n writes := by
  induction writes generalizing n with
  | nil => trivial
  | cons x xs ih =>
    have hwidth := (hwrites x List.mem_cons_self).1.2
    rw [List.map_cons, onlyLastEndsByte_cons_iff] at h
    rw [RepeatsFit]
    split
    · rename_i hbyte
      rw [if_pos hbyte, List.map_eq_nil_iff] at h
      subst h
      refine ⟨List.nil_prefix, ?_⟩
      rw [repeatedBits, List.append_nil, Bits.length_ofNat]
      exact Nat.le_trans hwidth (Nat.le_add_left _ _)
    · rename_i hbyte
      rw [if_neg hbyte] at h
      exact ih (fun y hy => hwrites y (List.mem_cons_of_mem x hy)) h

/-- Zeros do not begin like a value of ones. -/
lemma not_valueBits_prefix {w : ℕ} (hw : 1 ≤ w) {ws : List ℕ} (hws : ∀ w' ∈ ws, 1 ≤ w')
    (hne : ws ≠ []) (rest : List Bool) :
    ¬valueBits (ws.map fun w => (0, w)) <+: Bits.ofNat w (2 ^ w - 1) ++ rest := by
  obtain ⟨w', ws', rfl⟩ := List.exists_cons_of_ne_nil hne
  obtain ⟨k, rfl⟩ := Nat.exists_eq_succ_of_ne_zero (Nat.ne_of_gt hw)
  obtain ⟨k', rfl⟩ := Nat.exists_eq_succ_of_ne_zero
    (Nat.ne_of_gt (hws w' List.mem_cons_self))
  have hone : (2 ^ (k + 1) - 1).testBit k = true := by
    rw [Nat.testBit_two_pow_sub_one]
    exact decide_eq_true (Nat.lt_succ_self k)
  rw [List.map_cons, valueBits_cons, Bits.ofNat, Bits.ofNat, List.cons_append, List.cons_append,
    List.cons_prefix_cons, hone, Nat.zero_testBit]
  rintro ⟨hbit, -⟩
  cases hbit

/-- Otherwise they do harm for some values: ones in the first write that ends with a byte, and zeros
everywhere else. -/
lemma exists_not_repeatsFit {n : ℕ} {widths : List ℕ} (hwidths : ∀ w ∈ widths, 1 ≤ w ∧ w ≤ 8)
    (h : ¬OnlyLastEndsByte n widths) :
    ∃ writes : List (ℕ × ℕ), writes.map Prod.snd = widths ∧ (∀ x ∈ writes, IsWrite x) ∧
      ¬RepeatsFit n writes := by
  induction widths generalizing n with
  | nil => exact absurd (fun k hk => nomatch hk) h
  | cons w ws ih =>
    have hw := hwidths w List.mem_cons_self
    have hws : ∀ w' ∈ ws, 1 ≤ w' ∧ w' ≤ 8 := fun w' hw' => hwidths w' (List.mem_cons_of_mem w hw')
    rw [onlyLastEndsByte_cons_iff] at h
    split at h
    · rename_i hbyte
      refine ⟨(2 ^ w - 1, w) :: ws.map fun w => (0, w), ?_, ?_, ?_⟩
      · rw [List.map_cons, List.map_map]
        exact congrArg (w :: ·) (List.map_id ws)
      · rw [List.forall_mem_cons, List.forall_mem_map]
        refine ⟨⟨hw, Nat.sub_lt (Nat.two_pow_pos w) Nat.one_pos⟩, fun w' hw' => ?_⟩
        exact ⟨hws w' hw', Nat.two_pow_pos w'⟩
      · rw [RepeatsFit, if_pos hbyte]
        intro hfit
        exact not_valueBits_prefix hw.1 (fun w' hw' => (hws w' hw').1) h _ hfit.1
    · rename_i hbyte
      obtain ⟨writes, hmap, hwrites, hnot⟩ := ih hws h
      refine ⟨(0, w) :: writes, by rw [List.map_cons, hmap], ?_, ?_⟩
      · rw [List.forall_mem_cons]
        exact ⟨⟨hw, Nat.two_pow_pos w⟩, hwrites⟩
      · rwa [RepeatsFit, if_neg hbyte]

/-- Bits in front of both do not matter. -/
lemma prefix_append_and_length_iff (v xs ys : List Bool) :
    v ++ xs <+: v ++ ys ∧ (v ++ ys).length ≤ (v ++ xs).length + 8 ↔
      xs <+: ys ∧ ys.length ≤ xs.length + 8 := by
  rw [List.prefix_append_right_inj, List.length_append, List.length_append, Nat.add_assoc,
    Nat.add_le_add_iff_left]

/-- The repeats do no harm if all bits together begin with the values and add a byte at most. -/
lemma repeatsFit_iff (n : ℕ) (writes : List (ℕ × ℕ)) :
    RepeatsFit n writes ↔ valueBits writes <+: repeatedBits n writes ∧
      (repeatedBits n writes).length ≤ (valueBits writes).length + 8 := by
  induction writes generalizing n with
  | nil => exact ⟨fun _ => ⟨List.prefix_rfl, Nat.zero_le _⟩, fun _ => trivial⟩
  | cons x xs ih =>
    rw [RepeatsFit, valueBits_cons]
    split
    · rename_i h
      rw [repeatedBits_cons_of_mod h, prefix_append_and_length_iff]
    · rename_i h
      rw [repeatedBits_cons_of_not_mod h, prefix_append_and_length_iff, ih]

/-- Nothing is left out. -/
lemma length_valueBits_le (n : ℕ) (writes : List (ℕ × ℕ)) :
    (valueBits writes).length ≤ (repeatedBits n writes).length := by
  induction writes generalizing n with
  | nil => exact Nat.le_refl 0
  | cons x xs ih =>
    have hrest := ih (n + (writtenBits n x.1 x.2).length)
    rw [valueBits_cons, repeatedBits, List.length_append, List.length_append, writtenBits,
      List.length_append]
    rw [writtenBits, List.length_append] at hrest
    omega

/-- If the writes end with a byte, the last one at least is repeated. -/
lemma length_valueBits_lt {n : ℕ} {writes : List (ℕ × ℕ)} (hwrites : ∀ x ∈ writes, IsWrite x)
    (hne : writes ≠ []) (hsum : (n + (valueBits writes).length) % 8 = 0) :
    (valueBits writes).length < (repeatedBits n writes).length := by
  induction writes generalizing n with
  | nil => exact absurd rfl hne
  | cons x xs ih =>
    rw [valueBits_cons, List.length_append, Bits.length_ofNat] at hsum ⊢
    by_cases h : (n + x.2) % 8 = 0
    · have hwidth := (hwrites x List.mem_cons_self).1.1
      have hrest := length_valueBits_le x.2 xs
      rw [repeatedBits_cons_of_mod h, List.length_append, List.length_append, Bits.length_ofNat]
      omega
    · have hxs : xs ≠ [] := by
        rintro rfl
        exact h hsum
      have hrest := ih (n := n + x.2) (fun y hy => hwrites y (List.mem_cons_of_mem x hy)) hxs
        (by rwa [Nat.add_assoc])
      rw [repeatedBits_cons_of_not_mod h, List.length_append, Bits.length_ofNat]
      omega

/-- **The bytes are the values put together exactly when the repeats do no harm.** -/
theorem ofBytes_writeAll_iff {writes : List (ℕ × ℕ)} (hwrites : ∀ x ∈ writes, IsWrite x)
    (hsum : (valueBits writes).length % 8 = 0) :
    Bits.ofBytes (writeAll {} writes).bytes = valueBits writes ↔ RepeatsFit 0 writes := by
  by_cases hne : writes = []
  · subst hne
    exact iff_of_true rfl trivial
  obtain ⟨bytes, p, hall, hle, hpos, hbits⟩ :=
    exists_writeAll_eq (p := []) (Nat.zero_le 8) hwrites []
  have hpos' := hpos (Or.inr hne)
  have hmore := length_valueBits_lt (n := 0) hwrites hne (by rwa [Nat.zero_add])
  have hout : (writeAll {} writes).bytes = bytes := congrArg Cerealiser.bytes hall
  have hbits' : Bits.ofBytes bytes ++ p = repeatedBits 0 writes := hbits
  have hlength := congrArg List.length hbits'
  rw [List.length_append, Bits.length_ofBytes] at hlength
  rw [repeatsFit_iff, hout, ← hbits']
  constructor
  · intro h
    rw [← h]
    exact ⟨List.prefix_append _ _, by rw [List.length_append]; omega⟩
  · rintro ⟨hfirst, hadded⟩
    rw [List.length_append, Bits.length_ofBytes] at hadded
    -- less than a byte is between the ends of the two, which both end with a byte
    have hsame : (Bits.ofBytes bytes).length = (valueBits writes).length := by
      rw [Bits.length_ofBytes]
      omega
    have hboth := List.prefix_of_prefix_length_le (List.prefix_append _ p) hfirst
      (Nat.le_of_eq hsame)
    exact hboth.eq_of_length hsame

/-! ## Reading the values back -/

open Decerealiser in
/-- Where the bits of the values are, they are read. -/
lemma mapM_readBits_eq_ok {bytes beyond : Bytes} {n : ℕ} {d : Decerealiser}
    (hd : HasReadBits bytes beyond n d) {writes : List (ℕ × ℕ)}
    (hwrites : ∀ x ∈ writes, IsWrite x) (hbits : (Bits.ofBytes bytes).drop n = valueBits writes) :
    ∃ d', (writes.map Prod.snd).mapM readBits d =
      .ok (writes.map fun x => UInt32.ofNat x.1, d') := by
  induction writes generalizing n d with
  | nil => exact ⟨d, rfl⟩
  | cons x xs ih =>
    obtain ⟨⟨hpos, hle⟩, hvalue⟩ := hwrites x List.mem_cons_self
    rw [valueBits_cons] at hbits
    have hfit : n + x.2 ≤ 8 * bytes.length := by
      have hlength := congrArg List.length hbits
      rw [List.length_drop, Bits.length_ofBytes, List.length_append, Bits.length_ofNat] at hlength
      omega
    obtain ⟨d₁, hfirst, hd₁⟩ := hd.readBits hpos (by omega) hfit
    rw [hbits, List.take_left' (Bits.length_ofNat x.2 x.1), Bits.toNat_ofNat_of_lt hvalue] at hfirst
    obtain ⟨d', hrest⟩ := ih hd₁ (fun y hy => hwrites y (List.mem_cons_of_mem x hy)) (by
      rw [← List.drop_drop, hbits, List.drop_left' (Bits.length_ofNat x.2 x.1)])
    refine ⟨d', ?_⟩
    rw [List.map_cons, List.mapM_cons, StateT.bind_of_eq_ok hfirst, StateT.bind_of_eq_ok hrest]
    rfl

/-- The bytes are the values put together, and reading as many bits each returns the values. -/
def WritesBack (writes : List (ℕ × ℕ)) : Prop :=
  Bits.ofBytes (writeAll {} writes).bytes = valueBits writes ∧
    ∀ beyond, ∃ d, (writes.map Prod.snd).mapM Decerealiser.readBits
      (.new (writeAll {} writes).bytes beyond) = .ok (writes.map fun x => UInt32.ofNat x.1, d)

/-- Writes that end with a byte are written back exactly when the repeats do no harm. -/
lemma writesBack_iff_repeatsFit {writes : List (ℕ × ℕ)} (hwrites : ∀ x ∈ writes, IsWrite x)
    (hsum : (writes.map Prod.snd).sum % 8 = 0) : WritesBack writes ↔ RepeatsFit 0 writes := by
  rw [← length_valueBits] at hsum
  rw [← ofBytes_writeAll_iff hwrites hsum]
  constructor
  · exact fun h => h.1
  · intro h
    exact ⟨h, fun beyond =>
      mapM_readBits_eq_ok (Decerealiser.HasReadBits.new _ beyond) hwrites h⟩

/-- **Values are written back if no write but the last ends with a byte**, and these are all widths
for which every choice of values is written back. -/
theorem writesBack_iff {widths : List ℕ} (hwidths : ∀ w ∈ widths, 1 ≤ w ∧ w ≤ 8)
    (hsum : widths.sum % 8 = 0) :
    (∀ writes : List (ℕ × ℕ), writes.map Prod.snd = widths → (∀ x ∈ writes, IsWrite x) →
      WritesBack writes) ↔ OnlyLastEndsByte 0 widths := by
  constructor
  · intro hall
    by_contra h
    obtain ⟨writes, rfl, hwrites, hnot⟩ := exists_not_repeatsFit hwidths h
    exact hnot ((writesBack_iff_repeatsFit hwrites hsum).mp (hall writes rfl hwrites))
  · rintro h writes rfl hwrites
    rw [writesBack_iff_repeatsFit hwrites hsum]
    exact repeatsFit_of_onlyLastEndsByte hwrites h

/-- A value of three bits, one of two and one of three are written back, since only the last ends
with a byte. -/
theorem writesBack_three_values : WritesBack [(5, 3), (2, 2), (6, 3)] :=
  (writesBack_iff (by decide : ∀ w ∈ [3, 2, 3], 1 ≤ w ∧ w ≤ 8) (by decide)).mpr (by decide) _ rfl
    (by simp [IsWrite])

/-- A coincidence: the second write ends with a byte, but zeros are repeated in front of zeros. -/
example : (writeAll {} [(0, 6), (0, 2), (0, 8)]).bytes = [0, 0] := by decide +kernel

/-- Two whole bytes are not: the first one is written twice. -/
theorem writesBack_fails_on_two_bytes :
    (∀ x ∈ [(1, 8), (2, 8)], IsWrite x) ∧ ([(1, 8), (2, 8)].map (Prod.snd (α := ℕ))).sum % 8 = 0 ∧
      (writeAll {} [(1, 8), (2, 8)]).bytes = [1, 1, 2] ∧ ¬WritesBack [(1, 8), (2, 8)] := by
  have hbytes : (writeAll {} [(1, 8), (2, 8)]).bytes = [1, 1, 2] := by decide +kernel
  refine ⟨by simp [IsWrite], by decide, hbytes, fun h => ?_⟩
  have hlength := congrArg List.length h.1
  rw [hbytes] at hlength
  exact absurd hlength (by decide)

end Cerealiser

end MqttCpp
