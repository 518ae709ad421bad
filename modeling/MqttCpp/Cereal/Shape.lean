import MqttCpp.Cereal.Numbers
import MqttCpp.Message.Message

/-!
# Reading undoes writing

What `grain` can be called with is built from numbers and strings by structs and vectors; `Shape` is
the syntax of such types and `Shape.grain` the code that is run for each.  One `cerealise` serves
writing and reading, and for every shape the two are inverse: what is read is exactly what writing
the value writes (`grain_eq_ok_iff_writes`).  The only values that do not survive are vectors and
strings with more elements than their length can say.

Reading makes room for as many elements as a length says before it reads them, so a length for
which there is no room ends the process.  How much room there is depends on the type of the
elements: `room elem` is the most that a vector of them can be grown to.
-/

namespace MqttCpp

open Cereal

/-- The types that are cerealised.  A struct is a list of fields, which its `cerealise` grains in
order: `field` puts one before the others, `done` ends it.  In the source the elements of a vector
are structs. -/
inductive Shape where
  | scalar (s : Scalar)
  | string (I : LengthType)
  | vector (I : LengthType) (elem : Shape)
  | done
  | field (first rest : Shape)
  deriving DecidableEq, Repr

namespace Shape

/-- What a variable of the type holds. -/
abbrev Value : Shape → Type
  | scalar s => s.Value
  | string _ => Str
  | vector _ elem => List elem.Value
  | done => Unit
  | field first rest => first.Value × rest.Value

/-- A variable that has been value-initialised. -/
def default : (s : Shape) → s.Value
  | scalar s => s.default
  | string _ => ([] : Str)
  | vector _ elem => ([] : List elem.Value)
  | done => ()
  | field first rest => (first.default, rest.default)

/-- The characters of a string. -/
def char : Shape := scalar .char

/-- The `grain` of the type, or its `cerealise`. -/
def grain {C : Type} [Cereal C] (room : Shape → ℕ) : (s : Shape) → s.Value → CerealM C s.Value
  | scalar s, v => s.grain v
  | string I, v => grainStringOf (room char) I v
  | vector I elem, v => grainVector (room elem) I (elem.grain room) elem.default v
  | done, v => pure v
  | field first rest, v => do
    let a ← first.grain room v.1
    let b ← rest.grain room v.2
    return (a, b)

/-! ## The format -/

/-- Every length in the value can be written. -/
def Fits : (s : Shape) → s.Value → Prop
  | scalar _, _ => True
  | string I, v => List.length v < I.bound
  | vector I elem, v => List.length v < I.bound ∧ ∀ a ∈ v, elem.Fits a
  | done, _ => True
  | field first rest, v => first.Fits v.1 ∧ rest.Fits v.2

/-- There is room for every vector and string in the value. -/
def Within (room : Shape → ℕ) : (s : Shape) → s.Value → Prop
  | scalar _, _ => True
  | string _, v => List.length v ≤ room char
  | vector _ elem, v => List.length v ≤ room elem ∧ ∀ a ∈ v, elem.Within room a
  | done, _ => True
  | field first rest, v => first.Within room v.1 ∧ rest.Within room v.2

/-- There is room for every length that can be written. -/
def Roomy (room : Shape → ℕ) : Shape → Prop
  | scalar _ => True
  | string I => I.bound ≤ room char + 1
  | vector I elem => I.bound ≤ room elem + 1 ∧ elem.Roomy room
  | done => True
  | field first rest => first.Roomy room ∧ rest.Roomy room

/-- The bytes of a value. -/
def encode : (s : Shape) → s.Value → Bytes
  | scalar s, v => s.encode v
  | string I, v => bigEndian I.size (List.length v) ++ v
  | vector I elem, v => bigEndian I.size (List.length v) ++ List.flatMap elem.encode v
  | done, _ => []
  | field first rest, v => first.encode v.1 ++ rest.encode v.2

/-- What writing leaves of a value: of a vector or a string so many elements as its length is
written as. -/
def kept : (s : Shape) → s.Value → s.Value
  | scalar _, v => v
  | string I, v => List.take (List.length v % I.bound) v
  | vector I elem, v => List.map elem.kept (List.take (List.length v % I.bound) v)
  | done, v => v
  | field first rest, v => (first.kept v.1, rest.kept v.2)

/-! ### Vectors -/

section Vector

variable {T : Type} {room : ℕ} {I : LengthType} {default : T}

/-- What `resize` leaves when it cuts off. -/
lemma resize_of_le {n : ℕ} {val : List T} (h : n ≤ val.length) :
    resize n default val = val.take n := by
  rw [resize, Nat.sub_eq_zero_of_le h, List.replicate_zero, List.append_nil]

/-- To what has the length already, `resize` does nothing. -/
lemma resize_of_eq {n : ℕ} {val : List T} (h : val.length = n) : resize n default val = val := by
  rw [resize_of_le h.ge, ← h, List.take_length]

/-- What is in a vector that was resized was in it before, or is new. -/
lemma mem_resize {n : ℕ} {val : List T} {a : T} (h : a ∈ resize n default val) :
    a ∈ val ∨ a = default := by
  rcases List.mem_append.mp h with hold | hnew
  · exact Or.inl (List.mem_of_mem_take hold)
  · exact Or.inr (List.eq_of_mem_replicate hnew)

section Resizing

variable {C : Type}

/-- What is done to a vector behind its length: it grows if there is room. -/
lemma maybeResize_eq (room num : ℕ) (val : List T) :
    (maybeResize room num default val : CerealM C (List T)) =
      if val.length < num ∧ room < num then throw .lengthError
      else pure (resize num default val) := by
  unfold maybeResize
  by_cases hn : val.length = num
  · rw [if_neg (not_not_intro hn), if_neg (fun h => Nat.ne_of_lt h.1 hn), resize_of_eq hn]
  · rw [if_pos hn]

/-- A vector that there is room for grows just to what there is room for. -/
lemma maybeResize_of_length_le (num : ℕ) {val : List T} (h : val.length ≤ room) :
    (maybeResize room num default val : CerealM C (List T)) =
      if room < num then throw .lengthError else pure (resize num default val) := by
  have hgrows : (val.length < num ∧ room < num) ↔ room < num :=
    and_iff_right_of_imp fun hnum => Nat.lt_of_le_of_lt h hnum
  rw [maybeResize_eq, if_congr hgrows rfl rfl]

end Resizing

/-- A length is not below what a type can hold of it. -/
lemma mod_bound_le (I : LengthType) (n : ℕ) : n % I.bound ≤ n := Nat.mod_le n I.bound

variable (room default) in
/-- Writing a vector writes so many elements as its length is written as. -/
lemma prints_grainVector {grain : T → CerealM Cerealiser T} {g : T → T} {encode : T → Bytes}
    (h : ∀ a, Prints (grain a) (g a) (encode a)) (val : List T) :
    Prints (grainVector room I grain default val) ((val.take (val.length % I.bound)).map g)
      (bigEndian I.size val.length ++ (val.take (val.length % I.bound)).flatMap encode) := by
  have hle := mod_bound_le I val.length
  unfold grainVector
  apply (LengthType.prints_grainLength I val.length).bind
  rw [maybeResize_eq, if_neg (fun h => Nat.not_lt.mpr hle h.1), pure_bind, resize_of_le hle]
  exact Prints.mapM_map fun a _ => h a

/-- Reading the elements of a vector, of which there is a number. -/
lemma parses_elements {grain : T → CerealM Decerealiser T} {within valid : T → Prop}
    {encode : T → Bytes}
    (h : ∀ a, within a → Parses (grain a) fun c input => valid c ∧ input = encode c)
    (hdefault : within default) {old : List T} (hold : old.length ≤ room ∧ ∀ a ∈ old, within a)
    (num : ℕ) :
    Parses (maybeResize room num default old >>= fun val => val.mapM grain) fun val input =>
      (val.length = num ∧ num ≤ room ∧ ∀ a ∈ val, valid a) ∧ input = val.flatMap encode := by
  rw [maybeResize_of_length_le num hold.1]
  by_cases hnum : room < num
  · rw [if_pos hnum]
    intro d val d'
    constructor
    · intro hok
      cases hok
    · rintro ⟨input, ⟨⟨-, hle, -⟩, -⟩, -⟩
      exact absurd hnum (Nat.not_lt.mpr hle)
  · have hwithin : ∀ a ∈ resize num default old, within a := by
      intro a ha
      rcases mem_resize ha with hmem | rfl
      · exact hold.2 a hmem
      · exact hdefault
    rw [if_neg hnum, pure_bind]
    refine (Parses.mapM_encode fun a ha => h a (hwithin a ha)).congr fun val input => ?_
    rw [length_resize]
    constructor
    · rintro ⟨hlen, hval, rfl⟩
      exact ⟨⟨hlen, Nat.not_lt.mp hnum, hval⟩, rfl⟩
    · rintro ⟨⟨hlen, -, hval⟩, rfl⟩
      exact ⟨hlen, hval, rfl⟩

/-- Reading a vector: a length that there is room for, and as many elements. -/
lemma parses_grainVector {grain : T → CerealM Decerealiser T} {within valid : T → Prop}
    {encode : T → Bytes}
    (h : ∀ a, within a → Parses (grain a) fun c input => valid c ∧ input = encode c)
    (hdefault : within default) {old : List T} (hold : old.length ≤ room ∧ ∀ a ∈ old, within a) :
    Parses (grainVector room I grain default old) fun val input =>
      (val.length < I.bound ∧ val.length ≤ room ∧ ∀ a ∈ val, valid a) ∧
        input = bigEndian I.size val.length ++ val.flatMap encode := by
  unfold grainVector
  refine ((LengthType.parses_grainLength I old.length).bind fun num =>
    parses_elements h hdefault hold num).congr fun val input => ?_
  constructor
  · rintro ⟨num, _, _, ⟨hnum, rfl⟩, ⟨⟨rfl, hle, hval⟩, rfl⟩, rfl⟩
    exact ⟨⟨hnum, hle, hval⟩, rfl⟩
  · rintro ⟨⟨hlen, hle, hval⟩, rfl⟩
    exact ⟨val.length, _, _, ⟨hlen, rfl⟩, ⟨⟨rfl, hle, hval⟩, rfl⟩, rfl⟩

/-- Reading a vector fails as reading its length and its elements does, or for want of room when
there is not room for every length. -/
lemma failsWith_grainVector {P : Fault → Prop} {grain : T → CerealM Decerealiser T}
    (h : ∀ a, FailsWith (grain a) P) (hread : P .badRead)
    (hroom : ¬I.bound ≤ room + 1 → P .lengthError) (old : List T) :
    FailsWith (grainVector room I grain default old) P := by
  intro d e he
  rcases StateT.bind_eq_error_iff.mp he with hlength | ⟨num, d₁, hlength, hrest⟩
  · rw [LengthType.failsWith_grainLength I _ d e hlength]
    exact hread
  · obtain ⟨_, ⟨hnum, -⟩, -⟩ := (LengthType.parses_grainLength I _ d num d₁).mp hlength
    rw [maybeResize_eq] at hrest
    split at hrest
    · rename_i hgrows
      obtain rfl : Fault.lengthError = e := Except.error.inj hrest
      exact hroom (by omega)
    · rw [pure_bind] at hrest
      exact FailsWith.mapM h _ d₁ e hrest

/-- Of a vector everything is kept if its length can be written and everything of its elements
is. -/
lemma map_take_eq_self_iff {g : T → T} (I : LengthType) (val : List T) :
    (val.take (val.length % I.bound)).map g = val ↔
      val.length < I.bound ∧ ∀ a ∈ val, g a = a := by
  have hpos : 0 < I.bound := Nat.pow_pos (by decide)
  constructor
  · intro h
    have hlen := congrArg List.length h
    rw [List.length_map, List.length_take, Nat.min_eq_left (mod_bound_le I _)] at hlen
    have hlt : val.length < I.bound := hlen ▸ Nat.mod_lt _ hpos
    rw [hlen, List.take_length] at h
    refine ⟨hlt, fun a ha => ?_⟩
    exact List.map_eq_map_iff.mp (h.trans (List.map_id val).symm) a ha
  · rintro ⟨hlt, hkept⟩
    rw [Nat.mod_eq_of_lt hlt, List.take_length]
    exact (List.map_congr_left hkept).trans (List.map_id val)

end Vector

/-! ### All shapes -/

/-- **Writing** a value of any shape writes the encoding of what it leaves of the value. -/
theorem prints_grain (room : Shape → ℕ) (s : Shape) (v : s.Value) :
    Prints (s.grain room v : CerealM Cerealiser s.Value) (s.kept v) (s.encode (s.kept v)) := by
  induction s with
  | scalar s => exact s.codes.prints v
  | string I =>
    have hchars := prints_grainVector (I := I) (room char) 0 (g := id) prints_grainUInt8 v
    have hlen : (List.take (List.length v % I.bound) v).length = List.length v % I.bound := by
      rw [List.length_take, Nat.min_eq_left (mod_bound_le I _)]
    rw [List.map_id, List.flatMap_singleton'] at hchars
    rw [encode, kept, hlen, LengthType.bound, bigEndian_mod]
    exact hchars
  | vector I elem ih =>
    have helems := prints_grainVector (I := I) (room elem) elem.default ih v
    have hlen : (List.map elem.kept (List.take (List.length v % I.bound) v)).length =
        List.length v % I.bound := by
      rw [List.length_map, List.length_take, Nat.min_eq_left (mod_bound_le I _)]
    rw [encode, kept, hlen, LengthType.bound, bigEndian_mod, List.flatMap_map]
    exact helems
  | done => exact Prints.pure v
  | field first rest ihFirst ihRest =>
    exact (ihFirst v.1).bind ((ihRest v.2).bind_pure fun b => (first.kept v.1, b))

/-- There is room for a value-initialised variable. -/
lemma within_default (room : Shape → ℕ) (s : Shape) : s.Within room s.default := by
  induction s with
  | scalar s => trivial
  | string I => exact Nat.zero_le _
  | vector I elem ih => exact ⟨Nat.zero_le _, fun a ha => nomatch ha⟩
  | done => trivial
  | field first rest ihFirst ihRest => exact ⟨ihFirst, ihRest⟩

/-- **Reading** a value of any shape accepts the encodings of the values that can be written and
that there is room for. -/
theorem parses_grain {room : Shape → ℕ} (s : Shape) {old : s.Value} (hold : s.Within room old) :
    Parses (s.grain room old : CerealM Decerealiser s.Value) fun v input =>
      (s.Fits v ∧ s.Within room v) ∧ input = s.encode v := by
  induction s with
  | scalar s =>
    exact (s.codes.parses old).congr fun v input => by simp [Fits, Within, encode]
  | string I =>
    have hchar : ∀ a : UInt8, True → Parses (grainChar a : CerealM Decerealiser UInt8)
        fun c input => True ∧ input = [c] := fun a _ =>
      (parses_grainUInt8 a).congr fun c input => by rw [true_and]
    have holdRoom : List.length old ≤ room char ∧ ∀ a ∈ (old : Str), True :=
      ⟨hold, fun _ _ => trivial⟩
    refine (parses_grainVector (I := I) hchar trivial holdRoom).congr fun v input => ?_
    rw [List.flatMap_singleton']
    simp [Fits, Within, encode]
  | vector I elem ih =>
    have helem : ∀ a, elem.Within room a →
        Parses (elem.grain room a : CerealM Decerealiser elem.Value) fun c input =>
          (elem.Fits c ∧ elem.Within room c) ∧ input = elem.encode c := fun a ha => ih ha
    refine (parses_grainVector (I := I) helem (elem.within_default room) hold).congr
      fun v input => and_congr_left fun _ => ?_
    constructor
    · rintro ⟨hlen, hle, hval⟩
      exact ⟨⟨hlen, fun a ha => (hval a ha).1⟩, hle, fun a ha => (hval a ha).2⟩
    · rintro ⟨⟨hlen, hfits⟩, hle, hwithin⟩
      exact ⟨hlen, hle, fun a ha => ⟨hfits a ha, hwithin a ha⟩⟩
  | done =>
    exact (Parses.pure old).congr fun v input => by simp [Fits, Within, encode]
  | field first rest ihFirst ihRest =>
    refine ((ihFirst hold.1).bind fun a => (ihRest hold.2).map fun b => (a, b)).congr
      fun v input => ?_
    constructor
    · rintro ⟨a, _, _, ⟨⟨ha, ha'⟩, rfl⟩, ⟨b, ⟨⟨hb, hb'⟩, rfl⟩, rfl⟩, rfl⟩
      exact ⟨⟨⟨ha, hb⟩, ha', hb'⟩, rfl⟩
    · rintro ⟨⟨⟨ha, hb⟩, ha', hb'⟩, rfl⟩
      exact ⟨v.1, _, _, ⟨⟨ha, ha'⟩, rfl⟩, ⟨v.2, ⟨⟨hb, hb'⟩, rfl⟩, rfl⟩, rfl⟩

/-- How reading a value of a shape can fail: where there is no memory, and for want of room if there
is not room for every length. -/
def Failure (room : Shape → ℕ) (s : Shape) (e : Fault) : Prop :=
  e = .badRead ∨ e = .lengthError ∧ ¬s.Roomy room

/-- Reading a value of any shape fails in these ways only. -/
lemma failsWith_grain (room : Shape → ℕ) (s : Shape) (old : s.Value) :
    FailsWith (s.grain room old : CerealM Decerealiser s.Value) (s.Failure room) := by
  induction s with
  | scalar s => exact (s.codes.failsWith old).mono fun e he => Or.inl he
  | string I =>
    have hchar : ∀ a : UInt8, FailsWith (grainChar a : CerealM Decerealiser UInt8)
        ((string I).Failure room) := fun a => (failsWith_grainUInt8 a).mono fun e he => Or.inl he
    exact failsWith_grainVector hchar (Or.inl rfl) (fun h => Or.inr ⟨rfl, h⟩) old
  | vector I elem ih =>
    have helem : ∀ a, FailsWith (elem.grain room a : CerealM Decerealiser elem.Value)
        ((vector I elem).Failure room) := fun a =>
      (ih a).mono fun e he => he.imp_right fun h => ⟨h.1, fun hroomy => h.2 hroomy.2⟩
    exact failsWith_grainVector helem (Or.inl rfl)
      (fun h => Or.inr ⟨rfl, fun hroomy => h hroomy.1⟩) old
  | done => exact .pure old
  | field first rest ihFirst ihRest =>
    have hfirst := (ihFirst old.1).mono (Q := (field first rest).Failure room)
      fun e he => he.imp_right fun h => ⟨h.1, fun hroomy => h.2 hroomy.1⟩
    have hrest := (ihRest old.2).mono (Q := (field first rest).Failure room)
      fun e he => he.imp_right fun h => ⟨h.1, fun hroomy => h.2 hroomy.2⟩
    exact hfirst.bind fun a => hrest.bind fun b => .pure (a, b)

/-- Everything is kept of just the values all of whose lengths can be written. -/
lemma kept_eq_iff (s : Shape) (v : s.Value) : s.kept v = v ↔ s.Fits v := by
  induction s with
  | scalar s => simp [kept, Fits]
  | string I =>
    have hchars := map_take_eq_self_iff (g := id) I (v : Str)
    rw [List.map_id] at hchars
    rw [kept, Fits, hchars]
    simp
  | vector I elem ih =>
    rw [kept, Fits, map_take_eq_self_iff]
    simp only [ih]
  | done => simp [kept, Fits]
  | field first rest ihFirst ihRest =>
    rw [kept, Fits, Prod.ext_iff, ihFirst, ihRest]

/-- What is kept can be written. -/
lemma fits_kept (s : Shape) (v : s.Value) : s.Fits (s.kept v) := by
  induction s with
  | scalar s => trivial
  | string I =>
    have hpos : 0 < I.bound := Nat.pow_pos (by decide)
    rw [kept, Fits, List.length_take]
    exact Nat.lt_of_le_of_lt (Nat.min_le_left _ _) (Nat.mod_lt _ hpos)
  | vector I elem ih =>
    have hpos : 0 < I.bound := Nat.pow_pos (by decide)
    rw [kept, Fits, List.length_map, List.length_take]
    refine ⟨Nat.lt_of_le_of_lt (Nat.min_le_left _ _) (Nat.mod_lt _ hpos), fun a ha => ?_⟩
    obtain ⟨b, -, rfl⟩ := List.mem_map.mp ha
    exact ih b
  | done => trivial
  | field first rest ihFirst ihRest => exact ⟨ihFirst v.1, ihRest v.2⟩

/-! ## Reading and writing -/

/-- The computation writes the bytes behind whatever has been written before, and returns the
value. -/
def WritesAs {α : Type} (m : CerealM Cerealiser α) (v : α) (bytes : Bytes) : Prop :=
  ∀ c : Cerealiser, m c = .ok (v, { c with bytes := c.bytes ++ bytes })

/-- A writer returns one value and writes one output. -/
lemma writesAs_iff {α : Type} {m : CerealM Cerealiser α} {v w : α} {output bytes : Bytes}
    (h : Prints m w output) : WritesAs m v bytes ↔ w = v ∧ bytes = output := by
  constructor
  · intro hv
    obtain ⟨hvalue, hsink⟩ := Prod.mk.inj (Except.ok.inj ((hv {}).symm.trans (h {})))
    have hbytes : [] ++ bytes = [] ++ output := congrArg Cerealiser.bytes hsink
    exact ⟨hvalue.symm, by simpa using hbytes⟩
  · rintro ⟨rfl, rfl⟩
    exact h

/-- Just the values all of whose lengths can be written are left as they are, and are written as
their encoding. -/
lemma writesAs_grain_iff (room : Shape → ℕ) (s : Shape) (v : s.Value) (bytes : Bytes) :
    WritesAs (s.grain room v) v bytes ↔ s.Fits v ∧ bytes = s.encode v := by
  rw [writesAs_iff (s.prints_grain room v), kept_eq_iff]
  refine and_congr_right fun hfits => ?_
  rw [(s.kept_eq_iff v).mpr hfits]

/-- **Reading is the inverse of writing**, for every shape.  Whatever the variable held before, a
read succeeds with a value if and only if there is room for it and the bytes that have not been read
begin with the bytes that writing the value writes; it then goes on behind them.  Otherwise it reads
where there is no memory, or a length is read that there is no room for. -/
theorem grain_eq_ok_iff_writes {room : Shape → ℕ} (s : Shape) {old : s.Value}
    (hold : s.Within room old) (d : Decerealiser) :
    (∀ v d', (s.grain room old : CerealM Decerealiser s.Value) d = .ok (v, d') ↔
      s.Within room v ∧ ∃ bytes, WritesAs (s.grain room v) v bytes ∧
        bytes <+: (d.bytes ++ d.beyond).drop d.pos ∧
        d' = { d with pos := d.pos + bytes.length }) ∧
    ∀ e, (s.grain room old : CerealM Decerealiser s.Value) d = .error e →
      e = .badRead ∨ e = .lengthError ∧ ¬s.Roomy room := by
  refine ⟨fun v d' => ?_, s.failsWith_grain room old d⟩
  rw [s.parses_grain hold d v d']
  constructor
  · rintro ⟨bytes, ⟨⟨hfits, hwithin⟩, hbytes⟩, hprefix, rfl⟩
    exact ⟨hwithin, bytes, (s.writesAs_grain_iff room v bytes).mpr ⟨hfits, hbytes⟩, hprefix, rfl⟩
  · rintro ⟨hwithin, bytes, hbytes, hprefix, rfl⟩
    obtain ⟨hfits, hencode⟩ := (s.writesAs_grain_iff room v bytes).mp hbytes
    exact ⟨bytes, ⟨⟨hfits, hwithin⟩, hencode⟩, hprefix, rfl⟩

/-- Structs of a string each, in a vector whose length has one byte. -/
def strings : Shape := vector .uint8 (field (string .uint16) done)

/-- One of them is read from the bytes that it is written as; where there is room for three
characters, a string of four ends the process. -/
theorem grain_eq_ok_iff_writes_strings :
    (∃ bytes, WritesAs (strings.grain (fun _ => 3) [([97], ())]) [([97], ())] bytes ∧
      bytes <+: [1, 0, 1, 97, 5]) ∧ ¬strings.Roomy fun _ => 3 := by
  have hold : strings.Within (fun _ => 3) [] := ⟨by decide, fun a ha => nomatch ha⟩
  have hread : (strings.grain (fun _ => 3) [] : CerealM Decerealiser strings.Value)
      (Decerealiser.new [1, 0, 1, 97, 5] []) =
        .ok ([([97], ())], { Decerealiser.new [1, 0, 1, 97, 5] [] with pos := 4 }) := rfl
  have hfail : (strings.grain (fun _ => 3) [] : CerealM Decerealiser strings.Value)
      (Decerealiser.new [1, 0, 4, 97, 98, 99, 100] []) = .error .lengthError := rfl
  obtain ⟨-, bytes, hbytes, hprefix, -⟩ := ((grain_eq_ok_iff_writes strings hold _).1 _ _).mp hread
  have hroom := (grain_eq_ok_iff_writes strings hold _).2 _ hfail
  exact ⟨⟨bytes, hbytes, hprefix⟩, (hroom.resolve_left nofun).2⟩

/-- **Values that are too long.**  Writing does not fail for them: it cuts off the elements that
their length cannot say, of the value itself as well, and writes the same bytes as for what is left.
Nothing is cut off if and only if every length can be written; and so nothing is the second time. -/
theorem grain_keeps (room : Shape → ℕ) (s : Shape) (v : s.Value) :
    (∃ bytes, WritesAs (s.grain room v) (s.kept v) bytes ∧
      WritesAs (s.grain room (s.kept v)) (s.kept v) bytes) ∧
      s.kept (s.kept v) = s.kept v ∧ (s.kept v = v ↔ s.Fits v) := by
  have hagain : s.kept (s.kept v) = s.kept v := (s.kept_eq_iff _).mpr (s.fits_kept v)
  refine ⟨⟨s.encode (s.kept v), s.prints_grain room v, ?_⟩, hagain, s.kept_eq_iff v⟩
  exact (s.writesAs_grain_iff room _ _).mpr ⟨s.fits_kept v, rfl⟩

/-! ## The topics of a SUBSCRIBE -/

section Topic

variable {C : Type} [Cereal C]

/-- The strings of the messages have lengths of the default type. -/
lemma grainString_eq_grainStringOf {room : ℕ} (hroom : 65535 ≤ room) (val : Str) :
    (grainString val : CerealM C Str) = grainStringOf room .uint16 val := by
  unfold grainString grainStringOf grainVector grainLength
  simp only [bind_assoc, pure_bind]
  refine bind_congr fun num => ?_
  have hnum : num.toNat ≤ room := (Nat.le_of_lt_succ num.toNat_lt).trans hroom
  have hgrows : ¬(val.length < num.toNat ∧ room < num.toNat) := fun h => Nat.not_lt.mpr hnum h.2
  rw [maybeResize_eq, if_neg hgrows, pure_bind]
  by_cases hlen : val.length = num.toNat
  · rw [if_neg (not_not_intro hlen), resize_of_eq hlen]
  · rw [if_pos hlen]

/-- The shape of `MqttSubscribe::Topic`. -/
def topic : Shape := field (string .uint16) (field (scalar .uint8) done)

/-- **A topic of a SUBSCRIBE is cerealised as its shape says.** -/
theorem cerealise_topic {room : Shape → ℕ} (hroom : 65535 ≤ room char) (t : MqttSubscribe.Topic) :
    (t.cerealise : CerealM C MqttSubscribe.Topic) = do
      let v ← topic.grain room (t.topic, t.qos, ())
      return { topic := v.1, qos := v.2.1 } := by
  unfold MqttSubscribe.Topic.cerealise topic
  simp only [grain, Scalar.grain, bind_assoc, pure_bind, grainString_eq_grainStringOf hroom]

end Topic

/-! ## Arrays without a length -/

/-- Something is written for a value of the type. -/
def takesBytes : Shape → Bool
  | done => false
  | field first rest => first.takesBytes || rest.takesBytes
  | _ => true

/-- What a value takes, every value of its type takes. -/
lemma length_encode_pos_iff (s : Shape) (v : s.Value) :
    0 < (s.encode v).length ↔ s.takesBytes = true := by
  have hlength : ∀ (I : LengthType) (n : ℕ) (rest : Bytes),
      0 < (bigEndian I.size n ++ rest).length := by
    intro I n rest
    rw [List.length_append, length_bigEndian]
    cases I <;> exact Nat.add_pos_left (by decide) _
  induction s with
  | scalar s => exact iff_of_true (s.length_encode_pos v) rfl
  | string I => exact iff_of_true (hlength I _ _) rfl
  | vector I elem ih => exact iff_of_true (hlength I _ _) rfl
  | done => simp [encode, takesBytes]
  | field first rest ihFirst ihRest =>
    rw [encode, takesBytes, List.length_append, Bool.or_eq_true, Nat.add_pos_iff_pos_or_pos]
    exact or_congr (ihFirst v.1) (ihRest v.2)

/-- Writing an array writes its elements one after the other. -/
lemma writesAs_grainRawArray_iff (room : Shape → ℕ) (s : Shape) (vs : List s.Value)
    (bytes : Bytes) :
    WritesAs (grainRawArray (s.grain room) s.default vs) vs bytes ↔
      (∀ v ∈ vs, s.Fits v) ∧ bytes = vs.flatMap s.encode := by
  have hprints : Prints
      (grainRawArray (s.grain room) s.default vs : CerealM Cerealiser (List s.Value))
      (vs.map s.kept) (vs.flatMap fun v => s.encode (s.kept v)) :=
    Prints.mapM_map fun v _ => s.prints_grain room v
  have hkept : vs.map s.kept = vs ↔ ∀ v ∈ vs, s.Fits v := by
    simp only [← kept_eq_iff]
    constructor
    · intro h v hv
      exact List.map_eq_map_iff.mp (h.trans (List.map_id vs).symm) v hv
    · intro h
      exact (List.map_congr_left h).trans (List.map_id vs)
  rw [writesAs_iff hprints, hkept]
  refine and_congr_right fun hfits => ?_
  have hencode : (vs.flatMap fun v => s.encode (s.kept v)) = vs.flatMap s.encode :=
    List.flatMap_congr fun v hv => by rw [(s.kept_eq_iff v).mpr (hfits v hv)]
  rw [hencode]

/-- **Reading an array without a length**, whose elements may have any shape for which something is
written: the bytes are accepted if and only if there is room for the elements that are read and
writing the array of them writes the bytes.  Otherwise the process reads behind their end, or reads
a length that there is no room for. -/
theorem grainRawArray_eq_ok_iff (room : Shape → ℕ) {s : Shape} (htakes : s.takesBytes = true)
    {bytes : Bytes} (hsize : bytes.length < 2 ^ 31) (old : List s.Value) :
    (∀ vs d', grainRawArray (s.grain room) s.default old (Decerealiser.new bytes []) =
        .ok (vs, d') ↔
      (∀ v ∈ vs, s.Within room v) ∧
        WritesAs (grainRawArray (s.grain room) s.default vs) vs bytes ∧
        d' = { Decerealiser.new bytes [] with pos := bytes.length }) ∧
    ∀ e, grainRawArray (s.grain room) s.default old (Decerealiser.new bytes []) = .error e →
      e = .badRead ∨ e = .lengthError ∧ ¬s.Roomy room := by
  have hpos : (Decerealiser.new bytes []).pos ≤ (Decerealiser.new bytes []).bytes.length :=
    Nat.zero_le _
  have hparses := s.parses_grain (s.within_default room)
  have hencode : ∀ v, 0 < (s.encode v).length := fun v => (s.length_encode_pos_iff v).mpr htakes
  refine ⟨fun vs d' => ?_, fun e he => ?_⟩
  · rw [writesAs_grainRawArray_iff]
    constructor
    · intro hok
      obtain ⟨ts, hts, hbytes⟩ := exists_of_grainRawArray_eq_ok hparses hpos hsize rfl hok
      rw [grainRawArray_eq_ok hparses hencode hts hpos hsize hbytes old] at hok
      obtain ⟨rfl, rfl⟩ := Prod.mk.inj (Except.ok.inj hok)
      exact ⟨fun t ht => (hts t ht).2, ⟨fun t ht => (hts t ht).1, hbytes⟩, rfl⟩
    · rintro ⟨hwithin, ⟨hfits, hbytes⟩, rfl⟩
      have hvs : ∀ v ∈ vs, s.Fits v ∧ s.Within room v := fun v hv => ⟨hfits v hv, hwithin v hv⟩
      exact grainRawArray_eq_ok hparses hencode hvs hpos hsize hbytes old
  · exact grainRawArray_failsWith hparses hencode (s.failsWith_grain room s.default) hpos hsize
      rfl he

/-- A topic "a" and its quality of service are read from the bytes that they are written as. -/
theorem grainRawArray_eq_ok_iff_one_topic :
    WritesAs (grainRawArray (topic.grain fun _ => 65535) topic.default [([97], 2, ())])
      [([97], 2, ())] [0, 1, 97, 2] := by
  have hsize : List.length ([0, 1, 97, 2] : Bytes) < 2 ^ 31 := by decide
  have hiff := (grainRawArray_eq_ok_iff (fun _ => 65535) (s := topic) rfl hsize []).1
  have hread := (hiff [([97], 2, ())] { Decerealiser.new [0, 1, 97, 2] [] with pos := 4 }).mp rfl
  exact hread.2.1

end Shape

end MqttCpp
