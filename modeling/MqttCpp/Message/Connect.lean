import MqttCpp.Message.Header

/-!
# The format of CONNECT

A CONNECT has a second byte of flags, behind whole bytes.  The reader starts a new byte for it; the
writer does not: the last flag of the fixed header is still in the partial byte when the first flag
of the message is written.  So the flags are written one place too far, the last of them is not
written at all, and what is read back is the message itself only if the flags are such that the
shift does not change them.
-/

namespace MqttCpp

open Cereal
open MqttFixedHeader (bitsAt grainBits_write grainBits_read_pos grainBits_read_eight afterFlags
  ofUInt32_toUInt32_bool ofUInt32_toUInt32_uInt8)

namespace MqttConnect

/-! ## The byte of flags -/

/-- The flags of a message. -/
def flags (m : MqttConnect) : Bool × Bool × Bool × UInt8 × Bool × Bool × Bool :=
  (m.hasUserName, m.hasPassword, m.hasWillRetain, m.willQos, m.hasWill, m.hasClear, m.reserved)

/-- A message with other flags. -/
def withFlags (m : MqttConnect) (fs : Bool × Bool × Bool × UInt8 × Bool × Bool × Bool) :
    MqttConnect :=
  { m with
    hasUserName := fs.1, hasPassword := fs.2.1, hasWillRetain := fs.2.2.1,
    willQos := fs.2.2.2.1, hasWill := fs.2.2.2.2.1, hasClear := fs.2.2.2.2.2.1,
    reserved := fs.2.2.2.2.2.2 }

@[simp] lemma flags_withFlags (m : MqttConnect)
    (fs : Bool × Bool × Bool × UInt8 × Bool × Bool × Bool) : (m.withFlags fs).flags = fs := rfl

@[simp] lemma withFlags_flags (m : MqttConnect) : m.withFlags m.flags = m := rfl

/-- The byte that is full when the flags are written, on top of one bit that is there before. -/
def flagByte (m : MqttConnect) (partialByte : UInt8) : UInt8 :=
  partialByte ||| UInt8.ofNat ((BitField.toUInt32 m.hasUserName).toNat <<< 6) |||
    UInt8.ofNat ((BitField.toUInt32 m.hasPassword).toNat <<< 5) |||
    UInt8.ofNat ((BitField.toUInt32 m.hasWillRetain).toNat <<< 4) |||
    UInt8.ofNat ((BitField.toUInt32 m.willQos).toNat <<< 2) |||
    UInt8.ofNat ((BitField.toUInt32 m.hasWill).toNat <<< 1) |||
    UInt8.ofNat (BitField.toUInt32 m.hasClear).toNat

/-- Writing the flags when there is one bit in the partial byte: the byte is full before the last
flag, which stays in the next one. -/
lemma cerealiseFlags_write (m : MqttConnect) (bytes : Bytes) (partialByte : UInt8) :
    ∃ next, (m.cerealiseFlags : CerealM Cerealiser MqttConnect)
      { bytes := bytes, currentByte := partialByte, bitIndex := 1 } =
        .ok (m, { bytes := bytes ++ [m.flagByte partialByte], currentByte := next,
                  bitIndex := 2 }) := by
  refine ⟨(0 : UInt8) ||| UInt8.ofNat ((BitField.toUInt32 m.hasClear).toNat <<< 7) |||
    UInt8.ofNat ((BitField.toUInt32 m.reserved).toNat <<< 6), ?_⟩
  rw [cerealiseFlags,
    StateT.bind_of_eq_ok (grainBits_write m.hasUserName 1 _),
    Cerealiser.writeBits_of_lt 1 rfl (by decide),
    StateT.bind_of_eq_ok (grainBits_write m.hasPassword 1 _),
    Cerealiser.writeBits_of_lt 2 rfl (by decide),
    StateT.bind_of_eq_ok (grainBits_write m.hasWillRetain 1 _),
    Cerealiser.writeBits_of_lt 3 rfl (by decide),
    StateT.bind_of_eq_ok (grainBits_write m.willQos 2 _),
    Cerealiser.writeBits_of_lt 4 rfl (by decide),
    StateT.bind_of_eq_ok (grainBits_write m.hasWill 1 _),
    Cerealiser.writeBits_of_lt 6 rfl (by decide),
    StateT.bind_of_eq_ok (grainBits_write m.hasClear 1 _),
    Cerealiser.writeBits_of_eq 7 rfl (by decide),
    StateT.bind_of_eq_ok (grainBits_write m.reserved 1 _),
    Cerealiser.writeBits_of_lt 1 rfl (by decide)]
  simp only [ofUInt32_toUInt32_bool, ofUInt32_toUInt32_uInt8]
  rfl

/-- The flags that are read from a byte. -/
def readFlags (b : UInt8) : Bool × Bool × Bool × UInt8 × Bool × Bool × Bool :=
  (BitField.ofUInt32 (bitsAt b 0 1),
    BitField.ofUInt32 (bitsAt b 1 1),
    BitField.ofUInt32 (bitsAt b 2 1),
    BitField.ofUInt32 (bitsAt b 3 2),
    BitField.ofUInt32 (bitsAt b 5 1),
    BitField.ofUInt32 (bitsAt b 6 1),
    BitField.ofUInt32 (bitsAt b 7 1))

/-- Reading the flags behind whole bytes: they are those of the next byte. -/
lemma cerealiseFlags_read (m : MqttConnect) {d : Decerealiser} (hbit : d.bitIndex = 8) {b : UInt8}
    {rest : Bytes} (hunread : Cursor.unread d = b :: rest) :
    ∃ d', m.cerealiseFlags d = .ok (m.withFlags (readFlags b), d') ∧ Cursor.unread d' = rest ∧
      d'.pos = d.pos + 1 := by
  have hnext : (d.bytes ++ d.beyond)[d.pos]? = some b := by
    rw [getElem?_pos_eq, hunread]
    rfl
  refine ⟨afterFlags b d, ?_, ?_, rfl⟩
  · rw [cerealiseFlags,
      StateT.bind_of_eq_ok (grainBits_read_eight m.hasUserName hbit (by decide) (by decide) hnext),
      StateT.bind_of_eq_ok (grainBits_read_pos m.hasPassword 1 rfl (by decide) (by decide)),
      StateT.bind_of_eq_ok (grainBits_read_pos m.hasWillRetain 2 rfl (by decide) (by decide)),
      StateT.bind_of_eq_ok (grainBits_read_pos m.willQos 3 rfl (by decide) (by decide)),
      StateT.bind_of_eq_ok (grainBits_read_pos m.hasWill 5 rfl (by decide) (by decide)),
      StateT.bind_of_eq_ok (grainBits_read_pos m.hasClear 6 rfl (by decide) (by decide)),
      StateT.bind_of_eq_ok (grainBits_read_pos m.reserved 7 rfl (by decide) (by decide))]
    rfl
  · change Cursor.unread (Cursor.advance 1 d) = rest
    rw [Cursor.unread_advance, hunread]
    rfl

/-! ## What is behind the flags -/

/-- A string that is there only with its flag, as it is written. -/
def optString (present : Bool) (s : Str) : Bytes := if present then encodeString s else []

/-- What is behind the flags, as it is written. -/
def restBytes (m : MqttConnect) : Bytes :=
  be16 m.keepAlive ++ (encodeString m.clientId ++ (optString m.hasWill m.willTopic ++
    (optString m.hasWill m.willMessage ++ (optString m.hasUserName m.userName ++
      optString m.hasPassword m.password))))

/-- A string that is there only with its flag, as it is read where `old` stands. -/
def OptFormat (present : Bool) (old s : Str) (input : Bytes) : Prop :=
  if present then s.length < 65536 ∧ input = encodeString s else s = old ∧ input = []

/-- Writing a string that is there only with its flag. -/
lemma prints_grainIf (present : Bool) {s : Str} (h : s.length < 65536) :
    Prints (grainIf present s : CerealM Cerealiser Str) s (optString present s) := by
  unfold grainIf optString
  split
  · exact prints_grainString h
  · exact Prints.pure s

/-- Reading a string that is there only with its flag. -/
lemma parses_grainIf (present : Bool) (old : Str) :
    Parses (grainIf present old : CerealM Decerealiser Str) (OptFormat present old) := by
  unfold grainIf OptFormat
  split
  · exact parses_grainString old
  · exact Parses.pure old

/-- The lengths of the strings of a message fit into 16 bits, and a string without its flag is
empty. -/
structure StringsFit (m : MqttConnect) : Prop where
  protoName_lt : m.protoName.length < 65536
  clientId_lt : m.clientId.length < 65536
  willTopic_lt : m.willTopic.length < 65536
  willMessage_lt : m.willMessage.length < 65536
  userName_lt : m.userName.length < 65536
  password_lt : m.password.length < 65536
  willTopic_eq : m.hasWill = false → m.willTopic = []
  willMessage_eq : m.hasWill = false → m.willMessage = []
  userName_eq : m.hasUserName = false → m.userName = []
  password_eq : m.hasPassword = false → m.password = []

/-- Writing what is behind the flags. -/
lemma prints_cerealiseRest {m : MqttConnect} (h : m.StringsFit) :
    Prints (m.cerealiseRest : CerealM Cerealiser MqttConnect) m m.restBytes := by
  unfold cerealiseRest restBytes
  refine (prints_grainUInt16 m.keepAlive).bind ((prints_grainString h.clientId_lt).bind ?_)
  apply (prints_grainIf m.hasWill h.willTopic_lt).bind
  apply (prints_grainIf m.hasWill h.willMessage_lt).bind
  apply (prints_grainIf m.hasUserName h.userName_lt).bind
  exact (prints_grainIf m.hasPassword h.password_lt).bind_pure
    fun password => { m with password := password }

/-- What is behind the flags, as it is read into the message `old`. -/
def RestFormat (old m : MqttConnect) (input : Bytes) : Prop :=
  m = { old with
        keepAlive := m.keepAlive, clientId := m.clientId, willTopic := m.willTopic,
        willMessage := m.willMessage, userName := m.userName, password := m.password } ∧
    m.clientId.length < 65536 ∧ ∃ i₁ i₂ i₃ i₄,
      OptFormat old.hasWill old.willTopic m.willTopic i₁ ∧
      OptFormat old.hasWill old.willMessage m.willMessage i₂ ∧
      OptFormat old.hasUserName old.userName m.userName i₃ ∧
      OptFormat old.hasPassword old.password m.password i₄ ∧
      input = be16 m.keepAlive ++ (encodeString m.clientId ++ (i₁ ++ (i₂ ++ (i₃ ++ i₄))))

/-- Reading what is behind the flags. -/
lemma parses_cerealiseRest (old : MqttConnect) :
    Parses (old.cerealiseRest : CerealM Decerealiser MqttConnect) (RestFormat old) := by
  unfold cerealiseRest
  refine ((parses_grainUInt16 old.keepAlive).bind fun keepAlive =>
    (parses_grainString old.clientId).bind fun clientId =>
    (parses_grainIf old.hasWill old.willTopic).bind fun willTopic =>
    (parses_grainIf old.hasWill old.willMessage).bind fun willMessage =>
    (parses_grainIf old.hasUserName old.userName).bind fun userName =>
    (parses_grainIf old.hasPassword old.password).map fun password => ({ old with
      keepAlive, clientId, willTopic, willMessage, userName, password } : MqttConnect)).congr
        fun m input => ?_
  constructor
  · rintro ⟨keepAlive, _, _, rfl, ⟨clientId, _, _, ⟨hclient, rfl⟩, ⟨willTopic, i₁, _, h₁,
      ⟨willMessage, i₂, _, h₂, ⟨userName, i₃, i₄, h₃, ⟨password, h₄, rfl⟩, rfl⟩, rfl⟩, rfl⟩,
      rfl⟩, rfl⟩
    exact ⟨rfl, hclient, i₁, i₂, i₃, i₄, h₁, h₂, h₃, h₄, rfl⟩
  · rintro ⟨hm, hclient, i₁, i₂, i₃, i₄, h₁, h₂, h₃, h₄, rfl⟩
    exact ⟨m.keepAlive, _, _, rfl, ⟨m.clientId, _, _, ⟨hclient, rfl⟩, ⟨m.willTopic, i₁, _, h₁,
      ⟨m.willMessage, i₂, _, h₂, ⟨m.userName, i₃, i₄, h₃, ⟨m.password, h₄, hm⟩, rfl⟩, rfl⟩, rfl⟩,
      rfl⟩, rfl⟩

/-! ## The round trip -/

/-- **The bytes of a CONNECT**: the header, the protocol, the byte of flags, the rest. -/
theorem encode_cerealise {m : MqttConnect} (h : m.StringsFit) :
    Cerealiser.encode m.cerealise =
      .ok (m.header.headerBytes ++ (encodeString m.protoName ++ (m.protoVersion ::
        m.flagByte m.header.partialByte :: m.restBytes))) := by
  obtain ⟨next, hflags⟩ := m.cerealiseFlags_write
    (m.header.headerBytes ++ encodeString m.protoName ++ [m.protoVersion]) m.header.partialByte
  rw [Cerealiser.encode, cerealise, StateT.bind_of_eq_ok m.header.cerealise_write,
    StateT.bind_of_eq_ok (prints_grainString h.protoName_lt _),
    StateT.bind_of_eq_ok (prints_grainUInt8 m.protoVersion _)]
  change ((m.cerealiseFlags : CerealM Cerealiser MqttConnect) >>= cerealiseRest)
    { bytes := m.header.headerBytes ++ encodeString m.protoName ++ [m.protoVersion]
      currentByte := m.header.partialByte
      bitIndex := 1 } >>= _ = _
  rw [StateT.bind_of_eq_ok hflags, prints_cerealiseRest h]
  change Except.ok (_ ++ [m.protoVersion] ++ [m.flagByte m.header.partialByte] ++ m.restBytes) = _
  simp

/-- Reading a CONNECT up to its flags: what is behind them is read into a message that has all that
is before. -/
lemma cerealise_read (old : MqttConnect) {header : MqttFixedHeader} (hqos : header.qos ≤ 3)
    {protoName : Str} (hproto : protoName.length < 65536) (protoVersion b : UInt8)
    (rest beyond : Bytes) :
    let bytes := header.headerBytes ++ (encodeString protoName ++ (protoVersion :: b :: rest))
    ∃ d, old.cerealise (Decerealiser.new bytes beyond) =
        (withFlags { old with header, protoName, protoVersion } (readFlags b)).cerealiseRest d ∧
      Cursor.unread d = rest ++ beyond ∧ d.pos + rest.length = bytes.length := by
  intro bytes
  have hunread : Cursor.unread (Decerealiser.new bytes beyond) = header.headerBytes ++
      (encodeString protoName ++ (protoVersion :: b :: (rest ++ beyond))) := by
    change bytes ++ beyond = _
    simp [bytes]
  obtain ⟨d₁, hheader, hrest₁, hpos₁, -, -, hbit₁⟩ :=
    old.header.cerealise_read_headerBytes hqos rfl hunread
  have hname : encodeString protoName <+: Cursor.unread d₁ := by
    rw [hrest₁]
    exact List.prefix_append _ _
  let d₂ := Cursor.advance (encodeString protoName).length d₁
  have hrest₂ : Cursor.unread d₂ = protoVersion :: b :: (rest ++ beyond) := by
    rw [Cursor.unread_advance, hrest₁, List.drop_left]
  have hversion : [protoVersion] <+: Cursor.unread d₂ := by
    rw [hrest₂]
    exact ⟨b :: (rest ++ beyond), rfl⟩
  let d₃ := Cursor.advance [protoVersion].length d₂
  have hrest₃ : Cursor.unread d₃ = b :: (rest ++ beyond) := by
    rw [Cursor.unread_advance, hrest₂]
    rfl
  have hbit₃ : d₃.bitIndex = 8 := hbit₁
  obtain ⟨d, hflags, hrest, hpos⟩ :=
    cerealiseFlags_read { old with header, protoName, protoVersion } hbit₃ hrest₃
  refine ⟨d, ?_, hrest, ?_⟩
  · rw [cerealise, StateT.bind_of_eq_ok hheader,
      StateT.bind_of_eq_ok ((parses_grainString old.protoName).eq_ok ⟨hproto, rfl⟩ hname),
      StateT.bind_of_eq_ok ((parses_grainUInt8 old.protoVersion).eq_ok rfl hversion),
      StateT.bind_of_eq_ok hflags]
  · change d.pos = d₁.pos + (encodeString protoName).length + 1 + 1 at hpos
    rw [hpos, hpos₁, Decerealiser.pos_new]
    simp only [bytes, List.length_append, List.length_cons]
    omega

/-- What the message format demands of a message that is to be written. -/
structure Encodable (m : MqttConnect) : Prop where
  qos_le : m.header.qos ≤ 3
  remaining_le : m.header.remaining ≤ 268435455
  willQos_le : m.willQos ≤ 3
  stringsFit : m.StringsFit

/-- Reading what was written for a message gives it back and consumes every byte. -/
def RoundTrips (m : MqttConnect) (h : MqttFixedHeader) (uninit : MqttConnect) (beyond : Bytes) :
    Prop :=
  ∃ bytes, Cerealiser.encode m.cerealise = .ok bytes ∧
    ∃ d : Decerealiser, (new h uninit).cerealise (Decerealiser.new bytes beyond) = .ok (m, d) ∧
      d.pos = bytes.length

/-- All flags are as the retain flag of the header is. -/
def FlagsAgree (m : MqttConnect) : Prop :=
  let retain := m.header.retain
  m.flags = (retain, retain, retain, if retain then 3 else 0, retain, retain, retain)

instance (m : MqttConnect) : Decidable m.FlagsAgree :=
  inferInstanceAs (Decidable (m.flags = _))

set_option synthInstance.maxSize 512 in
/-- The flags that are read are those that were written only when all of them agree. -/
lemma readFlags_flagByte_iff {m : MqttConnect} (hqos : m.willQos ≤ 3) :
    readFlags (m.flagByte m.header.partialByte) = m.flags ↔ m.FlagsAgree := by
  have hall : ∀ r u p wr w c res : Bool, ∀ q < 4,
      readFlags ((0 : UInt8) ||| UInt8.ofNat ((BitField.toUInt32 r).toNat <<< 7) |||
        UInt8.ofNat ((BitField.toUInt32 u).toNat <<< 6) |||
        UInt8.ofNat ((BitField.toUInt32 p).toNat <<< 5) |||
        UInt8.ofNat ((BitField.toUInt32 wr).toNat <<< 4) |||
        UInt8.ofNat ((BitField.toUInt32 (UInt8.ofNat q)).toNat <<< 2) |||
        UInt8.ofNat ((BitField.toUInt32 w).toNat <<< 1) |||
        UInt8.ofNat (BitField.toUInt32 c).toNat) = (u, p, wr, UInt8.ofNat q, w, c, res) ↔
      (u, p, wr, UInt8.ofNat q, w, c, res) = (r, r, r, if r then 3 else 0, r, r, r) := by
    decide +kernel
  have hlt : m.willQos.toNat < 4 := Nat.lt_succ_of_le (UInt8.le_iff_toNat_le.mp hqos)
  have hflags := hall m.header.retain m.hasUserName m.hasPassword m.hasWillRetain m.hasWill
    m.hasClear m.reserved m.willQos.toNat hlt
  rwa [UInt8.ofNat_toNat] at hflags

/-- What was written behind the flags is read back, where they are the flags that were written. -/
lemma restFormat_restBytes {m : MqttConnect} (h : m.StringsFit) (uninit : MqttConnect)
    (hdr : MqttFixedHeader) :
    RestFormat (withFlags { new hdr uninit with
      header := m.header, protoName := m.protoName, protoVersion := m.protoVersion } m.flags)
      m m.restBytes := by
  have hopt : ∀ (present : Bool) (s : Str), s.length < 65536 → (present = false → s = []) →
      OptFormat present [] s (optString present s) := by
    intro present s hlt hnil
    unfold OptFormat optString
    cases present
    · exact ⟨hnil rfl, rfl⟩
    · exact ⟨hlt, rfl⟩
  exact ⟨rfl, h.clientId_lt, _, _, _, _, hopt _ _ h.willTopic_lt h.willTopic_eq,
    hopt _ _ h.willMessage_lt h.willMessage_eq, hopt _ _ h.userName_lt h.userName_eq,
    hopt _ _ h.password_lt h.password_eq, rfl⟩

/-- If a message comes back, its flags were read from the byte that was written for them. -/
lemma flagsAgree_of_roundTrips {m : MqttConnect} (hm : m.Encodable) {h : MqttFixedHeader}
    {uninit : MqttConnect} {beyond : Bytes} (hback : m.RoundTrips h uninit beyond) :
    m.FlagsAgree := by
  rw [← readFlags_flagByte_iff hm.willQos_le]
  obtain ⟨bytes, hbytes, d', hread', -⟩ := hback
  rw [encode_cerealise hm.stringsFit] at hbytes
  obtain rfl := Except.ok.inj hbytes
  obtain ⟨d, hread, -⟩ := (new h uninit).cerealise_read hm.qos_le hm.stringsFit.protoName_lt
    m.protoVersion (m.flagByte m.header.partialByte) m.restBytes beyond
  rw [hread] at hread'
  obtain ⟨input, ⟨hm', -⟩, -⟩ := (parses_cerealiseRest _ d m d').mp hread'
  have hflags := congrArg flags hm'
  exact hflags.symm

/-- If the flags agree, they are read as they are, and so is what is behind them. -/
lemma roundTrips_of_flagsAgree {m : MqttConnect} (hm : m.Encodable) (hflags : m.FlagsAgree)
    (h : MqttFixedHeader) (uninit : MqttConnect) (beyond : Bytes) :
    m.RoundTrips h uninit beyond := by
  obtain ⟨d, hread, hrest, hpos⟩ := (new h uninit).cerealise_read hm.qos_le
    hm.stringsFit.protoName_lt m.protoVersion (m.flagByte m.header.partialByte) m.restBytes beyond
  have hprefix : m.restBytes <+: Cursor.unread d := by
    rw [hrest]
    exact List.prefix_append _ _
  rw [(readFlags_flagByte_iff hm.willQos_le).mpr hflags] at hread
  refine ⟨_, encode_cerealise hm.stringsFit, Cursor.advance m.restBytes.length d, ?_, hpos⟩
  exact hread.trans
    ((parses_cerealiseRest _).eq_ok (restFormat_restBytes hm.stringsFit uninit h) hprefix)

/-- **The round trip of CONNECT.**  A message comes back exactly when all its flags are as the
retain flag of its header is, and the will qos consists of two such bits. -/
theorem roundTrips_iff {m : MqttConnect} (hm : m.Encodable) (h : MqttFixedHeader)
    (uninit : MqttConnect) (beyond : Bytes) : m.RoundTrips h uninit beyond ↔ m.FlagsAgree :=
  ⟨flagsAgree_of_roundTrips hm, fun hflags => roundTrips_of_flagsAgree hm hflags h uninit beyond⟩

/-- A CONNECT of the client "abc" without any flags. -/
def plainConnect : MqttConnect where
  header := { type := .connect, remaining := 17 }
  protoName := [77, 81, 73, 115, 100, 112]
  protoVersion := 3
  keepAlive := 10
  clientId := [97, 98, 99]

/-- It can be encoded. -/
lemma encodable_plainConnect : plainConnect.Encodable where
  qos_le := by decide
  remaining_le := by decide
  willQos_le := by decide
  stringsFit := by constructor <;> decide

/-- It comes back. -/
theorem roundTrips_plainConnect : plainConnect.RoundTrips {} plainConnect [] :=
  (roundTrips_iff encodable_plainConnect {} plainConnect []).mpr (by decide)

/-- The same with a clean session. -/
def cleanConnect : MqttConnect := { plainConnect with hasClear := true }

/-- Its flag is written where the reader expects the reserved bit. -/
theorem not_roundTrips_cleanConnect :
    cleanConnect.Encodable ∧
      Cerealiser.encode cleanConnect.cerealise = .ok
        [0x10, 17, 0, 6, 77, 81, 73, 115, 100, 112, 3, 1, 0, 10, 0, 3, 97, 98, 99] ∧
      readFlags 1 = (false, false, false, 0, false, false, true) ∧
      ∀ h uninit beyond, ¬cleanConnect.RoundTrips h uninit beyond := by
  have hclean : cleanConnect.Encodable := by
    refine ⟨by decide, by decide, by decide, ?_⟩
    constructor <;> decide
  refine ⟨hclean, by decide +kernel, by decide +kernel, fun h uninit beyond hback => ?_⟩
  have hflags : ¬cleanConnect.FlagsAgree := by decide
  exact hflags (flagsAgree_of_roundTrips hclean hback)

end MqttConnect

end MqttCpp
