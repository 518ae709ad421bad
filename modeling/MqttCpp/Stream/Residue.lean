import MqttCpp.Stream.Framing

/-!
# The stream never jams

What `handleMessages` keeps is the beginning of a message, and no message is longer than its second
byte can say.  So in a buffer that is larger than that there is always room for the next read; a
buffer that was full would make `doRead` read zero bytes over and over.
-/

namespace MqttCpp

namespace MqttStream

/-- No message is announced to be longer than two bytes and what a byte can say. -/
lemma announcedLength_le (bytes : Bytes) : announcedLength bytes ≤ 257 := by
  have hsize : MqttFixedHeader.SIZE = 2 := rfl
  unfold announcedLength
  split
  · rename_i remaining _
    have hbyte := remaining.toNat_lt
    omega
  · decide

/-- Reading chunks keeps the size of the buffer. -/
lemma length_buffer_nextAll (s : MqttStream) (chunks : List Bytes) :
    (s.nextAll chunks).buffer.length = s.buffer.length := by
  induction chunks generalizing s with
  | nil => rfl
  | cons chunk chunks ih => exact (ih (s.next chunk)).trans (s.length_buffer_next chunk)

/-- The bytes that are kept are the beginning of one message. -/
def KeepsIncomplete (s : MqttStream) : Prop :=
  s.kept.length < messageFramer.frameLength s.kept

/-- A read leaves the beginning of one message. -/
lemma keepsIncomplete_next {s : MqttStream} {chunk : Bytes}
    (h : chunk.length ≤ s.readableDataSize) : (s.next chunk).KeepsIncomplete := by
  have hkept : (s.next chunk).kept = (messageFramer.cut (s.kept ++ chunk)).2 :=
    congrArg Prod.snd (messages_next_eq_cut h)
  rw [KeepsIncomplete, hkept]
  exact messageFramer.cut_residue_lt _

/-- So do reads one after the other. -/
lemma keepsIncomplete_nextAll {s : MqttStream} (hs : s.KeepsIncomplete) {chunks : List Bytes}
    (h : s.Fits chunks) : (s.nextAll chunks).KeepsIncomplete := by
  induction chunks generalizing s with
  | nil => exact hs
  | cons chunk chunks ih => exact ih (keepsIncomplete_next h.1) h.2

/-- Less is kept than the longest message. -/
lemma KeepsIncomplete.length_le {s : MqttStream} (h : s.KeepsIncomplete) : s.kept.length ≤ 256 := by
  have hlt : s.kept.length < announcedLength s.kept := h
  have hle := announcedLength_le s.kept
  omega

/-- What holds between a `handleMessages` and the next read. -/
structure Ready (size : ℕ) (s : MqttStream) : Prop where
  length_buffer : s.buffer.length = size
  /-- The bytes that are kept do not begin with a message. -/
  not_isFrame : ∀ f, f <+: s.kept → ¬messageFramer.IsFrame f
  length_kept_le : s.kept.length ≤ 256
  /-- `_begin` is inside the buffer. -/
  begin_lt : s.begin < s.buffer.length
  /-- There is room to read. -/
  one_le_readableDataSize : 1 ≤ s.readableDataSize

/-- A stream that keeps the beginning of one message is ready if its buffer is large enough. -/
lemma KeepsIncomplete.ready {size : ℕ} (hsize : 257 ≤ size) {s : MqttStream}
    (hbuffer : s.buffer.length = size) (h : s.KeepsIncomplete) : s.Ready size := by
  have hlen := h.length_le
  have hkept := s.length_kept
  have hroom : s.readableDataSize = s.buffer.length - s.begin := rfl
  refine ⟨hbuffer, ?_, hlen, ?_, ?_⟩
  · exact fun f hf => Framer.not_isFrame_of_prefix h hf
  · omega
  · omega

/-- Chunks that a new buffer has room for all together fit. -/
lemma fits_new_of_length_le {size : ℕ} {chunks : List Bytes} (h : chunks.flatten.length ≤ size) :
    (new size).Fits chunks := by
  have hbuffer : (new size).buffer.length = size := List.length_replicate
  have hkept : (new size).kept.length = 0 := length_kept (new size)
  apply fits_of_length_le
  rwa [hkept, hbuffer, Nat.zero_add]

/-- **The stream never jams.**  However the bytes arrive, after every `handleMessages` what is kept
is the rest of the input behind the messages that were passed on, less than one message, and there
is room for the next read. -/
theorem readAll_ready {m : Type → Type} [Monad m] [LawfulMonad m] (newMessage : Span → m Unit)
    {size : ℕ} (hsize : 257 ≤ size) {chunks : List Bytes} (hfits : (new size).Fits chunks) :
    ∃ s : MqttStream, s.Ready size ∧
      (((new size).allMessages chunks).map Span.bytes, s.kept) =
        messageFramer.cut chunks.flatten ∧
      readAll newMessage (new size) chunks = (do
        forM ((new size).allMessages chunks) newMessage
        return s) := by
  have hbuffer : ((new size).nextAll chunks).buffer.length = size :=
    (length_buffer_nextAll _ chunks).trans List.length_replicate
  have hkept : (new size).KeepsIncomplete := messageFramer.frameLength_pos _
  exact ⟨(new size).nextAll chunks, (keepsIncomplete_nextAll hkept hfits).ready hsize hbuffer,
    allMessages_eq_cut hfits, readAll_eq newMessage _ chunks⟩

/-- Two reads into a buffer of the smallest size, the second of which breaks off in a message. -/
theorem readAll_ready_two_reads :
    ∃ s : MqttStream, s.Ready 257 ∧
      (((new 257).allMessages [[0xc0], [0, 0x30, 255, 1]]).map Span.bytes, s.kept) =
        messageFramer.cut [0xc0, 0, 0x30, 255, 1] ∧
      readAll record (new 257) [[0xc0], [0, 0x30, 255, 1]] = (do
        forM ((new 257).allMessages [[0xc0], [0, 0x30, 255, 1]]) record
        return s) :=
  readAll_ready record (Nat.le_refl 257) (fits_new_of_length_le (by decide))

end MqttStream

end MqttCpp
