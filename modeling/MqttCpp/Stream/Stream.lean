import MqttCpp.Library.Framing
import MqttCpp.Message.Message

/-!
# The stream of a connection

`src/stream.hpp`.  A stream owns a buffer.  What the socket has read is written behind the bytes
that were kept from before, and `handleMessages` passes every complete message on and moves the
rest to the front of the buffer.

The caller of `handleMessages` passes messages to a server; here the function they are passed to
is a parameter, in any monad.
-/

namespace MqttCpp

/-- `MqttStream`. -/
structure MqttStream where
  /-- `_buffer`. -/
  buffer : Bytes
  /-- `_begin`, as the number of bytes before it. -/
  begin : ℕ
  begin_le : begin ≤ buffer.length

namespace MqttStream

/-- The constructor of `MqttStream`. -/
def new (size : ℕ) : MqttStream where
  buffer := List.replicate size 0
  begin := 0
  begin_le := Nat.zero_le _

/-- `MqttStream::readableDataSize`. -/
def readableDataSize (s : MqttStream) : ℕ := s.buffer.length - s.begin

/-- In a new stream there is room for as many bytes as it has. -/
lemma readableDataSize_new (size : ℕ) : (new size).readableDataSize = size :=
  List.length_replicate

/-- The bytes that were kept from before: those in front of `_begin`. -/
def kept (s : MqttStream) : Bytes := s.buffer.take s.begin

/-- `MqttStream::remainingLength`, which assumes small messages. -/
def remainingLength (bytes : Span) (h : MqttFixedHeader.SIZE ≤ bytes.size) : ℕ :=
  (bytes.index 1 h).toNat

/-- `MqttStream::totalLength`. -/
def totalLength (bytes : Span) : ℕ :=
  if h : MqttFixedHeader.SIZE ≤ bytes.size then
    remainingLength bytes h + MqttFixedHeader.SIZE
  else MqttFixedHeader.SIZE

/-- The assertion `totLen > 0` never fails. -/
lemma totalLength_pos (bytes : Span) : 0 < totalLength bytes := by
  unfold totalLength
  split
  · exact Nat.lt_of_lt_of_le Nat.two_pos (Nat.le_add_left _ _)
  · exact Nat.two_pos

variable {m : Type → Type} [Monad m]

/-- The loop of `handleMessages`; it returns the slice that is left. -/
def dispatchLoop (newMessage : Span → m Unit) (slice : Span) : m Span :=
  if h : totalLength slice ≤ slice.size then do
    newMessage (slice.first (totalLength slice) h)
    dispatchLoop newMessage (slice.sub (totalLength slice))
  else return slice
termination_by slice.size
decreasing_by
  have hpos := totalLength_pos slice
  rw [Span.size_sub]
  omega

/-- The buffer up to the bytes that have just been read. -/
def slice (s : MqttStream) (numBytes : ℕ) (h : numBytes ≤ s.readableDataSize) : Span where
  mem := s.buffer
  size := s.begin + numBytes
  size_le := by
    have hbegin := s.begin_le
    have hsize : s.readableDataSize = s.buffer.length - s.begin := rfl
    omega

/-- Shift everything to the beginning: copy the bytes of a slice there. -/
def shift (s : MqttStream) (slice : Span) : MqttStream where
  buffer := slice.bytes ++ s.buffer.drop slice.size
  begin := slice.size
  begin_le := by
    rw [List.length_append, Span.length_bytes]
    exact Nat.le_add_right _ _

/-- `MqttStream::handleMessages`. -/
def handleMessages (newMessage : Span → m Unit) (s : MqttStream) (numBytes : ℕ)
    (h : numBytes ≤ s.readableDataSize) : m MqttStream := do
  let slice ← dispatchLoop newMessage (s.slice numBytes h)
  return s.shift slice

/-- The socket writes what it has read to `readableData()`. -/
def write (s : MqttStream) (chunk : Bytes) : MqttStream where
  buffer := s.kept ++ chunk ++ s.buffer.drop (s.begin + chunk.length)
  begin := s.begin
  begin_le := by
    have hbegin := s.begin_le
    have hkept : s.kept.length = s.begin := List.length_take_of_le hbegin
    rw [List.length_append, List.length_append, hkept]
    omega

/-- Writing what was read keeps the size of the buffer. -/
lemma readableDataSize_write (s : MqttStream) (chunk : Bytes)
    (h : chunk.length ≤ s.readableDataSize) :
    (s.write chunk).readableDataSize = s.readableDataSize := by
  have hbegin := s.begin_le
  have hsize : s.readableDataSize = s.buffer.length - s.begin := rfl
  have hkept : s.kept.length = s.begin := List.length_take_of_le hbegin
  have hlength : (s.write chunk).buffer.length =
      (s.kept ++ chunk ++ s.buffer.drop (s.begin + chunk.length)).length := rfl
  rw [List.length_append, List.length_append, List.length_drop, hkept] at hlength
  have hwrite : (s.write chunk).readableDataSize =
      (s.write chunk).buffer.length - s.begin := rfl
  omega

/-- A chunk that there is room for is within the bytes that can be read after it is written. -/
lemma length_le_readableDataSize_write {s : MqttStream} {chunk : Bytes}
    (h : chunk.length ≤ s.readableDataSize) :
    chunk.length ≤ (s.write chunk).readableDataSize := by
  rwa [s.readableDataSize_write chunk h]

/-- One read: `numBytes` bytes arrive, and `handleMessages` is called for them.  A chunk that is
larger than the room for it is not read. -/
def read (newMessage : Span → m Unit) (s : MqttStream) (chunk : Bytes) : m MqttStream :=
  if h : chunk.length ≤ s.readableDataSize then
    (s.write chunk).handleMessages newMessage chunk.length
      (length_le_readableDataSize_write h)
  else return s

/-- One read after another. -/
def readAll (newMessage : Span → m Unit) (s : MqttStream) (chunks : List Bytes) : m MqttStream :=
  chunks.foldlM (read newMessage) s

end MqttStream

end MqttCpp
