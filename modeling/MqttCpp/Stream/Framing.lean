import MqttCpp.Stream.Stream

/-!
# The stream frames its input

`MqttStream` cuts its input into messages as the framer `messageFramer` does in one pass: neither
the chunks in which the input arrives nor the size of the buffer matter.  The invariant behind it
is that the bytes in front of `_begin` are a residue, which holds no complete message.
-/

namespace MqttCpp

namespace MqttStream

/-! ## The framer -/

/-- The length of the first message as `totalLength` announces it, on a byte string. -/
def announcedLength (bytes : Bytes) : ℕ :=
  match bytes with
  | _ :: remaining :: _ => remaining.toNat + MqttFixedHeader.SIZE
  | _ => MqttFixedHeader.SIZE

/-- The framer of the stream: the second byte announces the length of a message. -/
def messageFramer : Framer UInt8 where
  frameLength := announcedLength
  frameLength_pos bytes := by
    unfold announcedLength
    split
    · exact Nat.lt_of_lt_of_le Nat.two_pos (Nat.le_add_left _ _)
    · exact Nat.two_pos
  frameLength_append xs ys h := by
    match xs, h with
    | [], h => exact absurd h (by decide)
    | [_], h => exact absurd h (by simp [announcedLength, MqttFixedHeader.SIZE])
    | _ :: _ :: _, _ => rfl

/-- `totalLength` of a slice is the announced length of its bytes. -/
lemma totalLength_eq (slice : Span) :
    totalLength slice = messageFramer.frameLength slice.bytes := by
  have hlen := slice.length_bytes
  change _ = announcedLength slice.bytes
  by_cases h : MqttFixedHeader.SIZE ≤ slice.size
  · have hbyte := slice.getElem?_bytes (Nat.lt_of_lt_of_le Nat.one_lt_two h)
    rw [totalLength, dif_pos h, remainingLength]
    match hbytes : slice.bytes, hbyte with
    | [], hbyte => cases hbyte
    | [_], hbyte => cases hbyte
    | _ :: remaining :: _, hbyte =>
      have hremaining : remaining = slice.index 1 h := Option.some.inj hbyte
      rw [announcedLength, hremaining]
  · rw [totalLength, dif_neg h]
    match hbytes : slice.bytes, hlen with
    | [], _ => rfl
    | [_], _ => rfl
    | _ :: _ :: rest, hlen =>
      rw [List.length_cons, List.length_cons] at hlen
      have hsize : MqttFixedHeader.SIZE = 2 := rfl
      omega

/-! ## The loop -/

/-- The messages that the loop of `handleMessages` passes on, and the slice it leaves. -/
def dispatch (slice : Span) : List Span × Span :=
  if h : totalLength slice ≤ slice.size then
    (slice.first (totalLength slice) h :: (dispatch (slice.sub (totalLength slice))).1,
      (dispatch (slice.sub (totalLength slice))).2)
  else ([], slice)
termination_by slice.size
decreasing_by all_goals
  have hpos := totalLength_pos slice
  rw [Span.size_sub]
  omega

/-- The loop passes the messages on one after the other. -/
theorem dispatchLoop_eq {m : Type → Type} [Monad m] [LawfulMonad m] (newMessage : Span → m Unit)
    (slice : Span) :
    dispatchLoop newMessage slice =
      (do
        forM (dispatch slice).1 newMessage
        return (dispatch slice).2) := by
  fun_induction dispatch slice with
  | case1 slice h ih =>
    rw [dispatchLoop, dif_pos h, ih, List.forM_cons, bind_assoc]
  | case2 slice h =>
    rw [dispatchLoop, dif_neg h, List.forM_nil, pure_bind]

/-- The loop cuts the bytes of the slice as the framer does. -/
theorem dispatch_bytes (slice : Span) :
    ((dispatch slice).1.map Span.bytes, (dispatch slice).2.bytes) =
      messageFramer.cut slice.bytes := by
  fun_induction dispatch slice with
  | case1 slice h ih =>
    have hle : messageFramer.frameLength slice.bytes ≤ slice.bytes.length := by
      rwa [← totalLength_eq, Span.length_bytes]
    rw [Framer.cut_of_le hle, ← totalLength_eq, ← Span.bytes_sub, ← ih, List.map_cons,
      Span.bytes_first]
  | case2 slice h =>
    have hlt : slice.bytes.length < messageFramer.frameLength slice.bytes := by
      rw [← totalLength_eq, Span.length_bytes]
      omega
    rw [Framer.cut_of_lt hlt, List.map_nil]

/-- What the framer cuts off has two bytes and as many more as the second announces. -/
lemma exists_take_announcedLength {bytes : Bytes} (h : announcedLength bytes ≤ bytes.length) :
    ∃ b₀ b₁ rest, bytes.take (announcedLength bytes) = b₀ :: b₁ :: rest ∧
      rest.length = b₁.toNat := by
  match bytes, h with
  | [], h => exact absurd h (by decide)
  | [_], h => exact absurd h (by simp [announcedLength, MqttFixedHeader.SIZE])
  | b₀ :: b₁ :: rest, h =>
    have hrest : b₁.toNat ≤ rest.length := Nat.le_of_add_le_add_right h
    exact ⟨b₀, b₁, rest.take b₁.toNat, rfl, List.length_take_of_le hrest⟩

/-- So do the messages that the loop passes on. -/
lemma exists_bytes_of_mem_dispatch {slice msg : Span} (h : msg ∈ (dispatch slice).1) :
    ∃ b₀ b₁ rest, msg.bytes = b₀ :: b₁ :: rest ∧ rest.length = b₁.toNat := by
  fun_induction dispatch slice with
  | case1 slice hle ih =>
    rcases List.mem_cons.mp h with rfl | hmem
    · have hframe : announcedLength slice.bytes ≤ slice.bytes.length := by
        change messageFramer.frameLength slice.bytes ≤ _
        rwa [slice.length_bytes, ← totalLength_eq]
      rw [Span.bytes_first, totalLength_eq]
      exact exists_take_announcedLength hframe
    · exact ih hmem
  | case2 slice hle => cases h

/-- Two bytes and as many more as the second announces are a frame. -/
lemma isFrame_of_eq {f : Bytes} {b₀ b₁ : UInt8} {rest : Bytes} (hf : f = b₀ :: b₁ :: rest)
    (hrest : rest.length = b₁.toNat) : messageFramer.IsFrame f := by
  apply Framer.isFrame_of_frameLength_eq
  rw [hf]
  change b₁.toNat + 2 = _
  rw [← hrest]
  rfl

/-! ## One read -/

/-- The messages that reading a chunk passes on. -/
def messages (s : MqttStream) (chunk : Bytes) : List Span :=
  if h : chunk.length ≤ s.readableDataSize then
    (dispatch ((s.write chunk).slice chunk.length
      (length_le_readableDataSize_write h))).1
  else []

/-- The stream after reading a chunk. -/
def next (s : MqttStream) (chunk : Bytes) : MqttStream :=
  if h : chunk.length ≤ s.readableDataSize then
    (s.write chunk).shift (dispatch ((s.write chunk).slice chunk.length
      (length_le_readableDataSize_write h))).2
  else s

/-- The slice that is left when the messages of a chunk have been passed on. -/
def residue (s : MqttStream) (chunk : Bytes) : Span :=
  if h : chunk.length ≤ s.readableDataSize then
    (dispatch ((s.write chunk).slice chunk.length
      (length_le_readableDataSize_write h))).2
  else ⟨[], 0, Nat.zero_le _⟩

/-- The next stream is the one to which the chunk was written, with the residue shifted. -/
lemma next_eq_shift {s : MqttStream} {chunk : Bytes} (h : chunk.length ≤ s.readableDataSize) :
    s.next chunk = (s.write chunk).shift (s.residue chunk) := by
  rw [next, dif_pos h, residue, dif_pos h]

/-- Reading a chunk passes its messages on and leaves the next stream. -/
theorem read_eq {m : Type → Type} [Monad m] [LawfulMonad m] (newMessage : Span → m Unit)
    (s : MqttStream) (chunk : Bytes) :
    read newMessage s chunk =
      (do
        forM (s.messages chunk) newMessage
        return s.next chunk) := by
  by_cases h : chunk.length ≤ s.readableDataSize
  · rw [read, dif_pos h, handleMessages, dispatchLoop_eq, messages, dif_pos h, next, dif_pos h,
      bind_assoc]
    simp only [pure_bind]
  · rw [read, dif_neg h, messages, dif_neg h, next, dif_neg h, List.forM_nil, pure_bind]

/-- The slice that is handled after a read: the bytes kept from before and the chunk. -/
lemma bytes_slice_write (s : MqttStream) (chunk : Bytes)
    (h : chunk.length ≤ (s.write chunk).readableDataSize) :
    ((s.write chunk).slice chunk.length h).bytes = s.kept ++ chunk := by
  have hkept : s.kept.length = s.begin := List.length_take_of_le s.begin_le
  change (s.kept ++ chunk ++ s.buffer.drop (s.begin + chunk.length)).take
    (s.begin + chunk.length) = _
  have hlen : (s.kept ++ chunk).length = s.begin + chunk.length := by
    rw [List.length_append, hkept]
  rw [← hlen, List.take_left]

/-- After shifting, the bytes of the slice are kept. -/
lemma kept_shift (s : MqttStream) (slice : Span) : (s.shift slice).kept = slice.bytes := by
  change (slice.bytes ++ s.buffer.drop slice.size).take slice.size = _
  rw [← slice.length_bytes, List.take_left]

/-- **One read.**  A chunk that fits is cut, together with what was kept, as the framer does. -/
theorem messages_next_eq_cut {s : MqttStream} {chunk : Bytes}
    (h : chunk.length ≤ s.readableDataSize) :
    ((s.messages chunk).map Span.bytes, (s.next chunk).kept) =
      messageFramer.cut (s.kept ++ chunk) := by
  rw [messages, dif_pos h, next, dif_pos h, kept_shift, dispatch_bytes, bytes_slice_write]

/-- Messages stand in the memory one behind the other, from an offset on. -/
def LaidOut (memory : Bytes) : ℕ → List Span → Prop
  | _, [] => True
  | offset, msg :: msgs =>
    msg.bytes = (memory.drop offset).take msg.size ∧ LaidOut memory (offset + msg.size) msgs

/-- The messages that the loop passes on stand one behind the other where the slice is. -/
lemma laidOut_dispatch {memory : Bytes} {slice : Span} {offset : ℕ}
    (h : slice.mem = memory.drop offset) : LaidOut memory offset (dispatch slice).1 := by
  fun_induction dispatch slice generalizing offset with
  | case1 slice hle ih =>
    refine ⟨?_, ih ?_⟩
    · change slice.mem.take _ = _
      rw [h]
    · change slice.mem.drop _ = _
      rw [h, List.drop_drop]
      rfl
  | case2 slice hle => trivial

/-- The messages that reading a chunk passes on stand at the beginning of the buffer. -/
lemma laidOut_messages (s : MqttStream) (chunk : Bytes) :
    LaidOut (s.write chunk).buffer 0 (s.messages chunk) := by
  unfold messages
  split
  · exact laidOut_dispatch rfl
  · trivial

/-! ## One read after another -/

/-- Every chunk fits into the room there is when it is read. -/
def Fits : MqttStream → List Bytes → Prop
  | _, [] => True
  | s, chunk :: chunks => chunk.length ≤ s.readableDataSize ∧ Fits (s.next chunk) chunks

instance decidableFits : (s : MqttStream) → (chunks : List Bytes) → Decidable (s.Fits chunks)
  | _, [] => isTrue trivial
  | s, chunk :: chunks =>
    let _ := decidableFits (s.next chunk) chunks
    inferInstanceAs (Decidable (chunk.length ≤ s.readableDataSize ∧ Fits (s.next chunk) chunks))

/-- As many bytes are kept as stand in front of `_begin`. -/
lemma length_kept (s : MqttStream) : s.kept.length = s.begin := List.length_take_of_le s.begin_le

/-- A residue is no longer than what it is left of. -/
lemma length_residue_le (bytes : Bytes) : (messageFramer.cut bytes).2.length ≤ bytes.length := by
  have hlen := congrArg List.length (messageFramer.cut_flatten_append bytes)
  rw [List.length_append] at hlen
  omega

/-- Reading a chunk keeps the size of the buffer. -/
lemma length_buffer_next (s : MqttStream) (chunk : Bytes) :
    (s.next chunk).buffer.length = s.buffer.length := by
  by_cases h : chunk.length ≤ s.readableDataSize
  · have hkept := s.length_kept
    have hbegin := s.begin_le
    have hsize : s.readableDataSize = s.buffer.length - s.begin := rfl
    have hresidue := congrArg (fun p => List.length p.2) (messages_next_eq_cut h)
    have hle := length_residue_le (s.kept ++ chunk)
    rw [next, dif_pos h, kept_shift] at hresidue
    rw [List.length_append] at hle
    have hshift : ∀ slice : Span, ((s.write chunk).shift slice).buffer.length =
        slice.bytes.length + ((s.kept ++ chunk ++
          s.buffer.drop (s.begin + chunk.length)).length - slice.size) := by
      intro slice
      change (slice.bytes ++ (s.kept ++ chunk ++ _).drop slice.size).length = _
      rw [List.length_append, List.length_drop]
    rw [next, dif_pos h, hshift, Span.length_bytes, List.length_append, List.length_append,
      List.length_drop]
    rw [Span.length_bytes] at hresidue
    omega
  · rw [next, dif_neg h]

/-- Chunks that fit into the buffer all together fit one after the other. -/
lemma fits_of_length_le {s : MqttStream} {chunks : List Bytes}
    (h : s.kept.length + chunks.flatten.length ≤ s.buffer.length) : s.Fits chunks := by
  induction chunks generalizing s with
  | nil => trivial
  | cons chunk chunks ih =>
    rw [List.flatten_cons, List.length_append] at h
    have hfits : chunk.length ≤ s.readableDataSize := by
      change _ ≤ s.buffer.length - s.begin
      rw [← s.length_kept]
      omega
    refine ⟨hfits, ih ?_⟩
    have hresidue := congrArg (fun p => List.length p.2) (messages_next_eq_cut hfits)
    have hle := length_residue_le (s.kept ++ chunk)
    simp only at hresidue
    rw [length_buffer_next, hresidue]
    rw [List.length_append] at hle
    omega

/-- The messages that reading chunks passes on. -/
def allMessages : MqttStream → List Bytes → List Span
  | _, [] => []
  | s, chunk :: chunks => s.messages chunk ++ allMessages (s.next chunk) chunks

/-- Every message that a stream passes on has two bytes and as many more as the second announces. -/
lemma exists_bytes_of_mem_allMessages {s : MqttStream} {chunks : List Bytes} {msg : Span}
    (h : msg ∈ s.allMessages chunks) :
    ∃ b₀ b₁ rest, msg.bytes = b₀ :: b₁ :: rest ∧ rest.length = b₁.toNat := by
  induction chunks generalizing s with
  | nil => cases h
  | cons chunk chunks ih =>
    rcases List.mem_append.mp h with hread | hmore
    · unfold messages at hread
      split at hread
      · exact exists_bytes_of_mem_dispatch hread
      · cases hread
    · exact ih hmore

/-- The stream after reading chunks. -/
def nextAll (s : MqttStream) (chunks : List Bytes) : MqttStream := chunks.foldl next s

/-- Reading chunks passes their messages on and leaves the last stream. -/
theorem readAll_eq {m : Type → Type} [Monad m] [LawfulMonad m] (newMessage : Span → m Unit)
    (s : MqttStream) (chunks : List Bytes) :
    readAll newMessage s chunks =
      (do
        forM (s.allMessages chunks) newMessage
        return s.nextAll chunks) := by
  induction chunks generalizing s with
  | nil => rw [allMessages, List.forM_nil, pure_bind]; rfl
  | cons chunk chunks ih =>
    have hcons : readAll newMessage s (chunk :: chunks) =
        read newMessage s chunk >>= fun s => readAll newMessage s chunks := List.foldlM_cons
    rw [hcons, read_eq, allMessages, List.forM_append, bind_assoc, bind_assoc]
    simp only [pure_bind, ih]
    rfl

/-- Reading chunks that fit feeds them to the framer. -/
theorem allMessages_eq_feed {s : MqttStream} {chunks : List Bytes} (h : s.Fits chunks) :
    ((s.allMessages chunks).map Span.bytes, (s.nextAll chunks).kept) =
      messageFramer.feed s.kept chunks := by
  induction chunks generalizing s with
  | nil => rfl
  | cons chunk chunks ih =>
    have hread := messages_next_eq_cut h.1
    rw [Framer.feed, ← hread, ← ih h.2, allMessages, List.map_append]
    rfl

/-- **The chunks do not matter**: a stream that starts empty cuts its whole input as the framer
does in one pass. -/
theorem allMessages_eq_cut {size : ℕ} {chunks : List Bytes} (h : (new size).Fits chunks) :
    (((new size).allMessages chunks).map Span.bytes, ((new size).nextAll chunks).kept) =
      messageFramer.cut chunks.flatten := by
  have hresidue : (new size).kept.length < messageFramer.frameLength (new size).kept :=
    messageFramer.frameLength_pos _
  rw [allMessages_eq_feed h, messageFramer.feed_eq_cut hresidue]
  rfl

/-- The messages that a new stream passes on are what the framer cuts off. -/
lemma map_bytes_messages_of_cut_eq {size : ℕ} {bytes : Bytes} {frames : List Bytes}
    (h : bytes.length ≤ size) (hcut : messageFramer.cut bytes = (frames, [])) :
    ((new size).messages bytes).map Span.bytes = frames := by
  have hfits : bytes.length ≤ (new size).readableDataSize := by rwa [readableDataSize_new]
  have hbytes := congrArg Prod.fst (messages_next_eq_cut hfits)
  have hkept : (new size).kept = [] := rfl
  rw [hkept, List.nil_append, hcut] at hbytes
  exact hbytes

/-- A first read that fits and is one message in whole passes just that message on. -/
lemma exists_messages_eq_of_cut_eq {size : ℕ} {frame : Bytes} (h : frame.length ≤ size)
    (hcut : messageFramer.cut frame = ([frame], [])) :
    ∃ msg, (new size).messages frame = [msg] ∧ msg.bytes = frame := by
  obtain ⟨msg, hmsgs, hmsg⟩ :=
    List.map_eq_singleton_iff.mp (map_bytes_messages_of_cut_eq h hcut)
  exact ⟨msg, hmsgs, hmsg⟩

/-- So a stream that reads it passes it on. -/
lemma exists_message_of_cut_eq {size : ℕ} {frame : Bytes} (h : frame.length ≤ size)
    (hcut : messageFramer.cut frame = ([frame], [])) :
    ∃ msg ∈ (new size).allMessages [frame], msg.bytes = frame := by
  obtain ⟨msg, hmsgs, hmsg⟩ := exists_messages_eq_of_cut_eq h hcut
  refine ⟨msg, ?_, hmsg⟩
  rw [allMessages, hmsgs]
  exact List.mem_cons_self

/-! ## The sequence of messages -/

/-- A `newMessage` that writes down what it is called with. -/
def record (msg : Span) : StateM (List Bytes) Unit := modify (· ++ [msg.bytes])

/-- Passing messages on to `record` writes them down in order. -/
lemma forM_record (msgs : List Span) (log : List Bytes) :
    forM msgs record log = ((), log ++ msgs.map Span.bytes) := by
  induction msgs generalizing log with
  | nil => rw [List.map_nil, List.append_nil]; rfl
  | cons msg msgs ih =>
    rw [List.forM_cons]
    change forM msgs record (log ++ [msg.bytes]) = _
    rw [ih, List.map_cons, List.append_assoc]
    rfl

/-- What is written down while chunks are read, and what is kept. -/
lemma readAll_record {size : ℕ} {chunks : List Bytes} (h : (new size).Fits chunks) :
    ((readAll record (new size) chunks []).2, (readAll record (new size) chunks []).1.kept) =
      messageFramer.cut chunks.flatten := by
  rw [← allMessages_eq_cut h, readAll_eq]
  change ((forM ((new size).allMessages chunks) record []).2, _) = _
  rw [forM_record, List.nil_append]
  rfl

/-- Every message has at least the size of a fixed header. -/
lemma two_le_length_of_mem_cut {input f : Bytes} (h : f ∈ (messageFramer.cut input).1) :
    2 ≤ f.length := by
  obtain ⟨bytes, hle, rfl⟩ := messageFramer.length_of_mem_cut h
  have htwo : 2 ≤ messageFramer.frameLength bytes := by
    change 2 ≤ announcedLength bytes
    unfold announcedLength
    split
    · exact Nat.le_add_left _ _
    · exact Nat.le_refl _
  rw [List.length_take]
  omega

/-- So there are at most half as many messages as bytes. -/
lemma two_mul_length_cut_le (input : Bytes) :
    2 * (messageFramer.cut input).1.length ≤ input.length := by
  have hsum : ∀ fs : List Bytes, (∀ f ∈ fs, 2 ≤ f.length) → 2 * fs.length ≤ fs.flatten.length := by
    intro fs hfs
    induction fs with
    | nil => simp
    | cons f fs ih =>
      have hf := hfs f List.mem_cons_self
      have hrest := ih fun g hg => hfs g (List.mem_cons_of_mem f hg)
      rw [List.flatten_cons, List.length_append, List.length_cons]
      omega
  have hmessages := hsum (messageFramer.cut input).1 fun f hf => two_le_length_of_mem_cut hf
  have hinput := congrArg List.length (messageFramer.cut_flatten_append input)
  rw [List.length_append] at hinput
  omega

/-- **The stream frames its input independently of how it is cut, and loses nothing.**  The
messages passed on over all the reads and the bytes that are kept concatenate to the input; they
are what one pass over the whole input cuts off, so any other cutting, into a buffer of any other
size, gives the same; and there are at most half as many rounds of the loop as there are bytes. -/
theorem readAll_frames_input (size : ℕ) (input : Bytes) (chunks : List Bytes)
    (hcut : chunks.flatten = input) (hfits : (new size).Fits chunks) :
    let run := readAll record (new size) chunks []
    run.2.flatten ++ run.1.kept = input ∧
      (run.2, run.1.kept) = messageFramer.cut input ∧
      (∀ (size' : ℕ) (chunks' : List Bytes), chunks'.flatten = input →
        (new size').Fits chunks' →
        (readAll record (new size') chunks' []).2 = run.2 ∧
          (readAll record (new size') chunks' []).1.kept = run.1.kept) ∧
      2 * run.2.length ≤ input.length := by
  intro run
  have hrun : (run.2, run.1.kept) = messageFramer.cut input := hcut ▸ readAll_record hfits
  have hdispatched : run.2 = (messageFramer.cut input).1 := congrArg Prod.fst hrun
  have hkept : run.1.kept = (messageFramer.cut input).2 := congrArg Prod.snd hrun
  refine ⟨?_, hrun, ?_, ?_⟩
  · rw [hdispatched, hkept]
    exact messageFramer.cut_flatten_append input
  · intro size' chunks' hcut' hfits'
    have hrun' := readAll_record hfits'
    rw [hcut', ← hrun, Prod.mk.injEq] at hrun'
    exact hrun'
  · rw [hdispatched]
    exact two_mul_length_cut_le input

/-- Two messages and a byte that arrive in three reads, cut inside the first header and the second
body, in a buffer that is smaller than the input. -/
theorem readAll_frames_input_three_reads :
    let run := readAll record (new 6) [[0xc0], [0, 0x30, 3, 1], [2, 3, 0xe0]] []
    run.2.flatten ++ run.1.kept = [0xc0, 0, 0x30, 3, 1, 2, 3, 0xe0] :=
  (readAll_frames_input 6 [0xc0, 0, 0x30, 3, 1, 2, 3, 0xe0]
    [[0xc0], [0, 0x30, 3, 1], [2, 3, 0xe0]] rfl (by decide +kernel)).1

end MqttStream

end MqttCpp
