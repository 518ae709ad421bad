import MqttCpp.Message.RemainingLength
import MqttCpp.Message.PublishTopic

/-!
# The length digits of a message that was passed on

The stream looks at the first byte of the remaining length only, and `getRemainingSize` has no
bound of its own.  So the bytes of a client decide how many digits are read, and the `int` of the
loop overflows when four of them say that there is one more.
-/

namespace MqttCpp

open Cereal MqttFixedHeader

/-- The bytes that `getRemainingSize` reads as the length of a message: those behind the byte of
flags, and when the message ends first those of the memory behind it. -/
def lengthDigits (msg : Span) (beyond : Bytes) : Bytes := digitsRead ((msg.bytes ++ beyond).drop 1)

/-- Whatever stands behind the message, reading its header multiplies no numbers whose product is
no `int`, and reads no more than four digits behind the byte of flags. -/
def LengthDigitsFit (msg : Span) : Prop :=
  ∀ (old : MqttFixedHeader) (beyond : Bytes),
    old.cerealiseWith checked (Decerealiser.new msg.bytes beyond) ≠ .error .overflow ∧
      ∀ h d, old.cerealise (Decerealiser.new msg.bytes beyond) = .ok (h, d) → d.pos ≤ 5

/-- **The header of a message is read from these digits**, and reading it fails only when memory
ends before the last of them. -/
theorem cerealise_lengthDigits (old : MqttFixedHeader) {msg : Span} {b : UInt8} {rest : Bytes}
    (hmsg : msg.bytes = b :: rest) (beyond : Bytes) :
    old.cerealise (Decerealiser.new msg.bytes beyond) =
      if IsDigits (lengthDigits msg beyond) then
        .ok (ofFlags b (digitsValue 1 0 (lengthDigits msg beyond)),
          Cursor.advance (lengthDigits msg beyond).length
            (afterFlags b (Decerealiser.new msg.bytes beyond)))
      else .error .badRead := by
  have hnext : (msg.bytes ++ beyond)[0]? = some b := by
    rw [hmsg]
    rfl
  have hread : Cursor.unread (afterFlags b (Decerealiser.new msg.bytes beyond)) =
      (msg.bytes ++ beyond).drop 1 := rfl
  have hdigits := getRemainingSize_eq (afterFlags b (Decerealiser.new msg.bytes beyond))
  rw [hread] at hdigits
  rw [cerealise_read_of_some old rfl hnext]
  unfold lengthDigits
  split
  · rename_i hds
    rw [if_pos hds] at hdigits
    rw [StateT.bind_of_eq_ok hdigits]
    rfl
  · rename_i hds
    rw [if_neg hds] at hdigits
    exact StateT.bind_of_eq_error hdigits

/-- **When reading a header overflows**: when there are more than four of these digits. -/
theorem cerealiseWith_checked_eq_overflow_iff (old : MqttFixedHeader) {msg : Span} {b : UInt8}
    {rest : Bytes} (hmsg : msg.bytes = b :: rest) (beyond : Bytes) :
    old.cerealiseWith checked (Decerealiser.new msg.bytes beyond) = .error .overflow ↔
      4 < (lengthDigits msg beyond).length := by
  have hnext : (msg.bytes ++ beyond)[0]? = some b := by
    rw [hmsg]
    rfl
  have hdigits := getRemainingSizeWith_checked (afterFlags b (Decerealiser.new msg.bytes beyond))
  change _ = if 4 < (lengthDigits msg beyond).length then _ else _ at hdigits
  rw [cerealiseWith_read_of_some checked old rfl hnext]
  constructor
  · intro hoverflow
    by_contra hfew
    rw [if_neg hfew] at hdigits
    rcases StateT.bind_eq_error_iff.mp hoverflow with hread | ⟨_, _, -, hpure⟩
    · rw [hdigits] at hread
      cases failsWith_getRemainingSize _ _ hread
    · cases hpure
  · intro hmany
    rw [if_pos hmany] at hdigits
    exact StateT.bind_of_eq_error hdigits

/-- A message has such a header when these are never more than four digits. -/
lemma lengthDigitsFit_of_length_le {msg : Span} {b : UInt8} {rest : Bytes}
    (hmsg : msg.bytes = b :: rest) (h : ∀ beyond, (lengthDigits msg beyond).length ≤ 4) :
    LengthDigitsFit msg := by
  intro old beyond
  constructor
  · intro hoverflow
    have hmany := (cerealiseWith_checked_eq_overflow_iff old hmsg beyond).mp hoverflow
    exact absurd hmany (Nat.not_lt.mpr (h beyond))
  · intro hdr d hread
    rw [cerealise_lengthDigits old hmsg] at hread
    split at hread
    · obtain rfl := (Prod.mk.inj (Except.ok.inj hread)).2
      change 0 + 1 + (lengthDigits msg beyond).length ≤ 5
      have hfew := h beyond
      omega
    · cases hread

/-- **The length of a SUBSCRIBE or UNSUBSCRIBE, or of any other message that a stream passes on, is
read without overflow exactly when one of the four bytes behind the first has its top bit
clear.** -/
theorem lengthDigitsFit_iff {size : ℕ} {chunks : List Bytes} {msg : Span}
    (h : msg ∈ (MqttStream.new size).allMessages chunks) :
    LengthDigitsFit msg ↔ ∃ b ∈ (msg.bytes.drop 1).take 4, b &&& 128 = 0 := by
  obtain ⟨b₀, b₁, rest, hmsg, hrest⟩ := MqttStream.exists_bytes_of_mem_allMessages h
  have hdigits : ∀ beyond, lengthDigits msg beyond = digitsRead (b₁ :: (rest ++ beyond)) := by
    intro beyond
    rw [lengthDigits, hmsg]
    rfl
  have hdrop : msg.bytes.drop 1 = b₁ :: rest := by
    rw [hmsg]
    rfl
  rw [hdrop]
  constructor
  · intro hfit
    by_contra hall
    have hfirst : b₁ &&& 128 ≠ 0 := fun hb => hall ⟨b₁, List.mem_cons_self, hb⟩
    have hlong : 4 < (b₁ :: rest).length := by
      have hbyte : 128 ≤ b₁.toNat := le_toNat_of_and_128 hfirst
      rw [List.length_cons, hrest]
      omega
    have hmany : 4 < (digitsRead (b₁ :: rest)).length := by
      by_contra hfew
      exact hall (exists_of_length_digitsRead_le hlong (Nat.not_lt.mp hfew))
    apply (hfit { } []).1
    rw [cerealiseWith_checked_eq_overflow_iff _ hmsg, hdigits, List.append_nil]
    exact hmany
  · rintro ⟨b, hb, hlast⟩
    refine lengthDigitsFit_of_length_le hmsg fun beyond => ?_
    have hmem : b ∈ (b₁ :: (rest ++ beyond)).take 4 :=
      List.IsPrefix.subset (List.IsPrefix.take (List.prefix_append _ _) 4) hb
    rw [hdigits]
    exact length_digitsRead_le ⟨b, hmem, hlast⟩

/-- A SUBSCRIBE with one length digit. -/
theorem lengthDigitsFit_one_digit :
    ∃ msg ∈ (MqttStream.new (128 * 1024)).allMessages [[0x82, 6, 0, 1, 0, 1, 97, 0]],
      getMessageType msg = .ok .subscribe ∧ LengthDigitsFit msg := by
  obtain ⟨msg, hmem, hmsg⟩ := MqttStream.exists_message_of_cut_eq
    (by decide : [0x82, 6, 0, 1, 0, 1, 97, (0 : UInt8)].length ≤ 128 * 1024)
    (by decide +kernel : MqttStream.messageFramer.cut [0x82, 6, 0, 1, 0, 1, 97, 0] =
      ([[0x82, 6, 0, 1, 0, 1, 97, 0]], []))
  refine ⟨msg, hmem, getMessageType_eq hmsg, (lengthDigitsFit_iff hmem).mpr ?_⟩
  rw [hmsg]
  decide

/-- A SUBSCRIBE that says four times that there is one more digit. -/
def longDigits : Bytes := 0x82 :: 0x80 :: 0x80 :: 0x80 :: 0x80 :: List.replicate 125 0

/-- The server reads a fifth digit of it, and multiplies to what is no `int`. -/
theorem lengthDigits_longDigits :
    ∃ msg ∈ (MqttStream.new (128 * 1024)).allMessages [longDigits],
      getMessageType msg = .ok .subscribe ∧ ¬LengthDigitsFit msg ∧
        ∀ (old : MqttFixedHeader) (beyond : Bytes),
          old.cerealiseWith checked (Decerealiser.new msg.bytes beyond) = .error .overflow := by
  obtain ⟨msg, hmem, hmsg⟩ := MqttStream.exists_message_of_cut_eq
    (by decide +kernel : longDigits.length ≤ 128 * 1024)
    (by decide +kernel : MqttStream.messageFramer.cut longDigits = ([longDigits], []))
  have hdigits : ∀ beyond, lengthDigits msg beyond = [0x80, 0x80, 0x80, 0x80, 0] := by
    intro beyond
    rw [lengthDigits, hmsg]
    exact digitsRead_eq (by decide) ⟨List.replicate 124 0 ++ beyond, rfl⟩
  have hoverflow : ∀ (old : MqttFixedHeader) (beyond : Bytes),
      old.cerealiseWith checked (Decerealiser.new msg.bytes beyond) = .error .overflow := by
    intro old beyond
    rw [cerealiseWith_checked_eq_overflow_iff old hmsg, hdigits]
    decide
  exact ⟨msg, hmem, getMessageType_eq hmsg, fun hfit => (hfit { } []).1 (hoverflow { } []),
    hoverflow⟩

end MqttCpp
