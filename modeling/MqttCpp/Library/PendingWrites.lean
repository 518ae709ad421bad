import Mathlib.Data.List.Basic

/-!
# Writes by reference

A write that is started on a channel refers to a region of memory, which is not copied: the bytes
are read piece by piece when they are transmitted, and writes that are pending on one channel may
be transmitted in any order.  What a region holds at a moment is a function `contents`.

A channel is sound as long as what has been received, followed by what is still to be transmitted
of the pending writes, is what has been passed to it.  Starting a write and transmitting a piece of
the oldest one keep it sound; a change of the memory does if it leaves what is still to be
transmitted.
-/

universe u v w

/-- A write that has been started: the region its bytes are in, and how many have been sent. -/
structure PendingWrite (ρ : Type u) where
  region : ρ
  sent : ℕ := 0

/-- A channel to a peer. -/
structure Channel (ρ : Type u) (α : Type v) where
  /-- The writes that are not complete, in the order in which they were started. -/
  pending : List (PendingWrite ρ) := []
  /-- What the peer has received. -/
  received : List α := []
  /-- Everything that has been passed to the channel. -/
  passed : List α := []

variable {ρ : Type u} {α : Type v}

/-- What is still to be transmitted of a write, as the memory is now. -/
def PendingWrite.unsent (contents : ρ → List α) (w : PendingWrite ρ) : List α :=
  (contents w.region).drop w.sent

namespace Channel

/-- Start a write. -/
def start (ch : Channel ρ α) (region : ρ) (bytes : List α) : Channel ρ α :=
  { ch with pending := ch.pending ++ [{ region }], passed := ch.passed ++ bytes }

/-- What is passed to a channel that does not write it. -/
def ignore (ch : Channel ρ α) (bytes : List α) : Channel ρ α :=
  { ch with passed := ch.passed ++ bytes }

/-- Transmit a piece of at most `k` bytes of the pending write with the index `i`. -/
def transmit (contents : ρ → List α) (ch : Channel ρ α) (i k : ℕ) : Channel ρ α :=
  match ch.pending[i]? with
  | none => ch
  | some w =>
    let piece := (w.unsent contents).take k
    let w' := { w with sent := w.sent + piece.length }
    { ch with
      pending :=
        if (w'.unsent contents).isEmpty then ch.pending.eraseIdx i else ch.pending.set i w'
      received := ch.received ++ piece }

/-- Other regions take the place of those that pending writes refer to. -/
def mapRegions (f : ρ → ρ) (ch : Channel ρ α) : Channel ρ α :=
  { ch with pending := ch.pending.map fun w => { w with region := f w.region } }

/-- What has been received and what is still to be transmitted is what has been passed. -/
def Sound (contents : ρ → List α) (ch : Channel ρ α) : Prop :=
  ch.received ++ ch.pending.flatMap (PendingWrite.unsent contents) = ch.passed

variable {contents contents' : ρ → List α} {ch : Channel ρ α}

namespace Sound

/-- What has been received is a first part of what has been passed. -/
lemma isPrefix (h : ch.Sound contents) : ch.received <+: ch.passed := ⟨_, h⟩

/-- When no write is pending, it is all of it. -/
lemma received_eq (h : ch.Sound contents) (hpending : ch.pending = []) :
    ch.received = ch.passed := by
  have hall := h
  rw [Sound, hpending, List.flatMap_nil, List.append_nil] at hall
  exact hall

/-- Starting a write of what a region holds. -/
lemma start (h : ch.Sound contents) {region : ρ} {bytes : List α}
    (hregion : contents region = bytes) : (ch.start region bytes).Sound contents := by
  have hunsent : PendingWrite.unsent contents { region } = bytes := by
    rw [PendingWrite.unsent, List.drop_zero, hregion]
  unfold Channel.start Sound at *
  simp only [List.flatMap_append, List.flatMap_singleton, hunsent, ← List.append_assoc, h]

/-- A change of the memory that leaves what is still to be transmitted. -/
lemma congr (h : ch.Sound contents)
    (hsame : ∀ w ∈ ch.pending, w.unsent contents' = w.unsent contents) : ch.Sound contents' := by
  unfold Sound
  rw [List.flatMap_congr hsame]
  exact h

/-- Transmitting a piece of the oldest write. -/
theorem transmit_oldest (h : ch.Sound contents) (k : ℕ) :
    (ch.transmit contents 0 k).Sound contents := by
  unfold Channel.transmit
  cases hpending : ch.pending with
  | nil => exact h
  | cons w ws =>
    have hsent : ({ w with
        sent := w.sent + ((w.unsent contents).take k).length } : PendingWrite ρ).unsent contents =
          (w.unsent contents).drop k := by
      change (contents w.region).drop (w.sent + _) = _
      rw [← List.drop_drop, List.length_take]
      exact List.drop_eq_drop_min.symm
    have hsound : ch.received ++ (w.unsent contents ++
        ws.flatMap (PendingWrite.unsent contents)) = ch.passed := by
      rw [← List.flatMap_cons, ← hpending]
      exact h
    -- the piece goes over to what has been received
    have hpiece : ch.received ++ (w.unsent contents).take k ++ ((w.unsent contents).drop k ++
        ws.flatMap (PendingWrite.unsent contents)) = ch.passed := by
      rw [List.append_assoc, ← List.append_assoc (List.take k _), List.take_append_drop, hsound]
    simp only [List.getElem?_cons_zero, hsent]
    unfold Sound
    split
    · rename_i hdone
      rw [List.isEmpty_iff] at hdone
      rw [hdone, List.nil_append] at hpiece
      exact hpiece
    · simp only [List.set_cons_zero, List.flatMap_cons, hsent]
      exact hpiece

end Sound

/-- Transmitting leaves no write pending that was not, and unsends nothing. -/
lemma mem_pending_transmit {i k : ℕ} {w : PendingWrite ρ}
    (h : w ∈ (ch.transmit contents i k).pending) :
    ∃ w₀ ∈ ch.pending, w.region = w₀.region ∧ ∃ m, w.sent = w₀.sent + m := by
  unfold transmit at h
  split at h
  · exact ⟨w, h, rfl, 0, rfl⟩
  · rename_i w₀ hw₀
    have hmem : w₀ ∈ ch.pending := List.mem_of_getElem? hw₀
    simp only at h
    split at h
    · exact ⟨w, List.mem_of_mem_eraseIdx h, rfl, 0, rfl⟩
    · rcases List.mem_or_eq_of_mem_set h with hold | rfl
      · exact ⟨w, hold, rfl, 0, rfl⟩
      · exact ⟨w₀, hmem, rfl, _, rfl⟩

/-- Transmitting passes nothing new. -/
lemma passed_transmit (contents : ρ → List α) (ch : Channel ρ α) (i k : ℕ) :
    (ch.transmit contents i k).passed = ch.passed := by
  unfold transmit
  split <;> rfl

/-- When all that is left of the oldest write is transmitted, it is pending no more. -/
lemma pending_transmit_oldest {w : PendingWrite ρ} {ws : List (PendingWrite ρ)}
    (h : ch.pending = w :: ws) {k : ℕ} (hk : (w.unsent contents).length ≤ k) :
    (ch.transmit contents 0 k).pending = ws := by
  have hdone : ({ w with sent := w.sent + (w.unsent contents).length } :
      PendingWrite ρ).unsent contents = [] := by
    unfold PendingWrite.unsent
    rw [← List.drop_drop]
    exact List.drop_eq_nil_of_le (Nat.le_refl _)
  unfold transmit
  simp only [h, List.getElem?_cons_zero, List.take_of_length_le hk, hdone]
  rfl

/-- A write that is not there is not transmitted. -/
lemma transmit_of_length_le {i : ℕ} (h : ch.pending.length ≤ i) (k : ℕ) :
    ch.transmit contents i k = ch := by
  unfold transmit
  rw [List.getElem?_eq_none h]

/-- Regions that stay are the same. -/
lemma mapRegions_eq_self {f : ρ → ρ} (h : ∀ w ∈ ch.pending, f w.region = w.region) :
    ch.mapRegions f = ch := by
  have hmap : ch.pending.map (fun w => ({ w with region := f w.region } : PendingWrite ρ)) =
      ch.pending := by
    have hsame : ∀ w ∈ ch.pending, ({ w with region := f w.region } : PendingWrite ρ) = id w := by
      intro w hw
      rw [h w hw]
      rfl
    rw [List.map_congr_left hsame, List.map_id]
  unfold mapRegions
  rw [hmap]

/-! ## Memory that is not known -/

/-- What regions hold may be known only in part: `contents g` are the possibilities.  The channel is
sound in all of them, and they agree about what is still to be transmitted. -/
structure SoundFor {γ : Type w} (contents : γ → ρ → List α) (ch : Channel ρ α) : Prop where
  sound : ∀ g, ch.Sound (contents g)
  known : ∀ w ∈ ch.pending, ∀ g g', w.unsent (contents g) = w.unsent (contents g')

namespace SoundFor

variable {γ : Type w} {contents contents' : γ → ρ → List α} {ch : Channel ρ α}

/-- On a new channel nothing has been passed. -/
lemma new (contents : γ → ρ → List α) : ({} : Channel ρ α).SoundFor contents where
  sound _ := rfl
  known _ hw := absurd hw List.not_mem_nil

/-- Starting a write of what a region is known to hold. -/
lemma start (h : ch.SoundFor contents) {region : ρ} {bytes : List α}
    (hregion : ∀ g, contents g region = bytes) : (ch.start region bytes).SoundFor contents where
  sound g := (h.sound g).start (hregion g)
  known w hw g g' := by
    rcases List.mem_append.mp hw with hold | hnew
    · exact h.known w hold g g'
    · rw [List.mem_singleton] at hnew
      rw [hnew, PendingWrite.unsent, PendingWrite.unsent, hregion, hregion]

/-- A change of the memory that leaves what is still to be transmitted. -/
lemma congr (h : ch.SoundFor contents)
    (hsame : ∀ w ∈ ch.pending, ∀ g, w.unsent (contents' g) = w.unsent (contents g)) :
    ch.SoundFor contents' where
  sound g := (h.sound g).congr fun w hw => hsame w hw g
  known w hw g g' := by rw [hsame w hw, hsame w hw, h.known w hw g g']

/-- Transmitting a piece of the oldest write. -/
theorem transmit_oldest (h : ch.SoundFor contents) (g : γ) (k : ℕ) :
    (ch.transmit (contents g) 0 k).SoundFor contents where
  sound g' := by
    have hsame : ch.transmit (contents g) 0 k = ch.transmit (contents g') 0 k := by
      unfold transmit
      cases hpending : ch.pending with
      | nil => rfl
      | cons w ws =>
        have hunsent := h.known w (hpending ▸ List.mem_cons_self) g g'
        have hrest : ∀ m, ({ w with sent := w.sent + m } : PendingWrite ρ).unsent (contents g) =
            ({ w with sent := w.sent + m } : PendingWrite ρ).unsent (contents g') := by
          intro m
          unfold PendingWrite.unsent at *
          rw [← List.drop_drop, ← List.drop_drop, hunsent]
        simp only [List.getElem?_cons_zero, hunsent, hrest]
    rw [hsame]
    exact (h.sound g').transmit_oldest k
  known w hw g₁ g₂ := by
    obtain ⟨w₀, hmem, hregion, m, hsent⟩ := mem_pending_transmit hw
    have hknown := h.known w₀ hmem g₁ g₂
    unfold PendingWrite.unsent at *
    rw [hregion, hsent, ← List.drop_drop, ← List.drop_drop, hknown]

end SoundFor

end Channel
