import Mathlib.Data.List.Basic

/-!
# Framing a stream

A `Framer` announces, from the elements seen so far, how long the first frame is.  `cut` takes
complete frames off the front for as long as there is one and returns them with the residue,
in one pass over the whole input; `feed` does the same for an input that arrives in chunks,
carrying the residue from one chunk to the next.

The announced length may only change while the frame is incomplete (`frameLength_append`).
From this one law follows that the chunks do not matter: `feed_eq_cut`.  `cut_frames` and
`cut_take` compute the cut of a concatenation of frames, the latter for an input that breaks
off inside one of them.
-/

universe u

/-- How long the first frame of an input is, as far as the input tells. -/
structure Framer (α : Type u) where
  /-- The length of the first frame. -/
  frameLength : List α → ℕ
  /-- A frame is never empty. -/
  frameLength_pos : ∀ xs, 0 < frameLength xs
  /-- Once the first frame is complete, later input does not change its length. -/
  frameLength_append : ∀ xs ys, frameLength xs ≤ xs.length →
    frameLength (xs ++ ys) = frameLength xs

namespace Framer

variable {α : Type u} (F : Framer α)

/-! ## Cutting an input in one pass -/

/-- Take complete frames off the front; return them and what is left. -/
def cut (xs : List α) : List (List α) × List α :=
  if F.frameLength xs ≤ xs.length then
    (xs.take (F.frameLength xs) :: (cut (xs.drop (F.frameLength xs))).1,
      (cut (xs.drop (F.frameLength xs))).2)
  else ([], xs)
termination_by xs.length
decreasing_by all_goals
  have hpos := F.frameLength_pos xs
  rw [List.length_drop]
  omega

variable {F} in
/-- If the first frame is complete, it is cut off. -/
lemma cut_of_le {xs : List α} (h : F.frameLength xs ≤ xs.length) :
    F.cut xs = (xs.take (F.frameLength xs) :: (F.cut (xs.drop (F.frameLength xs))).1,
      (F.cut (xs.drop (F.frameLength xs))).2) := by
  rw [cut, if_pos h]

variable {F} in
/-- If the first frame is incomplete, everything is residue. -/
lemma cut_of_lt {xs : List α} (h : xs.length < F.frameLength xs) : F.cut xs = ([], xs) := by
  rw [cut, if_neg (Nat.not_le.mpr h)]

/-- The induction that `cut` follows. -/
theorem cut_induction {motive : List α → Prop}
    (incomplete : ∀ xs, xs.length < F.frameLength xs → motive xs)
    (complete : ∀ xs, F.frameLength xs ≤ xs.length → motive (xs.drop (F.frameLength xs)) →
      motive xs) (xs : List α) : motive xs := by
  by_cases h : F.frameLength xs ≤ xs.length
  · exact complete xs h (cut_induction incomplete complete (xs.drop (F.frameLength xs)))
  · exact incomplete xs (Nat.not_le.mp h)
termination_by xs.length
decreasing_by
  have hpos := F.frameLength_pos xs
  rw [List.length_drop]
  omega

/-- Nothing is lost: the frames and the residue concatenate to the input. -/
theorem cut_flatten_append (xs : List α) : (F.cut xs).1.flatten ++ (F.cut xs).2 = xs := by
  induction xs using F.cut_induction with
  | incomplete xs h => rw [cut_of_lt h]; rfl
  | complete xs h ih =>
    rw [cut_of_le h, List.flatten_cons, List.append_assoc, ih, List.take_append_drop]

/-- The residue holds no complete frame. -/
theorem cut_residue_lt (xs : List α) : (F.cut xs).2.length < F.frameLength (F.cut xs).2 := by
  induction xs using F.cut_induction with
  | incomplete xs h => rwa [cut_of_lt h]
  | complete xs h ih => rwa [cut_of_le h]

/-- Cutting an input of two parts: cut the first, then the residue with the second. -/
theorem cut_append (xs ys : List α) :
    F.cut (xs ++ ys) = ((F.cut xs).1 ++ (F.cut ((F.cut xs).2 ++ ys)).1,
      (F.cut ((F.cut xs).2 ++ ys)).2) := by
  induction xs using F.cut_induction with
  | incomplete xs h => rw [cut_of_lt h, List.nil_append]
  | complete xs h ih =>
    have hlen : F.frameLength (xs ++ ys) = F.frameLength xs := F.frameLength_append xs ys h
    have hle : F.frameLength (xs ++ ys) ≤ (xs ++ ys).length := by
      rw [hlen, List.length_append]
      omega
    rw [cut_of_le hle, cut_of_le h, hlen, List.take_append_of_le_length h,
      List.drop_append_of_le_length h, ih]
    rfl

/-- Every frame that is cut off has the length that was announced for it. -/
lemma length_of_mem_cut {xs f : List α} (hf : f ∈ (F.cut xs).1) :
    ∃ ys, F.frameLength ys ≤ ys.length ∧ f = ys.take (F.frameLength ys) := by
  induction xs using F.cut_induction with
  | incomplete xs h => rw [cut_of_lt h] at hf; cases hf
  | complete xs h ih =>
    rw [cut_of_le h] at hf
    rcases List.mem_cons.mp hf with rfl | hf
    · exact ⟨xs, h, rfl⟩
    · exact ih hf

/-! ## Input that arrives in chunks -/

/-- Cut chunk after chunk, carrying the residue along. -/
def feed : List α → List (List α) → List (List α) × List α
  | residue, [] => ([], residue)
  | residue, chunk :: chunks =>
    ((F.cut (residue ++ chunk)).1 ++ (feed (F.cut (residue ++ chunk)).2 chunks).1,
      (feed (F.cut (residue ++ chunk)).2 chunks).2)

/-- Feeding chunks is cutting their concatenation. -/
theorem feed_eq_cut {residue : List α} (h : residue.length < F.frameLength residue)
    (chunks : List (List α)) : F.feed residue chunks = F.cut (residue ++ chunks.flatten) := by
  induction chunks generalizing residue with
  | nil => rw [feed, List.flatten_nil, List.append_nil, cut_of_lt h]
  | cons chunk chunks ih =>
    rw [feed, ih (F.cut_residue_lt _), List.flatten_cons, ← List.append_assoc,
      F.cut_append (residue ++ chunk)]

/-! ## Concatenations of frames -/

/-- A frame: its own length is announced, whatever follows it. -/
def IsFrame (f : List α) : Prop := ∀ ys, F.frameLength (f ++ ys) = f.length

variable {F}

/-- A list whose own length is announced is a frame. -/
lemma isFrame_of_frameLength_eq {f : List α} (h : F.frameLength f = f.length) : F.IsFrame f :=
  fun ys => by rw [F.frameLength_append f ys (Nat.le_of_eq h), h]

lemma IsFrame.frameLength_eq {f : List α} (h : F.IsFrame f) : F.frameLength f = f.length := by
  have := h []
  rwa [List.append_nil] at this

/-- A frame at the front is cut off first. -/
lemma cut_isFrame_append {f : List α} (h : F.IsFrame f) (ys : List α) :
    F.cut (f ++ ys) = (f :: (F.cut ys).1, (F.cut ys).2) := by
  have hle : F.frameLength (f ++ ys) ≤ (f ++ ys).length := by
    rw [h ys, List.length_append]
    omega
  rw [cut_of_le hle, h ys, List.take_left, List.drop_left]

/-- A proper prefix of a frame is not yet complete. -/
lemma length_lt_frameLength_take {f : List α} (h : F.IsFrame f) {n : ℕ} (hn : n < f.length) :
    (f.take n).length < F.frameLength (f.take n) := by
  by_contra hle
  have hstable := F.frameLength_append (f.take n) (f.drop n) (Nat.not_lt.mp hle)
  rw [List.take_append_drop, h.frameLength_eq] at hstable
  have hlen : (f.take n).length = n := by rw [List.length_take]; omega
  omega

/-- An input whose first frame is incomplete does not begin with a frame. -/
lemma not_isFrame_of_prefix {xs f : List α} (h : xs.length < F.frameLength xs) (hf : f <+: xs) :
    ¬F.IsFrame f := by
  obtain ⟨ys, rfl⟩ := hf
  intro hframe
  rw [hframe ys, List.length_append] at h
  omega

/-- Frames at the front are cut off one by one. -/
theorem cut_frames {fs : List (List α)} (h : ∀ f ∈ fs, F.IsFrame f) (ys : List α) :
    F.cut (fs.flatten ++ ys) = (fs ++ (F.cut ys).1, (F.cut ys).2) := by
  induction fs with
  | nil => rfl
  | cons f fs ih =>
    have hfs : ∀ g ∈ fs, F.IsFrame g := fun g hg => h g (List.mem_cons_of_mem f hg)
    rw [List.flatten_cons, List.append_assoc, cut_isFrame_append (h f List.mem_cons_self),
      ih hfs, List.cons_append]

/-- If the first part of a list is cut off, it has the announced length. -/
lemma frameLength_eq_of_cut_eq {f ys : List α} {fs : List (List α)}
    (h : (F.cut (f ++ ys)).1 = f :: fs) : F.frameLength (f ++ ys) = f.length := by
  by_cases hle : F.frameLength (f ++ ys) ≤ (f ++ ys).length
  · rw [cut_of_le hle, List.cons.injEq] at h
    have hlen := congrArg List.length h.1
    rw [List.length_take] at hlen
    omega
  · rw [cut_of_lt (Nat.not_le.mp hle)] at h
    exact absurd h (List.cons_ne_nil f fs).symm

/-- If what a part announces does not depend on what follows it, a concatenation is cut into its
parts exactly when all of them are frames. -/
theorem cut_flatten_eq_iff {fs : List (List α)}
    (hfs : ∀ f ∈ fs, ∀ ys, F.frameLength (f ++ ys) = F.frameLength f) :
    (F.cut fs.flatten).1 = fs ↔ ∀ f ∈ fs, F.IsFrame f := by
  constructor
  · intro h
    induction fs with
    | nil => exact fun f hf => absurd hf List.not_mem_nil
    | cons f fs ih =>
      rw [List.flatten_cons] at h
      have hf : F.IsFrame f := by
        have hlen := frameLength_eq_of_cut_eq h
        rw [hfs f List.mem_cons_self] at hlen
        exact isFrame_of_frameLength_eq hlen
      rw [cut_isFrame_append hf, List.cons.injEq] at h
      exact List.forall_mem_cons.mpr ⟨hf, ih (fun g hg => hfs g (List.mem_cons_of_mem f hg)) h.2⟩
  · intro h
    have hcut := cut_frames h []
    rw [List.append_nil] at hcut
    have hnil : F.cut [] = ([], []) := cut_of_lt (F.frameLength_pos [])
    rw [hcut, hnil, List.append_nil]

end Framer

/-- Those parts of a concatenation that lie within its first `n` elements. -/
def completeWithin {α : Type u} : List (List α) → ℕ → List (List α)
  | [], _ => []
  | f :: fs, n => if f.length ≤ n then f :: completeWithin fs (n - f.length) else []

namespace Framer

variable {α : Type u} {F : Framer α}

/-- If the input breaks off after `n` elements, the frames within them are cut off. -/
theorem cut_take {fs : List (List α)} (h : ∀ f ∈ fs, F.IsFrame f) (n : ℕ) :
    (F.cut (fs.flatten.take n)).1 = completeWithin fs n := by
  induction fs generalizing n with
  | nil =>
    rw [List.flatten_nil, List.take_nil, completeWithin]
    have hlt : ([] : List α).length < F.frameLength [] := F.frameLength_pos []
    exact congrArg Prod.fst (cut_of_lt hlt)
  | cons f fs ih =>
    have hf : F.IsFrame f := h f List.mem_cons_self
    have hfs : ∀ g ∈ fs, F.IsFrame g := fun g hg => h g (List.mem_cons_of_mem f hg)
    rw [List.flatten_cons, completeWithin]
    by_cases hn : f.length ≤ n
    · rw [if_pos hn, List.take_append, List.take_of_length_le hn, cut_isFrame_append hf,
        ih hfs]
    · have hlt : n < f.length := Nat.not_le.mp hn
      rw [if_neg hn, List.take_append_of_le_length (Nat.le_of_lt hlt),
        cut_of_lt (length_lt_frameLength_take hf hlt)]

end Framer
