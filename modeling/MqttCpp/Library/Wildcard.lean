import MqttCpp.Library.PrefixTree
import Mathlib.Algebra.Group.Nat.Defs
import Mathlib.Data.List.Count

/-!
# Wildcard patterns over paths

Patterns and topics are lists of levels.  In a pattern the level `plus` stands for exactly one
level and a final `hash` for zero or more levels; `Matches` is this reading.

A prefix tree that stores values under patterns is searched by a walk that follows, at every
level of the topic, the level itself, `hash` and `plus`.  `routes` lists the paths at which such
a walk stops to collect values; it depends on the topic alone.  `count_routes_eq_two_pow` counts
how often it stops at a pattern, and `count_routes` says that the walk is exact on a topic without
wildcards: it stops at a matching pattern once and at no other.  `Stores.count_collect` and
`Stores.count_collect_le_iff` carry this over to the entries of a tree that stores each of them
under its pattern.
-/

universe u v

/-- The two wildcard levels of a pattern language. -/
structure Wildcards (κ : Type u) where
  /-- Stands for exactly one level. -/
  plus : κ
  /-- As the last level, stands for the levels that remain. -/
  hash : κ
  /-- The two wildcards are different. -/
  plus_ne_hash : plus ≠ hash

namespace Wildcards

variable {κ : Type u} (W : Wildcards κ)

/-- The wildcard `hash` stands nowhere but at the end of the pattern. -/
def HashLast (pattern : List κ) : Prop := W.hash ∉ pattern.dropLast

/-- The topic has no wildcard level. -/
def Plain (topic : List κ) : Prop := W.plus ∉ topic ∧ W.hash ∉ topic

/-- Dropping the first of several levels keeps `hash` at the end. -/
lemma HashLast.tail {f : κ} {fs : List κ} (h : W.HashLast (f :: fs)) : W.HashLast fs := by
  cases fs with
  | nil => exact List.not_mem_nil
  | cons g gs =>
    rw [HashLast, List.dropLast_cons_cons] at h
    exact fun hmem => h (List.mem_cons_of_mem f hmem)

/-- If a pattern with `hash` at most at its end starts with `hash`, it is a lone `hash`. -/
lemma HashLast.eq_nil_of_head {fs : List κ} (h : W.HashLast (W.hash :: fs)) : fs = [] := by
  cases fs with
  | nil => rfl
  | cons g gs => exact absurd List.mem_cons_self h

variable [DecidableEq κ]

/-- The pattern matches the topic, level by level. -/
def Matches : List κ → List κ → Bool
  | [], [] => true
  | [], _ :: _ => false
  | f :: fs, [] => decide (f = W.hash ∧ fs = [])
  | f :: fs, t :: ts =>
    decide (f = W.hash ∧ fs = []) || (decide (f = W.plus ∨ f = t) && Matches fs ts)

instance (pattern : List κ) : Decidable (W.HashLast pattern) :=
  inferInstanceAs (Decidable (W.hash ∉ pattern.dropLast))

instance (topic : List κ) : Decidable (W.Plain topic) :=
  inferInstanceAs (Decidable (W.plus ∉ topic ∧ W.hash ∉ topic))

/-- The paths at which the walk along a topic collects values, in the order of the walk. -/
def routes : List κ → List (List κ)
  | [] => []
  | front :: rest =>
    [front, W.hash, W.plus].flatMap fun part =>
      (if rest = [] ∨ part = W.hash then [[part]] else []) ++
        (if rest = [] then [[part, W.hash]] else []) ++ (routes rest).map (part :: ·)

/-- The paths at which the walk collects values below its next level `part`. -/
def routesBelow (rest : List κ) (part : κ) : List (List κ) :=
  (if rest = [] ∨ part = W.hash then [[part]] else []) ++
    (if rest = [] then [[part, W.hash]] else []) ++ (W.routes rest).map (part :: ·)

@[simp] lemma routes_nil : W.routes [] = [] := rfl

/-- The walk takes the level itself, then `hash`, then `plus`. -/
lemma routes_cons (front : κ) (rest : List κ) :
    W.routes (front :: rest) = W.routesBelow rest front ++
      (W.routesBelow rest W.hash ++ W.routesBelow rest W.plus) := by
  rw [routes, List.flatMap_cons, List.flatMap_cons, List.flatMap_cons, List.flatMap_nil,
    List.append_nil]
  rfl

/-- Every path below a level starts with that level. -/
lemma head_of_mem_routesBelow {rest : List κ} {part : κ} {path : List κ}
    (h : path ∈ W.routesBelow rest part) : ∃ path', path = part :: path' := by
  rw [routesBelow, List.mem_append, List.mem_append] at h
  rcases h with (h | h) | h
  · by_cases hc : rest = [] ∨ part = W.hash
    · rw [if_pos hc, List.mem_singleton] at h
      exact ⟨[], h⟩
    · rw [if_neg hc] at h
      cases h
  · by_cases hc : rest = []
    · rw [if_pos hc, List.mem_singleton] at h
      exact ⟨[W.hash], h⟩
    · rw [if_neg hc] at h
      cases h
  · obtain ⟨path', _, rfl⟩ := List.mem_map.mp h
    exact ⟨path', rfl⟩

/-- The walk never collects at the root. -/
lemma nil_notMem_routes (topic : List κ) : [] ∉ W.routes topic := by
  cases topic with
  | nil => exact List.not_mem_nil
  | cons front rest =>
    rw [routes_cons, List.mem_append, List.mem_append]
    rintro (h | h | h) <;> obtain ⟨path', hpath⟩ := W.head_of_mem_routesBelow h <;> cases hpath

/-! ## The walk is exact -/

/-- A pattern with another first level is not met below `part`. -/
lemma count_routesBelow_of_ne {rest : List κ} {part f : κ} (h : f ≠ part) (fs : List κ) :
    (W.routesBelow rest part).count (f :: fs) = 0 := by
  rw [List.count_eq_zero]
  intro hmem
  obtain ⟨path', hpath⟩ := W.head_of_mem_routesBelow hmem
  exact h (List.cons.inj hpath).1

/-- How often a pattern is met below its own first level. -/
lemma count_routesBelow_self (rest : List κ) (part : κ) (fs : List κ) :
    (W.routesBelow rest part).count (part :: fs) =
      (if (rest = [] ∨ part = W.hash) ∧ fs = [] then 1 else 0) +
        (if rest = [] ∧ fs = [W.hash] then 1 else 0) + (W.routes rest).count fs := by
  have hmap : ((W.routes rest).map (part :: ·)).count (part :: fs) = (W.routes rest).count fs :=
    List.count_map_of_injective (W.routes rest) (part :: ·) (List.cons_injective) fs
  have hsingle : ∀ (c : Prop) [Decidable c] (path : List κ),
      (if c then [part :: path] else []).count (part :: fs) = if c ∧ fs = path then 1 else 0 := by
    intro c _ path
    by_cases hc : c
    · by_cases hp : fs = path
      · simp [hc, hp]
      · have hne : path ≠ fs := Ne.symm hp
        simp [hc, hp, hne]
    · simp [hc]
  rw [routesBelow, List.count_append, List.count_append, hmap, hsingle, hsingle]

/-- The walk along the topic comes to the pattern and collects there: every level of the pattern is
the level of the topic or a wildcard, and the pattern ends where the walk collects. -/
def Reaches : List κ → List κ → Bool
  | [], _ => false
  | _ :: _, [] => false
  | f :: fs, t :: ts =>
    decide (f = t ∨ f = W.hash ∨ f = W.plus) &&
      (decide ((ts = [] ∨ f = W.hash) ∧ fs = []) || decide (ts = [] ∧ fs = [W.hash]) ||
        Reaches fs ts)

@[simp] lemma reaches_nil_left (topic : List κ) : W.Reaches [] topic = false := by
  cases topic <;> rfl

@[simp] lemma reaches_nil_right (pattern : List κ) : W.Reaches pattern [] = false := by
  cases pattern <;> rfl

/-- A pattern that is published as a topic reaches itself, whatever wildcards it has. -/
lemma reaches_self {levels : List κ} (h : levels ≠ []) : W.Reaches levels levels = true := by
  induction levels with
  | nil => exact absurd rfl h
  | cons f fs ih =>
    rcases eq_or_ne fs [] with rfl | hfs
    · simp [Reaches]
    · simp [Reaches, ih hfs]

/-- The number of levels at which the pattern and the topic have the same wildcard. -/
def shared (pattern topic : List κ) : ℕ :=
  (pattern.zip topic).countP fun l => decide (l.1 = l.2 ∧ (l.1 = W.hash ∨ l.1 = W.plus))

@[simp] lemma shared_nil_left (topic : List κ) : W.shared [] topic = 0 := rfl

@[simp] lemma shared_nil_right (pattern : List κ) : W.shared pattern [] = 0 := by
  rw [shared, List.zip_nil_right, List.countP_nil]

/-- The first levels count if they are the same wildcard. -/
lemma shared_cons_cons (f t : κ) (fs ts : List κ) :
    W.shared (f :: fs) (t :: ts) =
      W.shared fs ts + if f = t ∧ (f = W.hash ∨ f = W.plus) then 1 else 0 := by
  rw [shared, List.zip_cons_cons, List.countP_cons, shared]
  simp

/-- Nothing is shared with a topic without wildcards. -/
lemma shared_eq_zero_of_plain {topic : List κ} (h : W.Plain topic) (pattern : List κ) :
    W.shared pattern topic = 0 := by
  rw [shared, List.countP_eq_zero]
  rintro ⟨f, t⟩ hmem hshared
  obtain ⟨heq, hwild⟩ : f = t ∧ (f = W.hash ∨ f = W.plus) := of_decide_eq_true hshared
  have htopic : f ∈ topic := heq ▸ (List.of_mem_zip hmem).2
  rcases hwild with rfl | rfl
  · exact h.2 htopic
  · exact h.1 htopic

/-- Below its own first level a pattern is met as often as its rest is met along the rest of the
topic, and once if it ends where the walk collects. -/
lemma count_routesBelow_eq_two_pow {rest : List κ} {part : κ} {fs : List κ}
    (h : (W.routes rest).count fs = if W.Reaches fs rest then 2 ^ W.shared fs rest else 0) :
    (W.routesBelow rest part).count (part :: fs) =
      if decide ((rest = [] ∨ part = W.hash) ∧ fs = []) || decide (rest = [] ∧ fs = [W.hash]) ||
        W.Reaches fs rest then 2 ^ W.shared fs rest else 0 := by
  rw [count_routesBelow_self, h]
  rcases eq_or_ne fs [] with rfl | hfs
  · -- the pattern ends here, so the walk does not meet it further on
    simp
  · rcases eq_or_ne rest [] with rfl | hrest
    · simp [hfs]
    · simp [hfs, hrest]

/-- **How often the walk comes by.**  It meets a pattern in two ways for every level at which the
pattern and the topic have the same wildcard: as the level of the topic and as the wildcard. -/
theorem count_routes_eq_two_pow (topic pattern : List κ) :
    (W.routes topic).count pattern =
      if W.Reaches pattern topic then 2 ^ W.shared pattern topic else 0 := by
  induction topic generalizing pattern with
  | nil => simp
  | cons t ts ih =>
    cases pattern with
    | nil =>
      rw [List.count_eq_zero.mpr (W.nil_notMem_routes _)]
      simp
    | cons f fs =>
      have hself : (W.routesBelow ts f).count (f :: fs) = _ :=
        W.count_routesBelow_eq_two_pow (ih fs)
      have hother : ∀ part, f ≠ part → (W.routesBelow ts part).count (f :: fs) = 0 :=
        fun part h => W.count_routesBelow_of_ne h fs
      have hdouble : ∀ (c : Bool) (n : ℕ), (if c then 2 ^ n else 0) + (if c then 2 ^ n else 0) =
          if c then 2 ^ (n + 1) else 0 := by
        intro c n
        cases c with
        | false => rfl
        | true => exact (Nat.mul_two _).symm
      rw [routes_cons, List.count_append, List.count_append, shared_cons_cons, Reaches]
      rcases eq_or_ne f W.hash with rfl | hhash
      · rw [hself, hother W.plus (Ne.symm W.plus_ne_hash)]
        rcases eq_or_ne W.hash t with rfl | ht
        · -- below `hash` twice
          rw [hself, Nat.add_zero, hdouble]
          simp
        · rw [hother t ht]
          simp [ht]
      · rw [hother W.hash hhash]
        rcases eq_or_ne f W.plus with rfl | hplus
        · rw [hself]
          rcases eq_or_ne W.plus t with rfl | ht
          · -- below `plus` twice
            rw [hself, Nat.zero_add, hdouble]
            simp
          · rw [hother t ht]
            simp [ht]
        · rw [hother W.plus hplus]
          rcases eq_or_ne f t with rfl | ht
          · rw [hself]
            simp [hhash, hplus]
          · rw [hother t ht]
            simp [hhash, hplus, ht]

/-- The empty topic is matched by the empty pattern and by a lone `hash`. -/
lemma matches_nil_iff (fs : List κ) : W.Matches fs [] = true ↔ fs = [] ∨ fs = [W.hash] := by
  cases fs with
  | nil => simp [Matches]
  | cons f fs => simp [Matches]

/-- With `hash` at its end only, a pattern is met by the walk along a topic if it matches it. -/
lemma reaches_eq_matches {topic pattern : List κ} (hne : topic ≠ [])
    (hpattern : W.HashLast pattern) : W.Reaches pattern topic = W.Matches pattern topic := by
  induction topic generalizing pattern with
  | nil => exact absurd rfl hne
  | cons t ts ih =>
    cases pattern with
    | nil => rfl
    | cons f fs =>
      rw [Reaches, Matches]
      rcases eq_or_ne f W.hash with rfl | hhash
      · obtain rfl := HashLast.eq_nil_of_head W hpattern
        simp
      · rcases eq_or_ne ts [] with rfl | hts
        · have hmatch := W.matches_nil_iff fs
          rw [Bool.eq_iff_iff]
          simp [hhash, hmatch, or_comm]
        · rw [ih hts (HashLast.tail W hpattern)]
          simp [hhash, hts, or_comm]

/-- **The walk is exact.**  Along a non-empty topic without wildcards it meets a pattern that
matches once, and one that does not match never. -/
theorem count_routes {topic pattern : List κ} (hne : topic ≠ []) (htopic : W.Plain topic)
    (hpattern : W.HashLast pattern) :
    (W.routes topic).count pattern = if W.Matches pattern topic then 1 else 0 := by
  rw [count_routes_eq_two_pow, W.shared_eq_zero_of_plain htopic, Nat.pow_zero,
    W.reaches_eq_matches hne hpattern]

/-- The walk collects at the patterns that it reaches. -/
lemma mem_routes_iff {topic pattern : List κ} :
    pattern ∈ W.routes topic ↔ W.Reaches pattern topic = true := by
  rw [← List.count_pos_iff, count_routes_eq_two_pow]
  by_cases h : W.Reaches pattern topic = true
  · rw [if_pos h]
    exact iff_of_true (Nat.two_pow_pos _) h
  · simp [h]

/-- How often the walk along a topic meets a pattern. -/
def arrivals (pattern topic : List κ) : ℕ := (W.routes topic).count pattern

/-- It meets those that it reaches. -/
lemma arrivals_pos_iff {topic pattern : List κ} :
    0 < W.arrivals pattern topic ↔ W.Reaches pattern topic = true := by
  rw [arrivals, List.count_pos_iff, mem_routes_iff]

/-- The walk meets a pattern more than once if it reaches it and shares a wildcard with it. -/
lemma one_lt_count_routes_iff (topic pattern : List κ) :
    1 < (W.routes topic).count pattern ↔
      W.Reaches pattern topic = true ∧ 0 < W.shared pattern topic := by
  rw [count_routes_eq_two_pow]
  by_cases h : W.Reaches pattern topic = true
  · rw [if_pos h, Nat.one_lt_two_pow_iff]
    simp [h, Nat.pos_iff_ne_zero]
  · simp [h]

/-! ## Collecting the values of a tree -/

variable {α : Type v}

/-- The values a walk along the topic collects from a tree, in the order of the walk. -/
def collect (tree : PrefixTree κ α) (topic : List κ) : List α :=
  (W.routes topic).flatMap tree.valuesAt

/-- The values collected below the next level of the walk. -/
lemma flatMap_routesBelow_of_child_eq_none {tree : PrefixTree κ α} {part : κ}
    (h : tree.child part = none) (rest : List κ) :
    (W.routesBelow rest part).flatMap tree.valuesAt = [] := by
  rw [List.flatMap_eq_nil_iff]
  intro path hpath
  obtain ⟨path', rfl⟩ := W.head_of_mem_routesBelow hpath
  exact PrefixTree.valuesAt_cons_of_child_eq_none h path'

/-- Below an existing child the walk collects there, at its child `hash` if the topic is at an
end, and along the rest of the topic. -/
lemma flatMap_routesBelow_of_child_eq_some {tree c : PrefixTree κ α} {part : κ}
    (h : tree.child part = some c) (rest : List κ) :
    (W.routesBelow rest part).flatMap tree.valuesAt =
      (if rest = [] ∨ part = W.hash then c.values else []) ++
        (if rest = [] then c.valuesAt [W.hash] else []) ++ W.collect c rest := by
  have hvalues : ∀ path, tree.valuesAt (part :: path) = c.valuesAt path :=
    PrefixTree.valuesAt_cons_of_child_eq_some h
  have hone : ∀ (p : Prop) [Decidable p] (path : List κ),
      (if p then [part :: path] else []).flatMap tree.valuesAt =
        if p then c.valuesAt path else [] := by
    intro p _ path
    by_cases hp : p
    · simp [hp, hvalues]
    · simp [hp]
  rw [routesBelow, List.flatMap_append, List.flatMap_append, List.flatMap_map, hone, hone,
    PrefixTree.valuesAt_nil]
  congr 1
  exact List.flatMap_congr fun path _ => hvalues path

/-! ## Trees that store entries under their patterns -/

/-- The tree stores every one of these entries at the path that is its pattern. -/
def Stores (pattern : α → List κ) (tree : PrefixTree κ α) (entries : List α) : Prop :=
  ∀ path, tree.valuesAt path = entries.filter fun e => pattern e = path

/-- The empty tree stores no entries. -/
lemma stores_empty (pattern : α → List κ) : Stores pattern (PrefixTree.empty) [] :=
  fun path => PrefixTree.valuesAt_empty path

/-- Storing one more entry at the path that is its pattern. -/
theorem Stores.push {pattern : α → List κ} {tree : PrefixTree κ α} {entries : List α}
    (h : Stores pattern tree entries) (e : α) :
    Stores pattern (PrefixTree.alterAt (PrefixTree.push e) tree (pattern e))
      (entries ++ [e]) := by
  intro path
  rw [PrefixTree.valuesAt_alterAt_push, List.filter_append, h, h]
  by_cases hpath : path = pattern e
  · simp [hpath]
  · simp [hpath, Ne.symm hpath]

/-- Filtering the nodes of the tree filters the entries it stores. -/
theorem Stores.filterValues {pattern : α → List κ} {tree : PrefixTree κ α} {entries : List α}
    (h : Stores pattern tree entries) (p : α → Bool) :
    Stores pattern (tree.filterValues p) (entries.filter p) := by
  intro path
  rw [PrefixTree.valuesAt_filterValues, h, List.filter_filter, List.filter_filter]
  exact List.filter_congr fun e _ => Bool.and_comm _ _

/-- Whatever is collected is stored. -/
lemma Stores.mem_of_mem_collect {pattern : α → List κ} {tree : PrefixTree κ α}
    {entries : List α} (h : Stores pattern tree entries) {topic : List κ} {e : α}
    (he : e ∈ W.collect tree topic) : e ∈ entries := by
  obtain ⟨path, _, hmem⟩ := List.mem_flatMap.mp he
  rw [h] at hmem
  exact List.mem_of_mem_filter hmem

/-- What is stored is collected along the topics whose walk reaches its pattern. -/
lemma Stores.mem_collect_iff {pattern : α → List κ} {tree : PrefixTree κ α} {entries : List α}
    (h : Stores pattern tree entries) {topic : List κ} {e : α} :
    e ∈ W.collect tree topic ↔ e ∈ entries ∧ W.Reaches (pattern e) topic = true := by
  rw [collect, List.mem_flatMap, ← mem_routes_iff]
  constructor
  · rintro ⟨path, hpath, he⟩
    rw [h, List.mem_filter, decide_eq_true_eq] at he
    obtain ⟨hmem, rfl⟩ := he
    exact ⟨hmem, hpath⟩
  · rintro ⟨hmem, hroute⟩
    refine ⟨pattern e, hroute, ?_⟩
    rw [h]
    simp [hmem]

variable [DecidableEq α]

/-- How often an entry stands in the classes that a list of paths selects. -/
lemma count_flatMap_filter (pattern : α → List κ) (entries : List α) (paths : List (List κ))
    (e : α) :
    (paths.flatMap fun path => entries.filter fun e => pattern e = path).count e =
      paths.count (pattern e) * entries.count e := by
  induction paths with
  | nil => simp
  | cons path paths ih =>
    rw [List.flatMap_cons, List.count_append, ih, List.count_cons, Nat.add_mul, Nat.add_comm]
    congr 1
    by_cases h : pattern e = path
    · rw [List.count_filter (by simpa using h)]
      simp [h]
    · have hnot : e ∉ entries.filter fun e => pattern e = path := by simp [h]
      rw [List.count_eq_zero.mpr hnot]
      simp [Ne.symm h]

/-- An entry is collected as often as the walk comes by its pattern, times as often as it is
stored. -/
lemma Stores.count_collect_eq_mul {pattern : α → List κ} {tree : PrefixTree κ α}
    {entries : List α} (h : Stores pattern tree entries) (topic : List κ) (e : α) :
    (W.collect tree topic).count e = (W.routes topic).count (pattern e) * entries.count e := by
  have hvalues : tree.valuesAt = fun path => entries.filter fun e => pattern e = path :=
    funext h
  rw [collect, hvalues, count_flatMap_filter]

/-- How often an element stands in a list of copies of others. -/
lemma count_flatMap_replicate (n : α → ℕ) (extra : List α) (x : α) :
    (extra.flatMap fun e => List.replicate (n e) e).count x = n x * extra.count x := by
  induction extra with
  | nil => simp
  | cons e extra ih =>
    rw [List.flatMap_cons, List.count_append, ih, List.count_cons, Nat.mul_add, Nat.add_comm]
    congr 1
    rcases eq_or_ne e x with rfl | hne
    · simp
    · simp [List.count_replicate, hne]

/-- **Storing more entries**, the walk collects each of them as often as it meets its pattern, and
the others as before. -/
theorem Stores.collect_perm_append {pattern : α → List κ} {tree tree' : PrefixTree κ α}
    {entries entries' extra : List α} (h : Stores pattern tree entries)
    (h' : Stores pattern tree' entries') (hentries : entries'.Perm (entries ++ extra))
    (topic : List κ) :
    (W.collect tree' topic).Perm (W.collect tree topic ++
      extra.flatMap fun e => List.replicate (W.arrivals (pattern e) topic) e) := by
  rw [List.perm_iff_count]
  intro x
  rw [h'.count_collect_eq_mul, List.count_append, h.count_collect_eq_mul, hentries.count_eq,
    List.count_append, Nat.mul_add, count_flatMap_replicate]
  rfl

/-- **Collecting is exact.**  Along a topic without wildcards, an entry whose pattern matches is
collected as often as it is stored, and one whose pattern does not match never. -/
theorem Stores.count_collect {pattern : α → List κ} {tree : PrefixTree κ α} {entries : List α}
    (h : Stores pattern tree entries) {topic : List κ} (hne : topic ≠ []) (htopic : W.Plain topic)
    {e : α} (he : W.HashLast (pattern e)) :
    (W.collect tree topic).count e =
      if W.Matches (pattern e) topic then entries.count e else 0 := by
  rw [h.count_collect_eq_mul, W.count_routes hne htopic he]
  by_cases hm : W.Matches (pattern e) topic = true
  · simp [hm]
  · simp [hm]

/-- **Collecting twice.**  Along any topic, no entry is collected more often than it is stored if
and only if the walk reaches no entry whose pattern shares a wildcard with the topic. -/
theorem Stores.count_collect_le_iff {pattern : α → List κ} {tree : PrefixTree κ α}
    {entries : List α} (h : Stores pattern tree entries) (topic : List κ) :
    (∀ e, (W.collect tree topic).count e ≤ entries.count e) ↔
      ∀ e ∈ entries, ¬(W.Reaches (pattern e) topic = true ∧ 0 < W.shared (pattern e) topic) := by
  constructor
  · intro hle e he htwice
    have hmany := (W.one_lt_count_routes_iff topic (pattern e)).mpr htwice
    have hpos := List.count_pos_iff.mpr he
    have hone := hle e
    rw [h.count_collect_eq_mul] at hone
    have hmul : 2 * entries.count e ≤ (W.routes topic).count (pattern e) * entries.count e :=
      Nat.mul_le_mul_right _ hmany
    omega
  · intro honce e
    rw [h.count_collect_eq_mul]
    by_cases he : e ∈ entries
    · have hle : (W.routes topic).count (pattern e) ≤ 1 :=
        Nat.le_of_not_lt fun hmany =>
          honce e he ((W.one_lt_count_routes_iff topic (pattern e)).mp hmany)
      calc (W.routes topic).count (pattern e) * entries.count e
          ≤ 1 * entries.count e := Nat.mul_le_mul_right _ hle
        _ = entries.count e := Nat.one_mul _
    · have hzero : entries.count e = 0 := List.count_eq_zero.mpr he
      exact Nat.le_of_eq (by rw [hzero, Nat.mul_zero])

/-- If `hash` stands at the end of the patterns only, the entries collected along a topic without
wildcards are those whose patterns match. -/
theorem Stores.collect_perm {pattern : α → List κ} {tree : PrefixTree κ α} {entries : List α}
    (h : Stores pattern tree entries) (hentries : ∀ e ∈ entries, W.HashLast (pattern e))
    {topic : List κ} (hne : topic ≠ []) (htopic : W.Plain topic) :
    (W.collect tree topic).Perm (entries.filter fun e => W.Matches (pattern e) topic) := by
  rw [List.perm_iff_count]
  intro e
  by_cases he : e ∈ entries
  · rw [h.count_collect W hne htopic (hentries e he)]
    by_cases hm : W.Matches (pattern e) topic = true
    · have hcount : (entries.filter fun e => W.Matches (pattern e) topic).count e =
          entries.count e := List.count_filter hm
      rw [if_pos hm, hcount]
    · have hnot : e ∉ entries.filter fun e => W.Matches (pattern e) topic := by simp [hm]
      rw [if_neg hm, List.count_eq_zero.mpr hnot]
  · have hcollect : e ∉ W.collect tree topic := fun hmem => he (h.mem_of_mem_collect W hmem)
    have hfilter : e ∉ entries.filter fun e => W.Matches (pattern e) topic :=
      fun hmem => he (List.mem_of_mem_filter hmem)
    rw [List.count_eq_zero.mpr hcollect, List.count_eq_zero.mpr hfilter]

end Wildcards
