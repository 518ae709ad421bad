import Mathlib.Data.List.Nodup

/-!
# Prefix trees

A prefix tree over keys `κ` stores a list of values at every node; a node is named by the
path of keys that leads to it.  `valuesAt` reads the values at a path, `alterAt` changes the
node at a path (creating the nodes on the way) and `filterValues` filters the values of every
node.

The laws say what `valuesAt` returns after each update, so that a user of the tree never
unfolds it: `valuesAt_pushAt` and `valuesAt_filterValues`.  `Distinct` says that no node has
two children under one key, the invariant under which the children form a finite map and
`valuesAt` sees every stored value (`mem_allValues_iff`).
-/

universe u v w

/-! ## Association lists -/

namespace AssocList

variable {κ : Type u} {β : Type v} [DecidableEq κ]

/-- Replace the value stored under `k`, or add an entry for `k` at the end. -/
def set (k : κ) (b : β) : List (κ × β) → List (κ × β)
  | [] => [(k, b)]
  | e :: es => if e.1 = k then (k, b) :: es else e :: set k b es

/-- Looking up a key in a non-empty list tries the first entry, then the others. -/
lemma lookup_cons_eq_ite (k : κ) (e : κ × β) (es : List (κ × β)) :
    (e :: es).lookup k = if k = e.1 then some e.2 else es.lookup k := by
  rw [List.lookup_cons]
  by_cases h : k = e.1
  · simp [h]
  · have hbeq : (k == e.1) = false := by simpa using h
    rw [hbeq, if_neg h]

/-- Looking up the key that was set gives the value it was set to. -/
@[simp] lemma lookup_set_self (k : κ) (b : β) (es : List (κ × β)) :
    (set k b es).lookup k = some b := by
  induction es with
  | nil => simp [set]
  | cons e es ih =>
    by_cases h : e.1 = k
    · simp [set, h]
    · rw [set, if_neg h, lookup_cons_eq_ite, if_neg (Ne.symm h), ih]

/-- Looking up any other key is not affected. -/
lemma lookup_set_of_ne {k k' : κ} (h : k' ≠ k) (b : β) (es : List (κ × β)) :
    (set k b es).lookup k' = es.lookup k' := by
  induction es with
  | nil => rw [set, lookup_cons_eq_ite, if_neg h]
  | cons e es ih =>
    by_cases he : e.1 = k
    · have hne : k' ≠ e.1 := fun h' => h (h'.trans he)
      rw [set, if_pos he, lookup_cons_eq_ite, lookup_cons_eq_ite, if_neg h, if_neg hne]
    · rw [set, if_neg he, lookup_cons_eq_ite, lookup_cons_eq_ite, ih]

/-- A key of the updated list is the key that was set or a key of the list before. -/
lemma mem_keys_set {k k' : κ} {b : β} {es : List (κ × β)}
    (h : k' ∈ (set k b es).map Prod.fst) : k' = k ∨ k' ∈ es.map Prod.fst := by
  induction es with
  | nil => simpa [set] using h
  | cons e es ih =>
    by_cases he : e.1 = k
    · rw [set, if_pos he, List.map_cons, List.mem_cons] at h
      exact h.imp id fun h' => List.mem_cons_of_mem _ h'
    · rw [set, if_neg he, List.map_cons, List.mem_cons] at h
      rcases h with rfl | h
      · exact Or.inr (by simp)
      · exact (ih h).imp id fun h' => List.mem_cons_of_mem _ h'

/-- Setting a key keeps the keys distinct. -/
lemma nodup_keys_set {k : κ} {b : β} {es : List (κ × β)} (h : (es.map Prod.fst).Nodup) :
    ((set k b es).map Prod.fst).Nodup := by
  induction es with
  | nil => simp [set]
  | cons e es ih =>
    rw [List.map_cons, List.nodup_cons] at h
    by_cases he : e.1 = k
    · rw [set, if_pos he, List.map_cons, List.nodup_cons, ← he]
      exact h
    · rw [set, if_neg he, List.map_cons, List.nodup_cons]
      refine ⟨fun hmem => ?_, ih h.2⟩
      rcases mem_keys_set hmem with hk | hk
      · exact he hk
      · exact h.1 hk

/-- A stored value is the one that was set or was stored before. -/
lemma mem_set {k : κ} {b : β} {es : List (κ × β)} {e : κ × β} (h : e ∈ set k b es) :
    e = (k, b) ∨ e ∈ es := by
  induction es with
  | nil => simpa [set] using h
  | cons a es ih =>
    by_cases ha : a.1 = k
    · rw [set, if_pos ha, List.mem_cons] at h
      exact h.imp id fun h' => List.mem_cons_of_mem _ h'
    · rw [set, if_neg ha, List.mem_cons] at h
      rcases h with rfl | h
      · exact Or.inr (by simp)
      · exact (ih h).imp id fun h' => List.mem_cons_of_mem _ h'

/-- What is found under a key is stored in the list. -/
lemma mem_of_lookup_eq_some {k : κ} {b : β} {es : List (κ × β)} (h : es.lookup k = some b) :
    (k, b) ∈ es := by
  induction es with
  | nil => simp at h
  | cons e es ih =>
    rw [lookup_cons_eq_ite] at h
    by_cases he : k = e.1
    · rw [if_pos he] at h
      have heq : e = (k, b) := Prod.ext he.symm (Option.some.inj h)
      exact heq ▸ List.mem_cons_self
    · rw [if_neg he] at h
      exact List.mem_cons_of_mem _ (ih h)

/-- With distinct keys every stored entry is the one that is found under its key. -/
lemma lookup_eq_some_of_mem {k : κ} {b : β} {es : List (κ × β)} (hd : (es.map Prod.fst).Nodup)
    (h : (k, b) ∈ es) : es.lookup k = some b := by
  induction es with
  | nil => simp at h
  | cons e es ih =>
    rw [List.map_cons, List.nodup_cons] at hd
    rcases List.mem_cons.mp h with rfl | h
    · simp
    · have hne : k ≠ e.1 := by
        rintro rfl
        exact hd.1 (List.mem_map.mpr ⟨(e.1, b), h, rfl⟩)
      rw [lookup_cons_eq_ite, if_neg hne]
      exact ih hd.2 h

end AssocList

/-! ## Prefix trees -/

/-- A prefix tree: the children of a node by key, and the values stored at the node. -/
inductive PrefixTree (κ : Type u) (α : Type v) where
  | node (children : List (κ × PrefixTree κ α)) (values : List α)

namespace PrefixTree

variable {κ : Type u} {α : Type v}

/-- The tree that stores nothing. -/
def empty : PrefixTree κ α := .node [] []

instance : Inhabited (PrefixTree κ α) := ⟨empty⟩

/-- The children of the root, by key. -/
def children : PrefixTree κ α → List (κ × PrefixTree κ α)
  | .node cs _ => cs

/-- The values stored at the root. -/
def values : PrefixTree κ α → List α
  | .node _ vs => vs

@[simp] lemma children_node (cs : List (κ × PrefixTree κ α)) (vs : List α) :
    (node cs vs).children = cs := rfl

@[simp] lemma values_node (cs : List (κ × PrefixTree κ α)) (vs : List α) :
    (node cs vs).values = vs := rfl

/-- Store one more value at the root, after the others. -/
def push (a : α) : PrefixTree κ α → PrefixTree κ α
  | .node cs vs => .node cs (vs ++ [a])

@[simp] lemma children_push (a : α) (t : PrefixTree κ α) : (t.push a).children = t.children := by
  cases t; rfl

@[simp] lemma values_push (a : α) (t : PrefixTree κ α) : (t.push a).values = t.values ++ [a] := by
  cases t; rfl

section Paths

variable [DecidableEq κ]

/-- The child of the root under the key `k`, if there is one. -/
def child (t : PrefixTree κ α) (k : κ) : Option (PrefixTree κ α) := t.children.lookup k

/-- Make `c` the child of the root under the key `k`. -/
def setChild (t : PrefixTree κ α) (k : κ) (c : PrefixTree κ α) : PrefixTree κ α :=
  .node (AssocList.set k c t.children) t.values

@[simp] lemma child_setChild_self (t c : PrefixTree κ α) (k : κ) :
    (t.setChild k c).child k = some c := AssocList.lookup_set_self k c t.children

lemma child_setChild_of_ne (t c : PrefixTree κ α) {k k' : κ} (h : k' ≠ k) :
    (t.setChild k c).child k' = t.child k' := AssocList.lookup_set_of_ne h c t.children

@[simp] lemma values_setChild (t c : PrefixTree κ α) (k : κ) :
    (t.setChild k c).values = t.values := rfl

@[simp] lemma child_push (a : α) (t : PrefixTree κ α) (k : κ) :
    (t.push a).child k = t.child k := by rw [child, children_push, child]

/-- The values stored at the node the path leads to; none if there is no such node. -/
def valuesAt : PrefixTree κ α → List κ → List α
  | t, [] => t.values
  | t, k :: path => ((t.child k).map fun c => valuesAt c path).getD []

@[simp] lemma valuesAt_nil (t : PrefixTree κ α) : t.valuesAt [] = t.values := by rw [valuesAt]

lemma valuesAt_cons (t : PrefixTree κ α) (k : κ) (path : List κ) :
    t.valuesAt (k :: path) = ((t.child k).map fun c => c.valuesAt path).getD [] := by
  rw [valuesAt]

/-- Below a missing child nothing is stored. -/
lemma valuesAt_cons_of_child_eq_none {t : PrefixTree κ α} {k : κ} (h : t.child k = none)
    (path : List κ) : t.valuesAt (k :: path) = [] := by simp [valuesAt_cons, h]

/-- Below a child the path goes on in the child. -/
lemma valuesAt_cons_of_child_eq_some {t c : PrefixTree κ α} {k : κ} (h : t.child k = some c)
    (path : List κ) : t.valuesAt (k :: path) = c.valuesAt path := by simp [valuesAt_cons, h]

/-- The empty tree stores nothing anywhere. -/
@[simp] lemma valuesAt_empty (path : List κ) : (empty : PrefixTree κ α).valuesAt path = [] := by
  cases path with
  | nil => rw [valuesAt_nil]; rfl
  | cons k path => exact valuesAt_cons_of_child_eq_none rfl path

/-- Apply `f` to the node the path leads to, creating the nodes on the way that are missing. -/
def alterAt (f : PrefixTree κ α → PrefixTree κ α) : PrefixTree κ α → List κ → PrefixTree κ α
  | t, [] => f t
  | t, k :: path => t.setChild k (alterAt f ((t.child k).getD empty) path)

/-- Storing a value at the node of a path adds it there and changes no other node. -/
lemma valuesAt_alterAt_push (a : α) (t : PrefixTree κ α) (path q : List κ) :
    (alterAt (push a) t path).valuesAt q =
      if q = path then t.valuesAt path ++ [a] else t.valuesAt q := by
  induction path generalizing t q with
  | nil =>
    cases q with
    | nil => simp [alterAt]
    | cons k q => simp [alterAt, valuesAt_cons]
  | cons k path ih =>
    cases q with
    | nil => simp [alterAt]
    | cons k' q =>
      have hchild : ((t.child k).getD empty).valuesAt = fun p => t.valuesAt (k :: p) := by
        funext p
        cases h : t.child k with
        | none => simp [valuesAt_cons_of_child_eq_none h]
        | some c => simp [valuesAt_cons_of_child_eq_some h]
      rcases eq_or_ne k' k with rfl | hk
      · rw [alterAt, valuesAt_cons_of_child_eq_some (child_setChild_self ..), ih, hchild]
        simp
      · rw [alterAt, valuesAt_cons, child_setChild_of_ne _ _ hk, ← valuesAt_cons]
        simp [hk]

end Paths

/-! ### Filtering every node -/

mutual

/-- Keep, at every node of the tree, the values that satisfy `p`. -/
def filterValues (p : α → Bool) : PrefixTree κ α → PrefixTree κ α
  | .node cs vs => .node (filterChildren p cs) (vs.filter p)

/-- Keep, at every node of the children, the values that satisfy `p`. -/
def filterChildren (p : α → Bool) : List (κ × PrefixTree κ α) → List (κ × PrefixTree κ α)
  | [] => []
  | (k, c) :: cs => (k, filterValues p c) :: filterChildren p cs

end

@[simp] lemma values_filterValues (p : α → Bool) (t : PrefixTree κ α) :
    (filterValues p t).values = t.values.filter p := by
  cases t; rfl

@[simp] lemma children_filterValues (p : α → Bool) (t : PrefixTree κ α) :
    (filterValues p t).children = filterChildren p t.children := by
  cases t; rfl

/-- Filtering the children filters each of them under its own key. -/
lemma filterChildren_eq_map (p : α → Bool) (cs : List (κ × PrefixTree κ α)) :
    filterChildren p cs = cs.map fun e => (e.1, filterValues p e.2) := by
  induction cs with
  | nil => rfl
  | cons e cs ih => rw [filterChildren, ih, List.map_cons]

section Paths

variable [DecidableEq κ]

/-- The child of a filtered tree is the filtered child. -/
lemma child_filterValues (p : α → Bool) (t : PrefixTree κ α) (k : κ) :
    (filterValues p t).child k = (t.child k).map (filterValues p) := by
  rw [child, children_filterValues, filterChildren_eq_map, child]
  induction t.children with
  | nil => rfl
  | cons e cs ih =>
    rw [List.map_cons, AssocList.lookup_cons_eq_ite, AssocList.lookup_cons_eq_ite]
    by_cases h : k = e.1
    · rw [if_pos h, if_pos h, Option.map_some]
    · rw [if_neg h, if_neg h, ih]

/-- At every path the filtered tree stores the filtered values, in their order. -/
theorem valuesAt_filterValues (p : α → Bool) (t : PrefixTree κ α) (path : List κ) :
    (filterValues p t).valuesAt path = (t.valuesAt path).filter p := by
  induction path generalizing t with
  | nil => simp
  | cons k path ih =>
    rw [valuesAt_cons, child_filterValues, valuesAt_cons]
    cases t.child k with
    | none => rfl
    | some c => simpa using ih c

end Paths

/-! ### The stored values, and distinct keys -/

mutual

/-- All the values the tree stores, node by node. -/
def allValues : PrefixTree κ α → List α
  | .node cs vs => vs ++ allValuesOf cs

/-- All the values the children store. -/
def allValuesOf : List (κ × PrefixTree κ α) → List α
  | [] => []
  | (_, c) :: cs => allValues c ++ allValuesOf cs

end

mutual

/-- No node of the tree has two children under one key. -/
def Distinct : PrefixTree κ α → Prop
  | .node cs _ => (cs.map Prod.fst).Nodup ∧ DistinctAll cs

/-- Every child is a tree with distinct keys. -/
def DistinctAll : List (κ × PrefixTree κ α) → Prop
  | [] => True
  | (_, c) :: cs => Distinct c ∧ DistinctAll cs

end

/-- The children have distinct keys when each of them has. -/
lemma distinctAll_iff (cs : List (κ × PrefixTree κ α)) :
    DistinctAll cs ↔ ∀ e ∈ cs, Distinct e.2 := by
  induction cs with
  | nil => simp [DistinctAll]
  | cons e cs ih => simp [DistinctAll, ih]

/-- A tree has distinct keys when its root has and its children have. -/
lemma distinct_iff (t : PrefixTree κ α) :
    t.Distinct ↔ (t.children.map Prod.fst).Nodup ∧ ∀ e ∈ t.children, e.2.Distinct := by
  cases t
  rw [Distinct, distinctAll_iff, children_node]

/-- The empty tree has distinct keys. -/
lemma distinct_empty : (empty : PrefixTree κ α).Distinct := by
  rw [distinct_iff]
  exact ⟨List.nodup_nil, fun e he => absurd he List.not_mem_nil⟩

/-- A child is smaller than the node it hangs below. -/
lemma sizeOf_child_lt {cs : List (κ × PrefixTree κ α)} {e : κ × PrefixTree κ α} (h : e ∈ cs)
    (vs : List α) : sizeOf e.2 < sizeOf (node cs vs) := by
  have hmem := List.sizeOf_lt_of_mem h
  have hsnd : sizeOf e.2 < sizeOf e := by
    obtain ⟨k, c⟩ := e
    simp
  rw [node.sizeOf_spec]
  omega

/-- Storing a value at the root does not touch the keys. -/
lemma Distinct.push {t : PrefixTree κ α} (h : t.Distinct) (a : α) : (t.push a).Distinct := by
  rw [distinct_iff] at h ⊢
  simpa using h

/-- Filtering the values does not touch the keys. -/
theorem Distinct.filterValues {t : PrefixTree κ α} (h : t.Distinct) (p : α → Bool) :
    (PrefixTree.filterValues p t).Distinct := by
  match t, h with
  | .node cs vs, h =>
    rw [distinct_iff] at h ⊢
    rw [children_filterValues, filterChildren_eq_map, List.map_map]
    refine ⟨by simpa [Function.comp_def] using h.1, fun e he => ?_⟩
    obtain ⟨e', he', rfl⟩ := List.mem_map.mp he
    exact (h.2 e' he').filterValues p
termination_by sizeOf t
decreasing_by exact sizeOf_child_lt he' vs

/-- A value below one of the children is one of the values of the children. -/
lemma mem_allValuesOf_iff {cs : List (κ × PrefixTree κ α)} {a : α} :
    a ∈ allValuesOf cs ↔ ∃ e ∈ cs, a ∈ e.2.allValues := by
  induction cs with
  | nil => simp [allValuesOf]
  | cons e cs ih => simp [allValuesOf, ih]

section Paths

variable [DecidableEq κ]

/-- A child of a tree with distinct keys has distinct keys. -/
lemma Distinct.child {t c : PrefixTree κ α} (h : t.Distinct) {k : κ} (hc : t.child k = some c) :
    c.Distinct :=
  ((distinct_iff t).mp h).2 (k, c) (AssocList.mem_of_lookup_eq_some hc)

/-- Replacing a child by a tree with distinct keys keeps the keys distinct. -/
lemma Distinct.setChild {t c : PrefixTree κ α} (h : t.Distinct) (k : κ) (hc : c.Distinct) :
    (t.setChild k c).Distinct := by
  rw [distinct_iff] at h ⊢
  refine ⟨AssocList.nodup_keys_set h.1, fun e he => ?_⟩
  rcases AssocList.mem_set he with rfl | he
  · exact hc
  · exact h.2 e he

/-- Changing the node of a path keeps the keys distinct if the change does. -/
theorem Distinct.alterAt {f : PrefixTree κ α → PrefixTree κ α}
    (hf : ∀ t : PrefixTree κ α, t.Distinct → (f t).Distinct) {t : PrefixTree κ α}
    (h : t.Distinct) (path : List κ) : (PrefixTree.alterAt f t path).Distinct := by
  induction path generalizing t with
  | nil => exact hf t h
  | cons k path ih =>
    have hchild : ((t.child k).getD empty).Distinct := by
      cases hc : t.child k with
      | none => exact distinct_empty
      | some c => exact h.child hc
    exact h.setChild k (ih hchild)

/-- What is stored at a path is stored in the tree. -/
lemma mem_allValues_of_mem_valuesAt {t : PrefixTree κ α} {path : List κ} {a : α}
    (h : a ∈ t.valuesAt path) : a ∈ t.allValues := by
  induction path generalizing t with
  | nil =>
    cases t
    rw [valuesAt_nil] at h
    exact List.mem_append_left _ h
  | cons k path ih =>
    cases hc : t.child k with
    | none => rw [valuesAt_cons_of_child_eq_none hc] at h; cases h
    | some c =>
      rw [valuesAt_cons_of_child_eq_some hc] at h
      have hmem := AssocList.mem_of_lookup_eq_some hc
      cases t
      exact List.mem_append_right _ (mem_allValuesOf_iff.mpr ⟨(k, c), hmem, ih h⟩)

/-- With distinct keys every stored value is stored at some path: no node is hidden. -/
theorem mem_allValues_iff {t : PrefixTree κ α} (hd : t.Distinct) {a : α} :
    a ∈ t.allValues ↔ ∃ path, a ∈ t.valuesAt path := by
  refine ⟨fun h => ?_, fun ⟨path, h⟩ => mem_allValues_of_mem_valuesAt h⟩
  match t, hd, h with
  | .node cs vs, hd, h =>
    rcases List.mem_append.mp h with h | h
    · exact ⟨[], by simpa using h⟩
    · obtain ⟨e, he, ha⟩ := mem_allValuesOf_iff.mp h
      have hroot := (distinct_iff _).mp hd
      obtain ⟨path, hpath⟩ := (mem_allValues_iff (hroot.2 e he)).mp ha
      have hlookup : (node cs vs).child e.1 = some e.2 :=
        AssocList.lookup_eq_some_of_mem hroot.1 he
      exact ⟨e.1 :: path, by rwa [valuesAt_cons_of_child_eq_some hlookup]⟩
termination_by sizeOf t
decreasing_by exact sizeOf_child_lt he vs

end Paths

/-! ### The nodes -/

mutual

/-- The paths of all nodes of the tree, the root first. -/
def paths : PrefixTree κ α → List (List κ)
  | .node cs _ => [] :: pathsOf cs

/-- The paths of all nodes of the children. -/
def pathsOf : List (κ × PrefixTree κ α) → List (List κ)
  | [] => []
  | (k, c) :: cs => c.paths.map (k :: ·) ++ pathsOf cs

end

/-- A path below the children is a key, and a path of the child under it. -/
lemma mem_pathsOf_iff {cs : List (κ × PrefixTree κ α)} {q : List κ} :
    q ∈ pathsOf cs ↔ ∃ e ∈ cs, ∃ path ∈ e.2.paths, e.1 :: path = q := by
  induction cs with
  | nil => simp [pathsOf]
  | cons e cs ih => simp [pathsOf, ih]

/-- With distinct keys no node has two paths. -/
theorem nodup_paths {t : PrefixTree κ α} (hd : t.Distinct) : t.paths.Nodup := by
  match t, hd with
  | .node cs vs, hd =>
    obtain ⟨hkeys, hchildren⟩ := (distinct_iff _).mp hd
    have hbelow : ∀ es : List (κ × PrefixTree κ α), (es.map Prod.fst).Nodup →
        (∀ e ∈ es, e ∈ cs) → (pathsOf es).Nodup := by
      intro es hnodup hes
      induction es with
      | nil => exact List.nodup_nil
      | cons e es ih =>
        rw [List.map_cons, List.nodup_cons] at hnodup
        have he : e ∈ cs := hes e List.mem_cons_self
        have hpaths : e.2.paths.Nodup := nodup_paths (hchildren e he)
        have hrest := ih hnodup.2 fun e' he' => hes e' (List.mem_cons_of_mem e he')
        rw [pathsOf, List.nodup_append]
        refine ⟨hpaths.map fun _ _ h => (List.cons.inj h).2, hrest, ?_⟩
        rintro q hq q' hq' rfl
        obtain ⟨path, -, rfl⟩ := List.mem_map.mp hq
        obtain ⟨e', he', path', -, heq⟩ := mem_pathsOf_iff.mp hq'
        apply hnodup.1
        rw [← (List.cons.inj heq).1]
        exact List.mem_map_of_mem he'
    rw [paths, List.nodup_cons]
    refine ⟨fun hnil => ?_, hbelow cs hkeys fun e he => he⟩
    obtain ⟨e, -, path, -, heq⟩ := mem_pathsOf_iff.mp hnil
    cases heq
termination_by sizeOf t
decreasing_by exact sizeOf_child_lt he vs

section Paths

variable [DecidableEq κ]

/-- The path leads to a node. -/
def HasNode : PrefixTree κ α → List κ → Prop
  | _, [] => True
  | t, k :: path => ∃ c, t.child k = some c ∧ c.HasNode path

@[simp] lemma hasNode_nil (t : PrefixTree κ α) : t.HasNode [] := trivial

lemma hasNode_cons (t : PrefixTree κ α) (k : κ) (path : List κ) :
    t.HasNode (k :: path) ↔ ∃ c, t.child k = some c ∧ c.HasNode path := Iff.rfl

/-- The empty tree has only a root. -/
lemma hasNode_empty_iff {path : List κ} :
    (empty : PrefixTree κ α).HasNode path ↔ path = [] := by
  cases path with
  | nil => simp
  | cons k path => simp [hasNode_cons, child, empty]

/-- Storing a value at the node of a path adds the nodes on the way and no others. -/
theorem hasNode_alterAt_push (a : α) (t : PrefixTree κ α) (path q : List κ) :
    (alterAt (push a) t path).HasNode q ↔ t.HasNode q ∨ q <+: path := by
  induction path generalizing t q with
  | nil =>
    cases q with
    | nil => simp
    | cons k q => simp [alterAt, hasNode_cons]
  | cons k path ih =>
    cases q with
    | nil => simp
    | cons k' q =>
      rw [alterAt, hasNode_cons, hasNode_cons]
      rcases eq_or_ne k' k with rfl | hk
      · cases hc : t.child k' with
        | none =>
          have hnil : q = [] → q <+: path := fun h => h ▸ List.nil_prefix
          simpa [ih, hasNode_empty_iff] using hnil
        | some c => simp [ih]
      · rw [child_setChild_of_ne _ _ hk]
        simp [hk]

/-- Filtering the values keeps every node. -/
theorem hasNode_filterValues (p : α → Bool) (t : PrefixTree κ α) (path : List κ) :
    (filterValues p t).HasNode path ↔ t.HasNode path := by
  induction path generalizing t with
  | nil => simp
  | cons k path ih =>
    rw [hasNode_cons, child_filterValues, hasNode_cons]
    cases t.child k with
    | none => simp
    | some c => simp [ih]

/-- With distinct keys the listed paths are those that lead to a node. -/
theorem mem_paths_iff {t : PrefixTree κ α} (hd : t.Distinct) {path : List κ} :
    path ∈ t.paths ↔ t.HasNode path := by
  induction path generalizing t with
  | nil =>
    cases t
    simp [paths]
  | cons k path ih =>
    obtain ⟨hkeys, hchildren⟩ := (distinct_iff _).mp hd
    have hpaths : k :: path ∈ t.paths ↔ k :: path ∈ pathsOf t.children := by
      cases t
      simp [paths]
    rw [hpaths, mem_pathsOf_iff, hasNode_cons]
    constructor
    · rintro ⟨e, he, path', hpath, heq⟩
      obtain ⟨rfl, rfl⟩ := List.cons.inj heq
      exact ⟨e.2, AssocList.lookup_eq_some_of_mem hkeys he, (ih (hchildren e he)).mp hpath⟩
    · rintro ⟨c, hc, hnode⟩
      have he := AssocList.mem_of_lookup_eq_some hc
      exact ⟨(k, c), he, path, (ih (hchildren _ he)).mpr hnode, rfl⟩

end Paths

end PrefixTree
