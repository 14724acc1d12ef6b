import Mathlib.Data.List.Perm.Basic
import ChunkHound.OrderedDict

/-!
# Grouping by a key

A dictionary of lists, filled one item at a time : `groupBy key xs` lists the keys of `xs`
in the order they first appear, each with the items that have it (`valuesOf_groupBy`).
Going through any of the keys, in whatever order, and joining their groups gives the items
with such a key up to order (`flatMap_valuesOf_perm`).
-/

namespace Grouping

variable {α κ : Type*} [DecidableEq κ]

/-- Append an item to the list of its key, which starts empty. -/
def appendTo (k : κ) (x : α) : List (κ × List α) → List (κ × List α)
  | [] => [(k, [x])]
  | (k', xs) :: rest =>
    if k' = k then (k', xs ++ [x]) :: rest else (k', xs) :: appendTo k x rest

/-- The items by key. -/
def groupBy (key : α → κ) (xs : List α) : List (κ × List α) :=
  xs.foldl (fun d x => appendTo (key x) x d) []

/-- The keys of a dictionary. -/
def keysOf (d : List (κ × List α)) : List κ := d.map Prod.fst

/-- The list stored for a key. -/
def valuesOf (d : List (κ × List α)) (k : κ) : List α := (d.lookup k).getD []

/-- Appending an item alters the list of its key. -/
theorem appendTo_eq_alter (k : κ) (x : α) : ∀ d : List (κ × List α),
    appendTo k x d = OrderedDict.alter (fun xs => xs.getD [] ++ [x]) k d
  | [] => rfl
  | (k', xs) :: rest => by
    unfold appendTo OrderedDict.alter
    rw [appendTo_eq_alter k x rest, Option.getD_some]

theorem valuesOf_appendTo (k : κ) (x : α) (d : List (κ × List α)) (k' : κ) :
    valuesOf (appendTo k x d) k' = valuesOf d k' ++ if k = k' then [x] else [] := by
  unfold valuesOf
  rw [appendTo_eq_alter, OrderedDict.lookup_alter]
  by_cases h : k' = k
  · simp [h]
  · simp [h, Ne.symm h]

variable {d : List (κ × List α)}

theorem mem_keysOf_appendTo {k k' : κ} {x : α} :
    k' ∈ keysOf (appendTo k x d) ↔ k' ∈ keysOf d ∨ k' = k := by
  rw [appendTo_eq_alter]
  exact OrderedDict.mem_keys_alter

theorem nodup_keysOf_appendTo {k : κ} {x : α} (h : (keysOf d).Nodup) :
    (keysOf (appendTo k x d)).Nodup := by
  rw [appendTo_eq_alter]
  exact OrderedDict.nodup_keys_alter h

variable {β : Type*}

/-- Mapping the items keeps the keys. -/
theorem appendTo_map (f : α → β) (k : κ) (x : α) :
    ∀ d : List (κ × List α), appendTo k (f x) (d.map fun p => (p.1, p.2.map f)) =
      (appendTo k x d).map fun p => (p.1, p.2.map f)
  | [] => rfl
  | (k₀, xs) :: rest => by
    have ih := appendTo_map f k x rest
    unfold appendTo
    rw [List.map_cons]
    by_cases h₀ : k₀ = k
    · simp [h₀]
    · simp [h₀, ih]

section GroupBy

variable (key : α → κ)

theorem groupBy_append (xs : List α) (x : α) :
    groupBy key (xs ++ [x]) = appendTo (key x) x (groupBy key xs) := by
  rw [groupBy, List.foldl_append]
  rfl

theorem keysOf_groupBy_map {β : Type*} (key' : β → κ) (f : α → β) (h : ∀ x, key' (f x) = key x)
    (xs : List α) : keysOf (groupBy key' (xs.map f)) = keysOf (groupBy key xs) := by
  have hmap : groupBy key' (xs.map f) =
      (groupBy key xs).map fun p => (p.1, p.2.map f) := by
    induction xs using List.reverseRecOn with
    | nil => rfl
    | append_singleton xs x ih =>
      rw [List.map_append, List.map_singleton, groupBy_append, groupBy_append, ih, h,
        appendTo_map]
  rw [hmap, keysOf, keysOf, List.map_map]
  rfl

/-- The group of a key is the items with the key, in order. -/
theorem valuesOf_groupBy (xs : List α) (k : κ) :
    valuesOf (groupBy key xs) k = xs.filter (key · = k) := by
  induction xs using List.reverseRecOn with
  | nil => rfl
  | append_singleton xs x ih =>
    rw [groupBy_append, valuesOf_appendTo, ih, List.filter_append]
    by_cases h : key x = k
    · simp [h]
    · simp [h]

variable {xs : List α}

theorem mem_keysOf_groupBy {k : κ} :
    k ∈ keysOf (groupBy key xs) ↔ ∃ x ∈ xs, key x = k := by
  induction xs using List.reverseRecOn with
  | nil => simp [groupBy, keysOf]
  | append_singleton xs x ih =>
    rw [groupBy_append, mem_keysOf_appendTo, ih]
    constructor
    · rintro (⟨y, hy, rfl⟩ | rfl)
      · exact ⟨y, List.mem_append_left _ hy, rfl⟩
      · exact ⟨x, List.mem_append_right _ (List.mem_singleton_self x), rfl⟩
    · rintro ⟨y, hy, rfl⟩
      rcases List.mem_append.1 hy with hy | hy
      · exact Or.inl ⟨y, hy, rfl⟩
      · exact Or.inr (by rw [List.mem_singleton.1 hy])

/-- Every item is in some group. -/
theorem exists_mem_groupBy {x : α} (h : x ∈ xs) :
    ∃ group ∈ groupBy key xs, x ∈ group.2 := by
  have hx : x ∈ valuesOf (groupBy key xs) (key x) := by
    rw [valuesOf_groupBy, List.mem_filter]
    exact ⟨h, by simp⟩
  unfold valuesOf at hx
  cases hl : (groupBy key xs).lookup (key x) with
  | none => simp [hl] at hx
  | some group =>
    rw [hl] at hx
    obtain ⟨l₁, l₂, heq, -⟩ := List.lookup_eq_some_iff.1 hl
    refine ⟨(key x, group), ?_, hx⟩
    rw [heq]
    exact List.mem_append_right _ List.mem_cons_self

theorem flatMap_appendTo_perm (k : κ) (x : α) :
    ∀ d : List (κ × List α), ((appendTo k x d).flatMap (·.2)).Perm (d.flatMap (·.2) ++ [x])
  | [] => by simp [appendTo]
  | (k₀, xs) :: rest => by
    unfold appendTo
    split
    · rw [List.flatMap_cons, List.flatMap_cons, List.append_assoc, List.append_assoc]
      exact List.perm_append_comm.append_left xs
    · rw [List.flatMap_cons, List.flatMap_cons, List.append_assoc]
      exact (flatMap_appendTo_perm k x rest).append_left xs

/-- The groups share out the items. -/
theorem flatMap_groupBy_perm (xs : List α) : ((groupBy key xs).flatMap (·.2)).Perm xs := by
  induction xs using List.reverseRecOn with
  | nil => exact List.Perm.refl _
  | append_singleton xs x ih =>
    rw [groupBy_append]
    exact (flatMap_appendTo_perm (key x) x _).trans (ih.append_right [x])

theorem ne_nil_of_mem_appendTo {k : κ} {x : α} :
    ∀ {d : List (κ × List α)}, (∀ g ∈ d, g.2 ≠ []) → ∀ g ∈ appendTo k x d, g.2 ≠ []
  | [], _, g, hg => by
    rw [List.mem_singleton.1 hg]
    simp
  | (k₀, xs) :: rest, h, g, hg => by
    unfold appendTo at hg
    split at hg
    · rcases List.mem_cons.1 hg with rfl | hg
      · simp
      · exact h g (List.mem_cons_of_mem _ hg)
    · rcases List.mem_cons.1 hg with rfl | hg
      · exact h _ List.mem_cons_self
      · exact ne_nil_of_mem_appendTo (fun g hg => h g (List.mem_cons_of_mem _ hg)) g hg

/-- No group is empty. -/
theorem ne_nil_of_mem_groupBy (xs : List α) : ∀ g ∈ groupBy key xs, g.2 ≠ [] := by
  induction xs using List.reverseRecOn with
  | nil => simp [groupBy]
  | append_singleton xs x ih =>
    rw [groupBy_append]
    exact ne_nil_of_mem_appendTo ih

theorem nodup_keysOf_groupBy (xs : List α) : (keysOf (groupBy key xs)).Nodup := by
  induction xs using List.reverseRecOn with
  | nil => exact List.nodup_nil
  | append_singleton xs x ih =>
    rw [groupBy_append]
    exact nodup_keysOf_appendTo ih

/-- A group is the items with its key. -/
theorem eq_filter_of_mem_groupBy {g : κ × List α} (h : g ∈ groupBy key xs) :
    g.2 = xs.filter (key · = g.1) := by
  have hlookup : (groupBy key xs).lookup g.1 = some g.2 :=
    (OrderedDict.lookup_eq_some_iff (nodup_keysOf_groupBy key xs)).2 h
  rw [← valuesOf_groupBy, valuesOf, hlookup, Option.getD_some]

/-- Items with distinct keys are groups of their own. -/
theorem groupBy_of_nodup (h : (xs.map key).Nodup) :
    groupBy key xs = xs.map fun x => (key x, [x]) := by
  induction xs using List.reverseRecOn with
  | nil => rfl
  | append_singleton xs x ih =>
    rw [List.map_append, List.map_singleton, ← List.concat_eq_append, List.nodup_concat] at h
    have hnew : key x ∉ OrderedDict.keys (groupBy key xs) := fun hin => by
      obtain ⟨y, hy, heq⟩ := (mem_keysOf_groupBy key).1 hin
      exact h.1 (List.mem_map.2 ⟨y, hy, heq⟩)
    rw [groupBy_append, appendTo_eq_alter, OrderedDict.alter_of_not_mem hnew, ih h.2,
      List.map_append]
    rfl

end GroupBy

omit [DecidableEq κ] in
/-- What is made of the groups, one item of each at most, has their keys in their order. -/
theorem map_filterMap_sublist {f : κ × List α → Option β} {key : β → κ} :
    ∀ {d : List (κ × List α)}, (∀ g ∈ d, ∀ b, f g = some b → key b = g.1) →
      ((d.filterMap f).map key).Sublist (keysOf d)
  | [], _ => List.Sublist.refl _
  | g :: d, h => by
    have ih := map_filterMap_sublist (d := d) fun g' hg' => h g' (List.mem_cons_of_mem g hg')
    cases hg : f g with
    | none =>
      rw [List.filterMap_cons_none hg]
      exact ih.cons g.1
    | some b =>
      rw [List.filterMap_cons_some hg, List.map_cons, h g List.mem_cons_self b hg]
      exact ih.cons_cons g.1

/-- The items one of two exclusive conditions holds of, one condition at a time. -/
theorem filter_append_filter_perm {p q : α → Bool} (l : List α)
    (h : ∀ x ∈ l, p x = true → q x = false) :
    (l.filter p ++ l.filter q).Perm (l.filter fun x => p x || q x) := by
  have hsplit := List.filter_append_perm p (l.filter fun x => p x || q x)
  rw [List.filter_filter, List.filter_filter] at hsplit
  have hp : l.filter (fun x => p x && (p x || q x)) = l.filter p :=
    List.filter_congr fun x _ => by cases p x <;> simp
  have hq : l.filter (fun x => (!p x) && (p x || q x)) = l.filter q := by
    refine List.filter_congr fun x hx => ?_
    cases hpx : p x with
    | true => simp [h x hx hpx]
    | false => simp
  rwa [hp, hq] at hsplit

/-- Joining the groups of some distinct keys gives the items with one of the keys. -/
theorem flatMap_valuesOf_perm (key : α → κ) (xs : List α) :
    ∀ {ks : List κ}, ks.Nodup →
      (ks.flatMap fun k => valuesOf (groupBy key xs) k).Perm (xs.filter (key · ∈ ks))
  | [], _ => by simp
  | k :: ks, h => by
    obtain ⟨hk, hks⟩ := List.nodup_cons.1 h
    have ih := flatMap_valuesOf_perm key xs hks
    rw [List.flatMap_cons, valuesOf_groupBy]
    refine (ih.append_left _).trans ((filter_append_filter_perm xs ?_).trans ?_)
    · intro x _ hx
      rw [decide_eq_true_eq] at hx
      rw [hx, decide_eq_false_iff_not]
      exact hk
    · refine List.Perm.of_eq (List.filter_congr fun x _ => ?_)
      simp [List.mem_cons, Bool.decide_or]

/-- Two lists of entries are the same up to order when for each key they have the same items. -/
theorem perm_iff_forall_key [DecidableEq β] {l l' : List (κ × β)} :
    l.Perm l' ↔ ∀ k, ((l.filter (·.1 = k)).map Prod.snd).Perm
      ((l'.filter (·.1 = k)).map Prod.snd) := by
  have hcount : ∀ (l : List (κ × β)) k x,
      ((l.filter (·.1 = k)).map Prod.snd).count x = l.count (k, x) := by
    intro l k x
    rw [List.count_eq_countP, List.countP_map, List.countP_filter, List.count_eq_countP]
    refine List.countP_congr fun e _ => ?_
    simp [Prod.ext_iff, and_comm]
  constructor
  · exact fun h k => (h.filter _).map _
  · intro h
    refine List.perm_iff_count.2 fun (k, x) => ?_
    rw [← hcount, ← hcount, (h k).count_eq]

end Grouping
