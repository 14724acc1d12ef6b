import Mathlib.Data.List.Nodup

/-!
# Slices of a list, and lookup by key

`slices n l` cuts `l` into consecutive pieces of `n`, the last one shorter : Rust's
`l.chunks(n)` and Python's `l[i : i + n]` over `range(0, len(l), n)`. The pieces
concatenate to `l`, none is empty, and none is longer than `n`.

`exists_split_cons` is about the places where a list can be split, and `find?_key` a lookup in a
list whose keys are distinct.
-/

namespace Slices

variable {α β : Type*}

/-- `fuel` bounds the number of pieces; `l.length` is enough. -/
def slicesAux (n : ℕ) : ℕ → List α → List (List α)
  | 0, _ => []
  | _ + 1, [] => []
  | fuel + 1, a :: l => (a :: l).take n :: slicesAux n fuel ((a :: l).drop n)

/-- Consecutive pieces of `n` elements. -/
def slices (n : ℕ) (l : List α) : List (List α) :=
  slicesAux n l.length l

@[simp] theorem slices_nil (n : ℕ) : slices n ([] : List α) = [] :=
  rfl

variable {n : ℕ}

theorem flatten_slicesAux (hn : 0 < n) :
    ∀ (fuel : ℕ) (l : List α), l.length ≤ fuel → (slicesAux n fuel l).flatten = l
  | 0, l, h => by
    obtain rfl := List.length_eq_zero_iff.1 (Nat.le_zero.1 h)
    rfl
  | _ + 1, [], _ => rfl
  | fuel + 1, a :: l, h => by
    have hlen : ((a :: l).drop n).length ≤ fuel := by
      simp only [List.length_drop, List.length_cons] at h ⊢
      omega
    rw [slicesAux, List.flatten_cons, flatten_slicesAux hn fuel _ hlen, List.take_append_drop]

/-- The pieces concatenate to the list. -/
theorem flatten_slices (hn : 0 < n) (l : List α) : (slices n l).flatten = l :=
  flatten_slicesAux hn _ _ (Nat.le_refl _)

theorem flatten_take_slicesAux (hn : 0 < n) :
    ∀ (fuel k : ℕ) (l : List α), l.length ≤ fuel →
      ((slicesAux n fuel l).take k).flatten = l.take (n * k)
  | fuel, 0, l, _ => by simp
  | 0, k + 1, l, h => by
    obtain rfl := List.length_eq_zero_iff.1 (Nat.le_zero.1 h)
    simp [slicesAux]
  | _ + 1, k + 1, [], _ => by simp [slicesAux]
  | fuel + 1, k + 1, a :: l, h => by
    have hlen : ((a :: l).drop n).length ≤ fuel := by
      simp only [List.length_drop, List.length_cons] at h ⊢
      omega
    rw [slicesAux, List.take_succ_cons, List.flatten_cons,
      flatten_take_slicesAux hn fuel k _ hlen, Nat.mul_succ, Nat.add_comm, List.take_add]

/-- The first `k` pieces concatenate to a prefix. -/
theorem flatten_take_slices (hn : 0 < n) (k : ℕ) (l : List α) :
    ((slices n l).take k).flatten = l.take (n * k) :=
  flatten_take_slicesAux hn _ _ _ (Nat.le_refl _)

theorem length_le_of_mem_slicesAux :
    ∀ {fuel : ℕ} {l p : List α}, p ∈ slicesAux n fuel l → p.length ≤ n
  | 0, _, _, h => by simp [slicesAux] at h
  | _ + 1, [], _, h => by simp [slicesAux] at h
  | fuel + 1, a :: l, p, h => by
    rcases List.mem_cons.1 h with rfl | h
    · exact List.length_take_le _ _
    · exact length_le_of_mem_slicesAux h

variable {l p : List α}

theorem length_le_of_mem_slices (h : p ∈ slices n l) : p.length ≤ n :=
  length_le_of_mem_slicesAux h

theorem ne_nil_of_mem_slicesAux (hn : 0 < n) :
    ∀ {fuel : ℕ} {l p : List α}, p ∈ slicesAux n fuel l → p ≠ []
  | 0, _, _, h => by simp [slicesAux] at h
  | _ + 1, [], _, h => by simp [slicesAux] at h
  | fuel + 1, a :: l, p, h => by
    rcases List.mem_cons.1 h with rfl | h
    · obtain ⟨m, rfl⟩ := Nat.exists_eq_succ_of_ne_zero (Nat.pos_iff_ne_zero.1 hn)
      simp
    · exact ne_nil_of_mem_slicesAux hn h

theorem ne_nil_of_mem_slices (hn : 0 < n) (h : p ∈ slices n l) :
    p ≠ [] :=
  ne_nil_of_mem_slicesAux hn h

/-- The piece of a number is so far from the start of the list, and ends within it. -/
theorem add_length_le_of_mem_zipIdx_slices (hn : 0 < n) {i : ℕ}
    (h : (p, i) ∈ (slices n l).zipIdx) : n * i + p.length ≤ l.length := by
  have hget : (slices n l)[i]? = some p := List.mk_mem_zipIdx_iff_getElem?.1 h
  obtain ⟨hi, rfl⟩ := List.getElem?_eq_some_iff.1 hget
  have hpos := List.length_pos_iff.2 (ne_nil_of_mem_slices hn (List.getElem_mem hi))
  have htake := congrArg List.length (flatten_take_slices hn (i + 1) l)
  have hbefore := congrArg List.length (flatten_take_slices hn i l)
  rw [List.take_succ_eq_append_getElem hi, List.flatten_append, List.length_append,
    List.flatten_singleton, hbefore, List.length_take, List.length_take] at htake
  have hmul : n * (i + 1) = n * i + n := Nat.mul_succ n i
  omega

/-- A longer list has more than one piece. -/
theorem two_le_length_slices (hn : 0 < n) {l : List α} (h : n < l.length) :
    2 ≤ (slices n l).length := by
  have hflat := flatten_slices hn l
  have hle : ∀ p ∈ slices n l, p.length ≤ n := fun p hp => length_le_of_mem_slices hp
  cases hs : slices n l with
  | nil =>
    rw [hs] at hflat
    rw [← hflat] at h
    simp at h
  | cons p ps =>
    cases ps with
    | nil =>
      have hp := hle p (hs ▸ List.mem_singleton_self p)
      rw [hs, List.flatten_cons, List.flatten_nil, List.append_nil] at hflat
      rw [hflat] at hp
      omega
    | cons q qs => simp

/-- A list is split at its head, or behind it. -/
theorem exists_split_cons {a : α} {l : List α} {C : List α → α → Prop} :
    (∃ before x after, a :: l = before ++ x :: after ∧ C before x) ↔
      C [] a ∨ ∃ before x after, l = before ++ x :: after ∧ C (a :: before) x := by
  constructor
  · rintro ⟨before, x, after, heq, hc⟩
    cases before with
    | nil =>
      obtain ⟨rfl, rfl⟩ := List.cons.inj heq
      exact Or.inl hc
    | cons y before =>
      obtain ⟨rfl, rfl⟩ := List.cons.inj heq
      exact Or.inr ⟨before, x, after, rfl, hc⟩
  · rintro (hc | ⟨before, x, after, rfl, hc⟩)
    · exact ⟨[], a, l, rfl, hc⟩
    · exact ⟨a :: before, x, after, rfl, hc⟩

/-- With distinct keys, the entry found for a key is the one that has it. -/
theorem find?_key [DecidableEq β] {key : α → β} {l : List α} (h : (l.map key).Nodup) {a : α}
    (ha : a ∈ l) : l.find? (fun x => key x = key a) = some a := by
  cases hf : l.find? (fun x => key x = key a) with
  | none =>
    have := List.find?_eq_none.1 hf a ha
    simp at this
  | some b =>
    have hb : key b = key a := by simpa using List.find?_some hf
    rw [List.inj_on_of_nodup_map h (List.mem_of_find?_eq_some hf) ha hb]

end Slices
