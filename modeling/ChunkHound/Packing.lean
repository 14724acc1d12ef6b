import Mathlib

/-!
# Packing in order

Items with weights are put into bins in their order : an item goes into the last bin while its
weight is within the budget there, and opens a new one otherwise (`pack`). An item that is too heavy
for any bin has one of its own.

The bins together are the items in their order (`flatten_pack`), no bin is empty, each is within the
budget or has only one item (`fits_pack`), and there are as few as can be (`length_pack_le`).
-/

namespace Packing

variable {α : Type*} (weight : α → ℕ) (budget : ℕ)

def total (items : List α) : ℕ := (items.map weight).sum

/-- The items of the bin are within the budget, or one alone. -/
def Fits (bin : List α) : Prop := total weight bin ≤ budget ∨ ∃ x, bin = [x]

/-- The bins, from the last one that is open, which weighs `n`. -/
def packFrom : List α → ℕ → List α → List (List α)
  | bin, _, [] => if bin = [] then [] else [bin]
  | bin, n, x :: xs =>
    if budget < n + weight x ∧ bin ≠ [] then bin :: packFrom [x] (weight x) xs
    else packFrom (bin ++ [x]) (n + weight x) xs

def pack (items : List α) : List (List α) := packFrom weight budget [] 0 items

variable {weight budget}

theorem total_append (xs ys : List α) :
    total weight (xs ++ ys) = total weight xs + total weight ys := by
  rw [total, List.map_append, List.sum_append]
  rfl

theorem total_singleton (x : α) : total weight [x] = weight x := by
  simp [total]

theorem flatten_packFrom : ∀ (bin : List α) (n : ℕ) (xs : List α),
    (packFrom weight budget bin n xs).flatten = bin ++ xs
  | bin, n, [] => by
    rw [packFrom]
    split
    · rename_i h
      rw [h]
      rfl
    · simp
  | bin, n, x :: xs => by
    rw [packFrom]
    split
    · rw [List.flatten_cons, flatten_packFrom [x] (weight x) xs]
      rfl
    · rw [flatten_packFrom (bin ++ [x]) (n + weight x) xs]
      simp

theorem flatten_pack (xs : List α) : (pack weight budget xs).flatten = xs :=
  flatten_packFrom [] 0 xs

theorem ne_nil_of_mem_packFrom {bin' : List α} : ∀ {bin : List α} {n : ℕ} {xs : List α},
    bin' ∈ packFrom weight budget bin n xs → bin' ≠ []
  | bin, n, [], h => by
    rw [packFrom] at h
    split at h
    · cases h
    · rename_i hne
      rwa [List.mem_singleton.1 h]
  | bin, n, x :: xs, h => by
    rw [packFrom] at h
    split at h
    · rename_i hover
      rcases List.mem_cons.1 h with rfl | h
      · exact hover.2
      · exact ne_nil_of_mem_packFrom h
    · exact ne_nil_of_mem_packFrom h

/-- The open bin fits at every step. -/
theorem fits_packFrom {bin' : List α} : ∀ {bin : List α} {n : ℕ} {xs : List α},
    n = total weight bin → Fits weight budget bin → bin' ∈ packFrom weight budget bin n xs →
      Fits weight budget bin'
  | bin, n, [], _, hfits, h => by
    rw [packFrom] at h
    split at h
    · cases h
    · rwa [List.mem_singleton.1 h]
  | bin, n, x :: xs, hn, hfits, h => by
    rw [packFrom] at h
    split at h
    · rcases List.mem_cons.1 h with rfl | h
      · exact hfits
      · exact fits_packFrom (total_singleton x).symm (.inr ⟨x, rfl⟩) h
    · rename_i hroom
      have hn' : n + weight x = total weight (bin ++ [x]) := by
        rw [total_append, total_singleton, hn]
      refine fits_packFrom hn' ?_ h
      by_cases hbin : bin = []
      · exact .inr ⟨x, by rw [hbin]; rfl⟩
      · exact .inl (by rw [← hn']; exact not_lt.1 fun hover => hroom ⟨hover, hbin⟩)

theorem fits_pack {bin xs : List α} (h : bin ∈ pack weight budget xs) :
    bin ≠ [] ∧ Fits weight budget bin :=
  ⟨ne_nil_of_mem_packFrom h, fits_packFrom rfl (.inl (Nat.zero_le _)) h⟩

/-! ## No fewer bins -/

/-- The open bin takes a front of what comes, and the rest is packed anew. -/
theorem packFrom_cases (weight : α → ℕ) (budget : ℕ) : ∀ {bin : List α} (n : ℕ) (xs : List α),
    bin ≠ [] →
    ∃ front rest, xs = front ++ rest ∧
      packFrom weight budget bin n xs = (bin ++ front) :: pack weight budget rest
  | bin, n, [], hbin => ⟨[], [], rfl, by rw [packFrom, if_neg hbin, List.append_nil]; rfl⟩
  | bin, n, x :: xs, hbin => by
    by_cases hover : budget < n + weight x
    · refine ⟨[], x :: xs, rfl, ?_⟩
      rw [packFrom, if_pos ⟨hover, hbin⟩, List.append_nil, pack, packFrom, if_neg (by simp),
        List.nil_append, Nat.zero_add]
    · obtain ⟨front, rest, hxs, hpack⟩ := packFrom_cases weight budget (n + weight x) xs
        (show bin ++ [x] ≠ [] by simp)
      refine ⟨x :: front, rest, by rw [hxs, List.cons_append], ?_⟩
      rw [packFrom, if_neg fun h => hover h.1, hpack, List.append_assoc, List.singleton_append]

/-- What fits is taken whole. -/
theorem packFrom_append {bin : List α} {n : ℕ} : ∀ {front : List α} (rest : List α),
    n = total weight bin → Fits weight budget (bin ++ front) →
    packFrom weight budget bin n (front ++ rest) =
      packFrom weight budget (bin ++ front) (n + total weight front) rest
  | [], rest, _, _ => by
    rw [List.nil_append, List.append_nil]
    rfl
  | x :: front, rest, hn, hfits => by
    have hroom : ¬(budget < n + weight x ∧ bin ≠ []) := by
      rintro ⟨hover, hbin⟩
      rcases hfits with hle | ⟨y, hy⟩
      · rw [total_append, ← hn] at hle
        have hx : weight x ≤ total weight (x :: front) := by simp [total]
        omega
      · obtain ⟨z, zs, rfl⟩ := List.exists_cons_of_ne_nil hbin
        simp at hy
    have hn' : n + weight x = total weight (bin ++ [x]) := by
      rw [total_append, total_singleton, hn]
    have hbin : bin ++ [x] ++ front = bin ++ x :: front := by simp
    have htotal : n + weight x + total weight front = n + total weight (x :: front) := by
      simp only [total, List.map_cons, List.sum_cons]
      omega
    rw [List.cons_append, packFrom, if_neg hroom,
      packFrom_append rest hn' (by rw [hbin]; exact hfits), hbin, htotal]

theorem Fits.of_suffix {xs ys : List α} (h : Fits weight budget (xs ++ ys)) :
    Fits weight budget ys := by
  rcases h with hle | ⟨x, hx⟩
  · rw [total_append] at hle
    exact .inl (by omega)
  · rcases List.append_eq_singleton_iff.1 hx with ⟨-, rfl⟩ | ⟨-, rfl⟩
    · exact .inr ⟨x, rfl⟩
    · exact .inl (Nat.zero_le _)

/-- Whatever bins the items are put into in their order, an end of the items needs no more. -/
theorem length_pack_le_of_suffix : ∀ {bins : List (List α)} {ys : List α},
    (∀ bin ∈ bins, Fits weight budget bin) → ys <:+ bins.flatten →
      (pack weight budget ys).length ≤ bins.length
  | [], ys, _, h => by
    rw [List.flatten_nil, List.suffix_nil] at h
    rw [h]
    exact le_rfl
  | bin :: bins, ys, hfits, h => by
    have hrest : ∀ bin ∈ bins, Fits weight budget bin := fun b hb =>
      hfits b (List.mem_cons_of_mem _ hb)
    rw [List.flatten_cons] at h
    rcases List.suffix_or_suffix_of_suffix h (List.suffix_append bin bins.flatten) with h' | h'
    · exact Nat.le_succ_of_le (length_pack_le_of_suffix hrest h')
    · obtain ⟨taken, rfl⟩ := h'
      obtain ⟨before, hbefore⟩ := List.suffix_append_self_iff.1 h
      by_cases hne : taken = []
      · rw [hne, List.nil_append]
        exact Nat.le_succ_of_le (length_pack_le_of_suffix hrest (List.suffix_refl _))
      · -- the bin is taken whole, and perhaps more with it
        have htaken : Fits weight budget ([] ++ taken) :=
          Fits.of_suffix (hbefore ▸ hfits bin List.mem_cons_self)
        obtain ⟨front, rest, hflatten, hpack⟩ := packFrom_cases weight budget
          (0 + total weight taken) bins.flatten hne
        have hopen : packFrom weight budget [] 0 (taken ++ bins.flatten) =
            packFrom weight budget taken (0 + total weight taken) bins.flatten :=
          packFrom_append bins.flatten rfl htaken
        rw [pack, hopen, hpack]
        exact Nat.succ_le_succ (length_pack_le_of_suffix hrest ⟨front, hflatten.symm⟩)

/-- Whatever bins the items are put into in their order, packing needs no more. -/
theorem length_pack_le {bins : List (List α)} (h : ∀ bin ∈ bins, Fits weight budget bin) :
    (pack weight budget bins.flatten).length ≤ bins.length :=
  length_pack_le_of_suffix h (List.suffix_refl _)

end Packing
