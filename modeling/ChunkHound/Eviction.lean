import Mathlib
import ChunkHound.OrderedDict

/-!
# Eviction from the front

A dictionary in order of use has the entry that was used longest ago at its front. `evict` drops
entries from there as long as what is left is over a limit : what stays is the longest end that is
not (`evict_spec`). `store` puts an entry at the end, in the place of the one with its key. Where
the entries stand in an order of use and the new one is the latest, they stand in it afterwards
(`pairwise_store`).
-/

namespace Eviction

variable {α κ ν : Type*}

/-! ## Dropping from the front -/

/-- Drop the first as long as the list is over the limit. -/
def evict (exceeds : List α → Bool) : List α → List α
  | [] => []
  | x :: xs => if exceeds (x :: xs) then evict exceeds xs else x :: xs

/-- `kept` is the longest end of `d` that is not over the limit, where there is one. -/
structure LongestWithin (exceeds : List α → Bool) (d dropped kept : List α) : Prop where
  parts : d = dropped ++ kept
  within : kept = [] ∨ exceeds kept = false
  longest : ∀ front back, dropped = front ++ back → back ≠ [] → exceeds (back ++ kept) = true

theorem evict_spec (exceeds : List α → Bool) : ∀ d : List α,
    ∃ dropped, LongestWithin exceeds d dropped (evict exceeds d)
  | [] => ⟨[], rfl, .inl rfl, fun _ _ h hb => absurd (List.append_eq_nil_iff.1 h.symm).2 hb⟩
  | x :: xs => by
    unfold evict
    by_cases hexceeds : exceeds (x :: xs) = true
    · rw [if_pos hexceeds]
      obtain ⟨dropped, hparts, hwithin, hlongest⟩ := evict_spec exceeds xs
      refine ⟨x :: dropped, by rw [List.cons_append, ← hparts], hwithin, fun front back h hb => ?_⟩
      cases front with
      | nil =>
        rw [List.nil_append] at h
        rw [← h, List.cons_append, ← hparts]
        exact hexceeds
      | cons y front => exact hlongest front back (List.cons.inj h).2 hb
    · rw [if_neg hexceeds]
      exact ⟨[], rfl, .inr (by simpa using hexceeds),
        fun _ _ h hb => absurd (List.append_eq_nil_iff.1 h.symm).2 hb⟩

theorem evict_suffix (exceeds : List α → Bool) (d : List α) : evict exceeds d <:+ d := by
  obtain ⟨dropped, h⟩ := evict_spec exceeds d
  exact ⟨dropped, h.parts.symm⟩

/-- One limit after another : the longest end that is over neither, if what is over the second
stays so with more in front. -/
theorem evict_evict {exceeds exceeds' : List α → Bool} {d : List α}
    (hmono : ∀ front back, exceeds (front ++ back) = false → exceeds back = false) :
    evict exceeds' (evict exceeds d) = evict (fun d => exceeds d || exceeds' d) d := by
  induction d with
  | nil => rfl
  | cons x xs ih =>
    by_cases hexceeds : exceeds (x :: xs) = true
    · simp only [evict, hexceeds, Bool.true_or, if_true, ih]
    · have hfalse : exceeds (x :: xs) = false := by simpa using hexceeds
      have hrest : evict exceeds xs = xs := by
        cases xs with
        | nil => rfl
        | cons y ys => simp [evict, hmono [x] (y :: ys) hfalse]
      by_cases hexceeds' : exceeds' (x :: xs) = true
      · simp only [evict, hfalse, Bool.false_eq_true, if_false, hexceeds',
          Bool.or_true, if_true, ← ih, hrest]
      · simp [evict, hfalse, hexceeds']

/-! ## Use -/

section Use

variable [DecidableEq κ]

/-- The entry comes last, and no other has its key. -/
def store (k : κ) (v : ν) (d : List (κ × ν)) : List (κ × ν) := OrderedDict.erase k d ++ [(k, v)]

variable {d : List (κ × ν)}

theorem nodup_keys_store {k : κ} {v : ν} (h : (OrderedDict.keys d).Nodup) :
    (OrderedDict.keys (store k v d)).Nodup := by
  unfold store OrderedDict.keys
  rw [List.map_append, List.nodup_append]
  refine ⟨OrderedDict.nodup_keys_erase h, List.nodup_singleton _, ?_⟩
  rintro k' hk' k'' hk'' rfl
  obtain ⟨e, he, rfl⟩ := List.mem_map.1 hk'
  have hne : e.1 ≠ k := by simpa [OrderedDict.erase] using (List.mem_filter.1 he).2
  exact hne (List.mem_singleton.1 hk'')

theorem mem_store {k : κ} {v : ν} {e : κ × ν} (h : e ∈ store k v d) :
    e ∈ d ∨ e = (k, v) := by
  rcases List.mem_append.1 h with h | h
  · exact .inl (List.mem_filter.1 h).1
  · exact .inr (List.mem_singleton.1 h)

theorem pairwise_store {R : κ × ν → κ × ν → Prop} {k : κ} {v : ν}
    (h : d.Pairwise R) (hlatest : ∀ e ∈ d, R e (k, v)) : (store k v d).Pairwise R := by
  refine List.pairwise_append.2 ⟨h.sublist List.filter_sublist, List.pairwise_singleton _ _, ?_⟩
  rintro e he e' he'
  rw [List.mem_singleton.1 he']
  exact hlatest e (List.mem_filter.1 he).1

end Use

end Eviction
