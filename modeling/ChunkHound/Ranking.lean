import Mathlib.Data.List.Nodup
import Mathlib.Data.List.Sort

/-!
# Ranked lists with one item for a key

`rank score l` puts a list into descending order of scores, and leaves items of the same score in
their order. `keepFirst key skip seen l` keeps the first item for each key, apart from the keys that
are skipped or were seen before. Of a ranked list it keeps the best item for each key
(`exists_best`).
-/

namespace Ranking

variable {α κ S : Type*} [LinearOrder S]

/-- `sorted(l, key=score, reverse=True)`, which is stable. -/
def rank (score : α → S) (l : List α) : List α :=
  l.insertionSort fun a b => score b ≤ score a

theorem rank_perm (score : α → S) (l : List α) : (rank score l).Perm l :=
  List.perm_insertionSort _ l

variable {score : α → S} {l : List α}

@[simp] theorem mem_rank {a : α} : a ∈ rank score l ↔ a ∈ l :=
  (rank_perm score l).mem_iff

theorem rank_sorted (score : α → S) (l : List α) :
    (rank score l).Pairwise fun a b => score b ≤ score a := by
  have : Std.Total fun a b : α => score b ≤ score a := ⟨fun a b => le_total _ _⟩
  have : IsTrans α fun a b => score b ≤ score a := ⟨fun _ _ _ hab hbc => hbc.trans hab⟩
  exact List.pairwise_insertionSort _ l

/-- A list in order stays as it is. -/
theorem rank_eq_self (h : l.Pairwise fun a b => score b ≤ score a) : rank score l = l :=
  h.insertionSort_eq

/-- The best of all is among the first. -/
theorem mem_take_of_best {a : α} {k : ℕ} (hk : 0 < k) (ha : a ∈ l)
    (hbest : ∀ b ∈ l, b ≠ a → score b < score a) : a ∈ (rank score l).take k := by
  have hmem : a ∈ rank score l := mem_rank.2 ha
  have hsorted := rank_sorted score l
  rw [← List.take_append_drop k (rank score l)] at hsorted
  have hin : a ∈ (rank score l).take k ++ (rank score l).drop k := by
    rwa [List.take_append_drop]
  rcases List.mem_append.1 hin with hfirst | hrest
  · exact hfirst
  · obtain ⟨b, hb⟩ : ∃ b, b ∈ (rank score l).take k := by
      refine List.exists_mem_of_ne_nil _ fun hnil => ?_
      have hpos := List.length_pos_of_mem hmem
      have hlen := congrArg List.length hnil
      rw [List.length_take, List.length_nil] at hlen
      omega
    have hle := (List.pairwise_append.1 hsorted).2.2 b hb a hrest
    by_cases heq : b = a
    · exact heq ▸ hb
    · exact absurd (hbest b (mem_rank.1 (List.mem_of_mem_take hb)) heq) (not_lt.2 hle)

/-- The worst of all is not, if they are more. -/
theorem not_mem_take_of_worst {a : α} {k : ℕ} (hk : k < l.length)
    (hnodup : l.Nodup) (hworst : ∀ b ∈ l, b ≠ a → score a < score b) :
    a ∉ (rank score l).take k := by
  intro hin
  have hperm := rank_perm score l
  have hsorted := rank_sorted score l
  rw [← List.take_append_drop k (rank score l)] at hsorted
  obtain ⟨b, hb⟩ : ∃ b, b ∈ (rank score l).drop k := by
    refine List.exists_mem_of_ne_nil _ fun hnil => ?_
    have hlen := congrArg List.length hnil
    rw [List.length_drop, hperm.length_eq, List.length_nil] at hlen
    omega
  have hle := (List.pairwise_append.1 hsorted).2.2 a hin b hb
  have hne : b ≠ a := by
    rintro rfl
    have hdisjoint := hperm.nodup_iff.2 hnodup
    rw [← List.take_append_drop k (rank score l)] at hdisjoint
    exact (List.nodup_append'.1 hdisjoint).2.2 hin hb
  exact absurd (hworst b (mem_rank.1 (List.mem_of_mem_drop hb)) hne) (not_lt.2 hle)

section KeepFirst

variable [DecidableEq κ] {key : α → κ} {skip : κ → Bool} {score : α → S}

/-- The first item for each key that is not skipped. -/
def keepFirst (key : α → κ) (skip : κ → Bool) : List κ → List α → List α
  | _, [] => []
  | seen, a :: l =>
    if skip (key a) ∨ key a ∈ seen then keepFirst key skip seen l
    else a :: keepFirst key skip (key a :: seen) l

theorem keepFirst_sublist : ∀ (seen : List κ) (l : List α),
    (keepFirst key skip seen l).Sublist l
  | _, [] => List.Sublist.refl _
  | seen, a :: l => by
    unfold keepFirst
    split
    · exact (keepFirst_sublist seen l).cons a
    · exact (keepFirst_sublist (key a :: seen) l).cons_cons a

/-- What is kept is neither skipped nor seen. -/
theorem key_of_mem_keepFirst : ∀ {seen : List κ} {l : List α} {a : α},
    a ∈ keepFirst key skip seen l → skip (key a) = false ∧ key a ∉ seen
  | _, [], _, h => nomatch h
  | seen, b :: l, a, h => by
    unfold keepFirst at h
    split at h
    · exact key_of_mem_keepFirst h
    · rename_i hb
      simp only [not_or, Bool.not_eq_true] at hb
      rcases List.mem_cons.1 h with rfl | h
      · exact hb
      · obtain ⟨hskip, hseen⟩ := key_of_mem_keepFirst h
        exact ⟨hskip, fun hin => hseen (List.mem_cons_of_mem _ hin)⟩

theorem keepFirst_keys_nodup : ∀ (seen : List κ) (l : List α),
    ((keepFirst key skip seen l).map key).Nodup
  | _, [] => List.nodup_nil
  | seen, a :: l => by
    unfold keepFirst
    split
    · exact keepFirst_keys_nodup seen l
    · refine List.nodup_cons.2 ⟨fun hin => ?_, keepFirst_keys_nodup (key a :: seen) l⟩
      obtain ⟨b, hb, heq⟩ := List.mem_map.1 hin
      exact (key_of_mem_keepFirst hb).2 (heq ▸ List.mem_cons_self)

/-- A list with distinct keys, none of them skipped or seen, stays as it is. -/
theorem keepFirst_eq_self : ∀ {seen : List κ} {l : List α}, (l.map key).Nodup →
    (∀ a ∈ l, skip (key a) = false ∧ key a ∉ seen) → keepFirst key skip seen l = l
  | _, [], _, _ => rfl
  | seen, a :: l, hnodup, h => by
    obtain ⟨hskip, hseen⟩ := h a List.mem_cons_self
    obtain ⟨ha, hrest⟩ := List.nodup_cons.1 hnodup
    unfold keepFirst
    rw [if_neg (by simp [hskip, hseen]), keepFirst_eq_self hrest]
    intro b hb
    obtain ⟨hskip', hseen'⟩ := h b (List.mem_cons_of_mem _ hb)
    refine ⟨hskip', fun hin => ?_⟩
    rcases List.mem_cons.1 hin with heq | hin
    · exact ha (heq ▸ List.mem_map_of_mem hb)
    · exact hseen' hin

/-- An item whose key is not skipped has another of its key before it, or is kept. -/
theorem exists_best : ∀ {seen : List κ} {l : List α} {a : α},
    l.Pairwise (fun a b => score b ≤ score a) → a ∈ l → skip (key a) = false → key a ∉ seen →
      ∃ b ∈ keepFirst key skip seen l, key b = key a ∧ score a ≤ score b
  | _, [], _, _, h, _, _ => nomatch h
  | seen, c :: l, a, hsorted, ha, hskip, hseen => by
    obtain ⟨hfirst, hrest⟩ := List.pairwise_cons.1 hsorted
    have hac : score a ≤ score c := by
      rcases List.mem_cons.1 ha with rfl | ha
      · exact le_rfl
      · exact hfirst a ha
    unfold keepFirst
    split
    · rename_i hc
      have hne : a ≠ c := by
        rintro rfl
        rcases hc with hc | hc
        · rw [hskip] at hc
          cases hc
        · exact hseen hc
      exact exists_best hrest ((List.mem_cons.1 ha).resolve_left hne) hskip hseen
    · by_cases hkey : key a = key c
      · exact ⟨c, List.mem_cons_self, hkey.symm, hac⟩
      · have hne : a ≠ c := fun h => hkey (congrArg key h)
        obtain ⟨b, hb, hkb, hab⟩ := exists_best hrest ((List.mem_cons.1 ha).resolve_left hne)
          hskip fun hin => (List.mem_cons.1 hin).elim hkey hseen
        exact ⟨b, List.mem_cons_of_mem _ hb, hkb, hab⟩

end KeepFirst

end Ranking
