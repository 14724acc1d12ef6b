import ChunkHound.Ranking

/-!
# Places in a ranking

`ahead score l j` counts what a stable ranking puts before the item at the place `j` of a list : the
items before it that are not worse, and the items behind it that are better. So many places from
its start the ranking has this item (`getElem?_rank`), and each place belongs to one item
(`ahead_inj`, `exists_ahead`).

Of the best `k` items no two have the same key exactly when of any two items with the same key one
has `k` others ahead (`nodup_take_rank_iff`). The first `k` items of a list have the scores of the
best exactly when they are in order and no item behind them is better (`take_scores_iff`).
-/

namespace Ranking

variable {α κ S : Type*} [LinearOrder S] {score : α → S} {l : List α} {a b : α} {i j k : ℕ}

/-- How many items a ranking puts before the item at the place `j`. -/
def ahead (score : α → S) (l : List α) (j : ℕ) : ℕ :=
  match l[j]? with
  | none => l.length
  | some a => (l.take j).countP (fun b => score a ≤ score b) +
    (l.drop (j + 1)).countP fun b => score a < score b

theorem ahead_of_getElem? (h : l[j]? = some a) : ahead score l j =
    (l.take j).countP (fun b => score a ≤ score b) +
      (l.drop (j + 1)).countP fun b => score a < score b := by
  rw [ahead, h]

theorem ahead_cons_zero (a : α) (l : List α) :
    ahead score (a :: l) 0 = l.countP fun b => score a < score b := by
  rw [ahead_of_getElem? rfl]
  simp

/-- A new head goes before the items that it is not worse than. -/
theorem ahead_lt_iff (hb : l[j]? = some b) (a : α) :
    ahead score l j < l.countP (fun c => score a < score c) ↔ score a < score b := by
  have hcount : l.countP (fun c => score a < score c) =
      (l.take j).countP (fun c => score a < score c) +
        ((if score a < score b then 1 else 0) +
          (l.drop (j + 1)).countP fun c => score a < score c) := by
    obtain ⟨hj, rfl⟩ := List.getElem?_eq_some_iff.1 hb
    conv_lhs => rw [← List.take_append_drop j l, ← List.getElem_cons_drop hj]
    rw [List.countP_append, List.countP_cons, Nat.add_comm (List.countP _ _) (ite _ _ _)]
    simp only [decide_eq_true_eq]
  rw [ahead_of_getElem? hb, hcount]
  by_cases hab : score a < score b
  · have hbefore : (l.take j).countP (fun c => score b ≤ score c) ≤
        (l.take j).countP fun c => score a < score c :=
      List.countP_mono_left fun c _ hc => decide_eq_true (hab.trans_le (of_decide_eq_true hc))
    have hafter : (l.drop (j + 1)).countP (fun c => score b < score c) ≤
        (l.drop (j + 1)).countP fun c => score a < score c :=
      List.countP_mono_left fun c _ hc => decide_eq_true (hab.trans (of_decide_eq_true hc))
    rw [if_pos hab]
    exact iff_of_true (by omega) hab
  · have hba := not_lt.1 hab
    have hbefore : (l.take j).countP (fun c => score a < score c) ≤
        (l.take j).countP fun c => score b ≤ score c :=
      List.countP_mono_left fun c _ hc => decide_eq_true (hba.trans (of_decide_eq_true hc).le)
    have hafter : (l.drop (j + 1)).countP (fun c => score a < score c) ≤
        (l.drop (j + 1)).countP fun c => score b < score c :=
      List.countP_mono_left fun c _ hc => decide_eq_true (hba.trans_lt (of_decide_eq_true hc))
    rw [if_neg hab]
    exact iff_of_false (by omega) hab

theorem ahead_cons_succ (hb : l[j]? = some b) (a : α) : ahead score (a :: l) (j + 1) =
    if ahead score l j < l.countP (fun c => score a < score c) then ahead score l j
    else ahead score l j + 1 := by
  have hcons : (a :: l)[j + 1]? = some b := hb
  rw [ahead_of_getElem? hcons, List.take_succ_cons, List.drop_succ_cons, List.countP_cons]
  by_cases hab : score a < score b
  · rw [if_pos ((ahead_lt_iff hb a).2 hab), if_neg (by simp [hab]), ahead_of_getElem? hb]
    rfl
  · rw [if_neg (mt (ahead_lt_iff hb a).1 hab), if_pos (by simpa using hab), ahead_of_getElem? hb]
    omega

/-- A ranking takes a new head in behind the better items. -/
theorem exists_rank_cons (score : α → S) (a : α) (l : List α) : ∃ better rest,
    rank score l = better ++ rest ∧ rank score (a :: l) = better ++ a :: rest ∧
      better.length = l.countP fun b => score a < score b := by
  refine ⟨(rank score l).takeWhile fun b => ¬score b ≤ score a,
    (rank score l).dropWhile fun b => ¬score b ≤ score a,
    List.takeWhile_append_dropWhile.symm, List.insertionSort_cons_eq_take_drop _ a l, ?_⟩
  rw [← (rank_perm score l).countP_eq]
  have hsorted := rank_sorted score l
  generalize rank score l = m at hsorted
  induction m with
  | nil => rfl
  | cons b m ih =>
    obtain ⟨hfirst, hrest⟩ := List.pairwise_cons.1 hsorted
    by_cases hb : score b ≤ score a
    · have hnone : m.countP (fun c => score a < score c) = 0 :=
        List.countP_eq_zero.2 fun c hc hlt =>
          not_lt.2 ((hfirst c hc).trans hb) (of_decide_eq_true hlt)
      rw [List.takeWhile_cons_of_neg (by simpa using hb),
        List.countP_cons_of_neg (by simpa using hb), hnone]
      rfl
    · rw [List.takeWhile_cons_of_pos (by simpa using hb),
        List.countP_cons_of_pos (by simpa using hb), List.length_cons, ih hrest]

/-- The ranking has each item behind those that are ahead of it. -/
theorem getElem?_rank : ∀ {l : List α} {j : ℕ}, j < l.length →
    (rank score l)[ahead score l j]? = l[j]?
  | a :: l, 0, _ => by
    obtain ⟨better, rest, -, hcons, hlen⟩ := exists_rank_cons score a l
    rw [hcons, ahead_cons_zero, ← hlen, List.getElem?_append_right (Nat.le_refl _),
      Nat.sub_self]
    rfl
  | a :: l, j + 1, h => by
    have hj : j < l.length := Nat.lt_of_succ_lt_succ h
    have ih := getElem?_rank hj
    obtain ⟨better, rest, hrank, hcons, hlen⟩ := exists_rank_cons score a l
    rw [hcons, ahead_cons_succ (List.getElem?_eq_getElem hj), ← hlen, List.getElem?_cons_succ,
      ← ih, hrank]
    split
    · rename_i hlt
      rw [List.getElem?_append_left hlt, List.getElem?_append_left hlt]
    · rename_i hge
      have hle := not_lt.1 hge
      rw [List.getElem?_append_right (by omega), List.getElem?_append_right hle,
        Nat.succ_sub hle, List.getElem?_cons_succ]

/-- Items have places of their own. -/
theorem ahead_inj : ∀ {l : List α} {i j : ℕ}, i < l.length → j < l.length →
    ahead score l i = ahead score l j → i = j
  | a :: l, 0, 0, _, _, _ => rfl
  | a :: l, 0, j + 1, _, hj, h => by
    rw [ahead_cons_zero, ahead_cons_succ (List.getElem?_eq_getElem (Nat.lt_of_succ_lt_succ hj))]
      at h
    split at h <;> omega
  | a :: l, i + 1, 0, hi, _, h => by
    rw [ahead_cons_zero, ahead_cons_succ (List.getElem?_eq_getElem (Nat.lt_of_succ_lt_succ hi))]
      at h
    split at h <;> omega
  | a :: l, i + 1, j + 1, hi, hj, h => by
    have hi := Nat.lt_of_succ_lt_succ hi
    have hj := Nat.lt_of_succ_lt_succ hj
    rw [ahead_cons_succ (List.getElem?_eq_getElem hi),
      ahead_cons_succ (List.getElem?_eq_getElem hj)] at h
    have heq : ahead score l i = ahead score l j := by
      split at h <;> split at h <;> omega
    rw [ahead_inj hi hj heq]

/-- Every place is that of an item. -/
theorem exists_ahead (score : α → S) : ∀ {l : List α} {p : ℕ}, p < l.length →
    ∃ j < l.length, ahead score l j = p
  | a :: l, p, hp => by
    have ht : l.countP (fun b => score a < score b) ≤ l.length := List.countP_le_length
    rw [List.length_cons] at hp ⊢
    rcases lt_trichotomy p (l.countP fun b => score a < score b) with hlt | heq | hgt
    · obtain ⟨j, hj, hahead⟩ := exists_ahead score (hlt.trans_le ht)
      refine ⟨j + 1, by omega, ?_⟩
      rw [ahead_cons_succ (List.getElem?_eq_getElem hj), if_pos (by omega), hahead]
    · exact ⟨0, by omega, by rw [ahead_cons_zero, heq]⟩
    · obtain ⟨j, hj, hahead⟩ := exists_ahead score (show p - 1 < l.length by omega)
      refine ⟨j + 1, by omega, ?_⟩
      rw [ahead_cons_succ (List.getElem?_eq_getElem hj), if_neg (by omega), hahead]
      omega

/-- No key is twice among the best `k` when of two items with one key, one has `k` ahead. -/
theorem nodup_take_rank_iff {key : α → κ} : (((rank score l).take k).map key).Nodup ↔
    ∀ i j a b, i < j → l[i]? = some a → l[j]? = some b → key a = key b →
      k ≤ ahead score l i ∨ k ≤ ahead score l j := by
  have hget : ∀ {i a}, l[i]? = some a → ahead score l i < k →
      (((rank score l).take k).map key)[ahead score l i]? = some (key a) := by
    intro i a hi hk
    obtain ⟨hlt, -⟩ := List.getElem?_eq_some_iff.1 hi
    rw [List.getElem?_map, List.getElem?_take, if_pos hk, getElem?_rank hlt, hi, Option.map_some]
  constructor
  · intro h i j a b hij hi hj hkey
    by_contra hcond
    rw [not_or, not_le, not_le] at hcond
    obtain ⟨hp, hkeyi⟩ := List.getElem?_eq_some_iff.1 (hget hi hcond.1)
    obtain ⟨hq, hkeyj⟩ := List.getElem?_eq_some_iff.1 (hget hj hcond.2)
    have hsame := h.getElem_inj_iff.1 (hkeyi.trans (hkey.trans hkeyj.symm))
    exact absurd (ahead_inj (List.getElem?_eq_some_iff.1 hi).1 (List.getElem?_eq_some_iff.1 hj).1
      hsame) hij.ne
  · intro h
    refine List.nodup_iff_getElem?_ne_getElem?.2 fun p q hpq hq heq => ?_
    rw [List.length_map, List.length_take, (rank_perm score l).length_eq] at hq
    obtain ⟨i, hi, rfl⟩ := exists_ahead score (show p < l.length by omega)
    obtain ⟨j, hj, rfl⟩ := exists_ahead score (show q < l.length by omega)
    have hgeti := List.getElem?_eq_getElem hi
    have hgetj := List.getElem?_eq_getElem hj
    rw [hget hgeti (by omega), hget hgetj (by omega), Option.some_inj] at heq
    have hne : i ≠ j := by
      rintro rfl
      exact absurd hpq (lt_irrefl _)
    rcases Nat.lt_or_gt_of_ne hne with hij | hji
    · have := h i j _ _ hij hgeti hgetj heq
      omega
    · have := h j i _ _ hji hgetj hgeti heq.symm
      omega

/-! ## Scores -/

variable {l l' : List α}

/-- Lists in order with the same scores have them in the same places. -/
theorem scores_eq_of_perm (hperm : (l.map score).Perm (l'.map score))
    (h : l.Pairwise fun a b => score b ≤ score a) (h' : l'.Pairwise fun a b => score b ≤ score a) :
    l.map score = l'.map score :=
  hperm.eq_of_pairwise (fun _ _ _ _ hab hba => le_antisymm hba hab)
    (List.pairwise_map.2 h) (List.pairwise_map.2 h')

/-- The first `k` items are in order, and no item behind them is better. -/
def Leads (score : α → S) (l : List α) (k : ℕ) : Prop :=
  (l.take k).Pairwise (fun a b => score b ≤ score a) ∧
    ∀ a ∈ l.take k, ∀ b ∈ l.drop k, score b ≤ score a

theorem leads_rank (score : α → S) (l : List α) (k : ℕ) : Leads score (rank score l) k := by
  have hsorted := rank_sorted score l
  rw [← List.take_append_drop k (rank score l), List.pairwise_append] at hsorted
  exact ⟨hsorted.1, hsorted.2.2⟩

/-- The same by places. -/
theorem leads_iff : Leads score l k ↔ ∀ i j a b, i < j → i < k → l[i]? = some a → l[j]? = some b →
    score b ≤ score a := by
  constructor
  · rintro ⟨hsorted, hbehind⟩ i j a b hij hik hi hj
    have hi' : (l.take k)[i]? = some a := by rw [List.getElem?_take, if_pos hik, hi]
    by_cases hjk : j < k
    · have hj' : (l.take k)[j]? = some b := by rw [List.getElem?_take, if_pos hjk, hj]
      obtain ⟨hil, rfl⟩ := List.getElem?_eq_some_iff.1 hi'
      obtain ⟨hjl, rfl⟩ := List.getElem?_eq_some_iff.1 hj'
      exact List.pairwise_iff_getElem.1 hsorted i j hil hjl hij
    · refine hbehind a (List.mem_of_getElem? hi') b (List.mem_of_getElem? (i := j - k) ?_)
      rw [List.getElem?_drop, Nat.add_sub_cancel' (not_lt.1 hjk), hj]
  · intro h
    constructor
    · refine List.pairwise_iff_getElem.2 fun i j hi hj hij => ?_
      rw [List.length_take] at hi hj
      rw [List.getElem_take, List.getElem_take]
      exact h i j _ _ hij (by omega) (List.getElem?_eq_getElem (by omega))
        (List.getElem?_eq_getElem (by omega))
    · intro a ha b hb
      obtain ⟨i, hi, rfl⟩ := List.mem_take_iff_getElem.1 ha
      obtain ⟨j, hj, rfl⟩ := List.mem_drop_iff_getElem.1 hb
      exact h i (k + j) _ _ (by omega) (by omega) (List.getElem?_eq_getElem (by omega))
        (by rw [List.getElem?_eq_getElem])

theorem take_scores_iff : (l.take k).map score = ((rank score l).take k).map score ↔
    Leads score l k := by
  constructor
  · intro h
    have hdrop : ((l.drop k).map score).Perm (((rank score l).drop k).map score) := by
      have hall := (rank_perm score l).map score
      rw [← List.take_append_drop k (rank score l), List.map_append, ← h] at hall
      conv at hall => rhs; rw [← List.take_append_drop k l, List.map_append]
      exact ((List.perm_append_left_iff _).1 hall).symm
    obtain ⟨hsorted, hbehind⟩ := leads_rank score l k
    constructor
    · rw [← List.pairwise_map (R := fun x y => y ≤ x), h, List.pairwise_map]
      exact hsorted
    · intro a ha b hb
      have ha' := h ▸ List.mem_map_of_mem (f := score) ha
      have hb' := hdrop.subset (List.mem_map_of_mem hb)
      obtain ⟨a', ha', hsa⟩ := List.mem_map.1 ha'
      obtain ⟨b', hb', hsb⟩ := List.mem_map.1 hb'
      exact hsa ▸ hsb ▸ hbehind a' ha' b' hb'
  · rintro ⟨hsorted, hbehind⟩
    have hlist : (l.take k ++ rank score (l.drop k)).Pairwise fun a b => score b ≤ score a :=
      List.pairwise_append.2
        ⟨hsorted, rank_sorted score _, fun a ha b hb => hbehind a ha b (mem_rank.1 hb)⟩
    have hperm : (l.take k ++ rank score (l.drop k)).Perm (rank score l) := by
      refine ((rank_perm score (l.drop k)).append_left _).trans ?_
      rw [List.take_append_drop]
      exact (rank_perm score l).symm
    have htake : (l.take k ++ rank score (l.drop k)).take k = l.take k := by
      by_cases hk : k ≤ l.length
      · exact List.take_left' (List.length_take_of_le hk)
      · rw [List.drop_of_length_le (by omega), rank, List.insertionSort_nil, List.append_nil,
          List.take_take, Nat.min_self]
    have heq := congrArg (List.take k)
      (scores_eq_of_perm (hperm.map score) hlist (rank_sorted score l))
    rwa [← List.map_take, ← List.map_take, htake] at heq

/-- Items with the same scores have the same scores in a ranking. -/
theorem rank_scores_eq (h : (l.map score).Perm (l'.map score)) :
    (rank score l).map score = (rank score l').map score :=
  scores_eq_of_perm (((rank_perm score l).map score).trans
    (h.trans ((rank_perm score l').map score).symm)) (rank_sorted score l) (rank_sorted score l')

/-- Items that are not better than any of the others do not count among as many as these. -/
theorem take_rank_append (h : ∀ a ∈ l, ∀ b ∈ l', score b ≤ score a) (hk : k ≤ l.length) :
    ((rank score (l ++ l')).take k).map score = ((rank score l).take k).map score := by
  have hlist : (rank score l ++ rank score l').Pairwise fun a b => score b ≤ score a :=
    List.pairwise_append.2 ⟨rank_sorted score l, rank_sorted score l',
      fun a ha b hb => h a (mem_rank.1 ha) b (mem_rank.1 hb)⟩
  have hperm : (rank score (l ++ l')).Perm (rank score l ++ rank score l') :=
    (rank_perm score _).trans ((rank_perm score l).append (rank_perm score l')).symm
  have heq := scores_eq_of_perm (hperm.map score) (rank_sorted score _) hlist
  rw [List.map_take, heq, ← List.map_take,
    List.take_append_of_le_length (by rwa [(rank_perm score l).length_eq])]

end Ranking
