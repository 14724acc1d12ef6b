import Mathlib.Algebra.Order.Ring.Rat
import Mathlib.Data.List.MinMax
import Mathlib.Data.List.TakeWhile
import Mathlib.Tactic.Linarith
import Mathlib.Tactic.Positivity
import ChunkHound.Ranking

/-!
# Selecting gaps

`_select_gaps_by_elbow` takes the gaps of best score up to the elbow of the score curve, between the
two configured bounds and, beyond the smaller one, at half the top score or more. The arithmetic of
floats is a parameter of the elbow.

The half is missed in two ways : when too few gaps reach it the selection is left unfiltered, and
when more gaps than the maximum have no elbow the maximum is taken as it is. Otherwise the
selection is as configured (`goodSelection_iff`).
-/

namespace ChunkHound.GapSelection

open Ranking

/-! ## Gaps and bounds -/

structure UnifiedGap where
  query : String
  score : ℚ
  nonneg : 0 ≤ score
  le_one : score ≤ 1
  deriving DecidableEq

/-- The bounds, as the configuration validates them. -/
structure GapConfig where
  minGaps : ℕ
  maxGaps : ℕ
  minGaps_le : minGaps ≤ 5
  le_maxGaps : 5 ≤ maxGaps
  maxGaps_le : maxGaps ≤ 30

/-- Scores from high to low, ties in their order. -/
def sortByScore (gaps : List UnifiedGap) : List UnifiedGap := rank UnifiedGap.score gaps

/-! ## The elbow -/

/-- The operations on floats, each with its rounding. -/
structure FloatOps where
  add : ℚ → ℚ → ℚ
  sub : ℚ → ℚ → ℚ
  mul : ℚ → ℚ → ℚ
  div : ℚ → ℚ → ℚ
  sqrt : ℚ → ℚ
  linspace : ℕ → ℕ → ℚ

/-- The index of the first maximum. -/
def argmax (distances : List ℚ) : ℕ :=
  distances.idxOf (distances.max?.getD 0)

/-- The distances of the points of the normalized curve to its chord. -/
def distances (ops : FloatOps) (scores : List ℚ) (minScore maxScore : ℚ) : List ℚ :=
  let normalized := scores.map fun s =>
    ops.div (ops.sub s minScore) (ops.sub maxScore minScore)
  let x := (List.range normalized.length).map (ops.linspace normalized.length)
  let x₁ := x.head?.getD 0
  let y₁ := normalized.head?.getD 0
  let m := ops.div (ops.sub (normalized.getLast?.getD 0) y₁) (ops.sub (x.getLast?.getD 0) x₁)
  let b := ops.sub y₁ (ops.mul m x₁)
  let denominator := ops.sqrt (ops.add (ops.mul m m) 1)
  (x.zip normalized).map fun p =>
    ops.div |ops.add (ops.sub (ops.mul m p.1) p.2) b| denominator

/-- `find_elbow_kneedle`. -/
def findElbowKneedle (ops : FloatOps) (sortedScores : List ℚ) : Option ℕ :=
  if sortedScores.length < 3 then none
  else
    let minScore := sortedScores.min?.getD 0
    let maxScore := sortedScores.max?.getD 0
    if maxScore = minScore then none
    else if ops.linspace sortedScores.length (sortedScores.length - 1) =
        ops.linspace sortedScores.length 0 then none
    else
      let ds := distances ops sortedScores minScore maxScore
      let elbowIdx := argmax ds
      if ds.getD elbowIdx 0 < 1 / 100 then none else some elbowIdx

/-- `_find_elbow_kneedle` : the number of gaps up to the elbow. -/
def findElbow (ops : FloatOps) (sortedGaps : List UnifiedGap) : Option ℕ :=
  (findElbowKneedle ops (sortedGaps.map UnifiedGap.score)).map (· + 1)

/-! ## The selection -/

/-- The score of the first gap. -/
def topScore (sortedGaps : List UnifiedGap) : ℚ := (sortedGaps.head?.map UnifiedGap.score).getD 0

/-- `1e-9`. -/
def nearZero : ℚ := 1 / 1000000000

/-- The gaps of at least half the top score, unless they are too few. -/
def postFilter (minGaps : ℕ) (top : ℚ) (selected : List UnifiedGap) : List UnifiedGap :=
  let filtered := selected.filter fun g => 1 / 2 * top ≤ g.score
  if minGaps ≤ filtered.length then filtered else selected

/-- The first gaps, and those after them down to half the top score. -/
def thresholdFallback (minGaps : ℕ) (top : ℚ) (sortedGaps : List UnifiedGap) : List UnifiedGap :=
  if top < nearZero then sortedGaps.take minGaps
  else sortedGaps.take minGaps ++
    (sortedGaps.drop minGaps).takeWhile fun g => ¬ g.score < 1 / 2 * top

/-- No more gaps than the maximum. -/
def selectWithin (ops : FloatOps) (config : GapConfig) (sortedGaps : List UnifiedGap) :
    List UnifiedGap :=
  match (findElbow ops sortedGaps).filter (config.minGaps ≤ ·) with
  | some elbow =>
    if nearZero < topScore sortedGaps then
      postFilter config.minGaps (topScore sortedGaps) (sortedGaps.take elbow)
    else sortedGaps.take elbow
  | none => thresholdFallback config.minGaps (topScore sortedGaps) sortedGaps

/-- More gaps than the maximum. -/
def selectBeyond (ops : FloatOps) (config : GapConfig) (sortedGaps : List UnifiedGap) :
    List UnifiedGap :=
  if topScore sortedGaps < nearZero then sortedGaps.take config.minGaps
  else
    match (findElbow ops (sortedGaps.take config.maxGaps)).filter (config.minGaps ≤ ·) with
    | some elbow =>
      postFilter config.minGaps (topScore sortedGaps)
        ((sortedGaps.take config.maxGaps).take elbow)
    | none => sortedGaps.take config.maxGaps

def selectGapsByElbow (ops : FloatOps) (config : GapConfig) (unifiedGaps : List UnifiedGap) :
    List UnifiedGap :=
  if unifiedGaps = [] then []
  else
    let sortedGaps := sortByScore unifiedGaps
    if sortedGaps.length ≤ config.minGaps then sortedGaps
    else if sortedGaps.length ≤ config.maxGaps then selectWithin ops config sortedGaps
    else selectBeyond ops config sortedGaps

/-! ## Selections -/

/-- A prefix of the sorted gaps, within the bounds, at half the top score beyond the smaller. -/
structure GoodSelection (config : GapConfig) (sortedGaps selected : List UnifiedGap) : Prop where
  isPrefix : selected <+: sortedGaps
  min_le : min config.minGaps sortedGaps.length ≤ selected.length
  le_max : selected.length ≤ max config.minGaps config.maxGaps
  half_le : ∀ g ∈ selected.drop config.minGaps, 1 / 2 * topScore sortedGaps ≤ g.score

theorem pairwise_sortByScore (gaps : List UnifiedGap) :
    (sortByScore gaps).Pairwise fun a b => b.score ≤ a.score :=
  rank_sorted UnifiedGap.score gaps

/-- What reaches a bound comes first. -/
theorem filter_eq_takeWhile (c : ℚ) : ∀ {gaps : List UnifiedGap},
    gaps.Pairwise (fun a b => b.score ≤ a.score) →
    gaps.filter (c ≤ ·.score) = gaps.takeWhile (c ≤ ·.score)
  | [], _ => rfl
  | g :: gaps, h => by
    obtain ⟨hg, hgaps⟩ := List.pairwise_cons.1 h
    rw [List.filter_cons, List.takeWhile_cons]
    by_cases hc : c ≤ g.score
    · simp [hc, filter_eq_takeWhile c hgaps]
    · have hnone : gaps.filter (c ≤ ·.score) = [] :=
        List.filter_eq_nil_iff.2 fun g' hg' => by simpa using (hg g' hg').trans_lt (not_le.1 hc)
      simp [hc, hnone]

theorem argmax_lt {ds : List ℚ} (h : ds ≠ []) : argmax ds < ds.length := by
  unfold argmax
  refine List.idxOf_lt_length_iff.2 ?_
  cases hmax : ds.max? with
  | none => exact absurd (List.max?_eq_none_iff.1 hmax) h
  | some m => exact (List.max?_eq_some_iff.1 hmax).1

theorem length_distances (ops : FloatOps) (scores : List ℚ) (lo hi : ℚ) :
    (distances ops scores lo hi).length = scores.length := by
  simp [distances]

/-- The elbow is one of the gaps. -/
theorem le_length_of_findElbow {ops : FloatOps} {gaps : List UnifiedGap} {elbow : ℕ}
    (h : findElbow ops gaps = some elbow) : elbow ≤ gaps.length := by
  obtain ⟨idx, hidx, rfl⟩ := Option.map_eq_some_iff.1 h
  unfold findElbowKneedle at hidx
  simp only [Option.ite_none_left_eq_some, List.length_map] at hidx
  obtain ⟨hlength, -, -, -, hidx⟩ := hidx
  obtain rfl := Option.some.inj hidx
  refine Nat.succ_le_of_lt ((argmax_lt fun hnil => ?_).trans_eq ?_)
  · have hzero := congrArg List.length hnil
    rw [length_distances, List.length_map, List.length_nil] at hzero
    omega
  · rw [length_distances, List.length_map]

theorem le_length_takeWhile_iff {α : Type} {p : α → Bool} : ∀ {l : List α} {m : ℕ}, m ≤ l.length →
    (m ≤ (l.takeWhile p).length ↔ ∀ g ∈ l.take m, p g = true)
  | [], m, h => by simpa using h
  | _ :: _, 0, _ => by simp
  | a :: l, m + 1, h => by
    rw [List.takeWhile_cons, List.take_succ_cons, List.forall_mem_cons,
      ← le_length_takeWhile_iff (Nat.le_of_succ_le_succ h)]
    cases p a <;> simp

section Bounds

variable {config : GapConfig} {sortedGaps : List UnifiedGap} {k : ℕ}

/-- A prefix within the bounds is good when what is beyond the smaller one reaches the half. -/
theorem goodSelection_take_iff (hmin : config.minGaps ≤ k) (hmax : k ≤ config.maxGaps)
    (hk : k ≤ sortedGaps.length) :
    GoodSelection config sortedGaps (sortedGaps.take k) ↔
      ∀ g ∈ (sortedGaps.take k).drop config.minGaps, 1 / 2 * topScore sortedGaps ≤ g.score := by
  refine ⟨GoodSelection.half_le, fun h => ⟨List.take_prefix k sortedGaps, ?_, ?_, h⟩⟩
  · rw [List.length_take]
    omega
  · rw [List.length_take]
    omega

/-- The filter keeps the half when enough gaps reach it. -/
theorem goodSelection_postFilter_iff (hsorted : sortedGaps.Pairwise fun a b => b.score ≤ a.score)
    (hmin : config.minGaps ≤ k) (hmax : k ≤ config.maxGaps) (hk : k ≤ sortedGaps.length) :
    GoodSelection config sortedGaps
        (postFilter config.minGaps (topScore sortedGaps) (sortedGaps.take k)) ↔
      (∀ g ∈ sortedGaps.take config.minGaps, 1 / 2 * topScore sortedGaps ≤ g.score) ∨
        ∀ g ∈ (sortedGaps.take k).drop config.minGaps, 1 / 2 * topScore sortedGaps ≤ g.score := by
  have hfilter := filter_eq_takeWhile (1 / 2 * topScore sortedGaps)
    (hsorted.sublist (List.take_sublist k sortedGaps))
  have hlength : (sortedGaps.take k).length = k := by
    rw [List.length_take, min_eq_left hk]
  have henough : config.minGaps ≤
      ((sortedGaps.take k).takeWhile (1 / 2 * topScore sortedGaps ≤ ·.score)).length ↔
      ∀ g ∈ sortedGaps.take config.minGaps, 1 / 2 * topScore sortedGaps ≤ g.score := by
    rw [le_length_takeWhile_iff (hlength.symm ▸ hmin), List.take_take, min_eq_left hmin]
    simp only [decide_eq_true_eq]
  unfold postFilter
  simp only [hfilter]
  split
  · next hle =>
    refine iff_of_true ?_ (Or.inl (henough.1 hle))
    have hpre := List.takeWhile_prefix (l := sortedGaps.take k)
      (decide <| 1 / 2 * topScore sortedGaps ≤ ·.score)
    have hle' := hpre.length_le
    refine ⟨hpre.trans (List.take_prefix k sortedGaps), by omega, by omega, fun g hg => ?_⟩
    simpa using List.mem_takeWhile_imp (List.mem_of_mem_drop hg)
  · next hlt =>
    rw [goodSelection_take_iff hmin hmax hk, ← henough, or_iff_right hlt]

/-- The fallback keeps the half. -/
theorem goodSelection_thresholdFallback (hmin : config.minGaps < sortedGaps.length)
    (hmax : sortedGaps.length ≤ config.maxGaps) :
    GoodSelection config sortedGaps
      (thresholdFallback config.minGaps (topScore sortedGaps) sortedGaps) := by
  have hlength : (sortedGaps.take config.minGaps).length = config.minGaps := by
    rw [List.length_take, min_eq_left hmin.le]
  unfold thresholdFallback
  split
  · refine (goodSelection_take_iff le_rfl (hmin.le.trans hmax) hmin.le).2 fun g hg => ?_
    rw [List.drop_of_length_le hlength.le] at hg
    exact absurd hg List.not_mem_nil
  · have hpre : sortedGaps.take config.minGaps ++ (sortedGaps.drop config.minGaps).takeWhile
        (fun g => ¬ g.score < 1 / 2 * topScore sortedGaps) <+: sortedGaps := by
      conv_rhs => rw [← List.take_append_drop config.minGaps sortedGaps]
      exact (List.prefix_append_right_inj _).2 (List.takeWhile_prefix _)
    have hle := hpre.length_le
    refine ⟨hpre, ?_, by omega, fun g hg => ?_⟩
    · rw [List.length_append, hlength]
      omega
    · rw [List.drop_left' hlength] at hg
      simpa using List.mem_takeWhile_imp hg

end Bounds

/-- The half is kept where the code does not look at it. -/
structure HalfKept (ops : FloatOps) (config : GapConfig) (sortedGaps : List UnifiedGap) :
    Prop where
  elbow : ∀ elbow, findElbow ops (sortedGaps.take config.maxGaps) = some elbow →
    config.minGaps ≤ elbow →
    (config.maxGaps < sortedGaps.length → nearZero ≤ topScore sortedGaps) →
    (sortedGaps.length ≤ config.maxGaps → nearZero < topScore sortedGaps) ∧
        (∀ g ∈ sortedGaps.take config.minGaps, 1 / 2 * topScore sortedGaps ≤ g.score) ∨
      ∀ g ∈ (sortedGaps.take elbow).drop config.minGaps, 1 / 2 * topScore sortedGaps ≤ g.score
  noElbow : config.maxGaps < sortedGaps.length → nearZero ≤ topScore sortedGaps →
    (∀ elbow, findElbow ops (sortedGaps.take config.maxGaps) = some elbow →
      elbow < config.minGaps) →
    ∀ g ∈ (sortedGaps.take config.maxGaps).drop config.minGaps,
      1 / 2 * topScore sortedGaps ≤ g.score

theorem filter_eq_some_iff {o : Option ℕ} {m e : ℕ} :
    o.filter (m ≤ ·) = some e ↔ o = some e ∧ m ≤ e := by
  rw [Option.filter_eq_some_iff, decide_eq_true_eq]

theorem filter_eq_none_iff {o : Option ℕ} {m : ℕ} :
    o.filter (m ≤ ·) = none ↔ ∀ e, o = some e → e < m := by
  rw [Option.filter_eq_none_iff]
  simp

section Select

variable {ops : FloatOps} {config : GapConfig} {sortedGaps : List UnifiedGap}

theorem goodSelection_self (h : sortedGaps.length ≤ config.minGaps) :
    GoodSelection config sortedGaps sortedGaps := by
  refine ⟨List.prefix_rfl, min_le_right _ _, h.trans (le_max_left _ _), fun g hg => ?_⟩
  rw [List.drop_of_length_le h] at hg
  exact absurd hg List.not_mem_nil

theorem halfKept_of_le (h : sortedGaps.length ≤ config.minGaps) :
    HalfKept ops config sortedGaps := by
  have hempty : ∀ k, (sortedGaps.take k).drop config.minGaps = [] := fun k =>
    List.drop_of_length_le ((List.take_sublist k sortedGaps).length_le.trans h)
  refine ⟨fun e _ _ _ => Or.inr ?_, fun _ _ _ => ?_⟩
  · simp [hempty]
  · simp [hempty]

/-- The elbow within the maximum is one of the gaps. -/
theorem elbow_le {e : ℕ} (h : findElbow ops (sortedGaps.take config.maxGaps) = some e) :
    e ≤ config.maxGaps ∧ e ≤ sortedGaps.length := by
  have hle := le_length_of_findElbow h
  rw [List.length_take] at hle
  exact ⟨hle.trans (min_le_left _ _), hle.trans (min_le_right _ _)⟩

theorem goodSelection_selectWithin_iff
    (hsorted : sortedGaps.Pairwise fun a b => b.score ≤ a.score)
    (hmin : config.minGaps < sortedGaps.length) (hmax : sortedGaps.length ≤ config.maxGaps) :
    GoodSelection config sortedGaps (selectWithin ops config sortedGaps) ↔
      HalfKept ops config sortedGaps := by
  have htake : sortedGaps.take config.maxGaps = sortedGaps := List.take_of_length_le hmax
  have hbeyond : ¬ config.maxGaps < sortedGaps.length := not_lt.2 hmax
  unfold selectWithin
  cases helbow : (findElbow ops sortedGaps).filter (config.minGaps ≤ ·) with
  | none =>
    rw [filter_eq_none_iff] at helbow
    refine iff_of_true (goodSelection_thresholdFallback hmin hmax)
      ⟨fun e he hle => ?_, fun h => absurd h hbeyond⟩
    rw [htake] at he
    exact absurd hle (not_le.2 (helbow e he))
  | some e =>
    obtain ⟨he, hle⟩ := filter_eq_some_iff.1 helbow
    have hbound := elbow_le (htake.symm ▸ he)
    have hkept : HalfKept ops config sortedGaps ↔
        nearZero < topScore sortedGaps ∧
            (∀ g ∈ sortedGaps.take config.minGaps, 1 / 2 * topScore sortedGaps ≤ g.score) ∨
          ∀ g ∈ (sortedGaps.take e).drop config.minGaps,
            1 / 2 * topScore sortedGaps ≤ g.score := by
      constructor
      · intro h
        refine (h.elbow e (htake.symm ▸ he) hle fun h => absurd h hbeyond).imp_left ?_
        exact fun h => ⟨h.1 hmax, h.2⟩
      · intro h
        refine ⟨fun e' he' _ _ => ?_, fun h => absurd h hbeyond⟩
        rw [htake, he] at he'
        obtain rfl := Option.some.inj he'
        exact h.imp_left fun h => ⟨fun _ => h.1, h.2⟩
    rw [hkept]
    by_cases htop : nearZero < topScore sortedGaps
    · simp only [htop, if_true, true_and]
      exact goodSelection_postFilter_iff hsorted hle hbound.1 hbound.2
    · simp only [htop, if_false, false_and, false_or]
      exact goodSelection_take_iff hle hbound.1 hbound.2

theorem goodSelection_selectBeyond_iff
    (hsorted : sortedGaps.Pairwise fun a b => b.score ≤ a.score)
    (hmax : config.maxGaps < sortedGaps.length) :
    GoodSelection config sortedGaps (selectBeyond ops config sortedGaps) ↔
      HalfKept ops config sortedGaps := by
  have hbounds : config.minGaps ≤ config.maxGaps := config.minGaps_le.trans config.le_maxGaps
  have hwithin : ¬ sortedGaps.length ≤ config.maxGaps := not_le.2 hmax
  unfold selectBeyond
  by_cases htop : topScore sortedGaps < nearZero
  · rw [if_pos htop]
    refine iff_of_true ?_ ⟨fun e _ _ h => ?_, fun _ h => ?_⟩
    · refine (goodSelection_take_iff le_rfl hbounds (hbounds.trans hmax.le)).2 fun g hg => ?_
      rw [List.drop_of_length_le (List.length_take_le _ _)] at hg
      exact absurd hg List.not_mem_nil
    · exact absurd htop (not_lt.2 (h hmax))
    · exact absurd htop (not_lt.2 h)
  rw [if_neg htop]
  cases helbow : (findElbow ops (sortedGaps.take config.maxGaps)).filter (config.minGaps ≤ ·) with
  | none =>
    rw [filter_eq_none_iff] at helbow
    refine (goodSelection_take_iff hbounds le_rfl hmax.le).trans ⟨fun h => ?_, fun h => ?_⟩
    · exact ⟨fun e he hle => absurd hle (not_le.2 (helbow e he)), fun _ _ _ => h⟩
    · exact h.noElbow hmax (not_lt.1 htop) helbow
  | some e =>
    obtain ⟨he, hle⟩ := filter_eq_some_iff.1 helbow
    have hbound := elbow_le he
    simp only [List.take_take, min_eq_left hbound.1]
    rw [goodSelection_postFilter_iff hsorted hle hbound.1 hbound.2]
    constructor
    · intro h
      refine ⟨fun e' he' _ _ => ?_, fun _ _ h => absurd hle (not_le.2 (h e he))⟩
      obtain rfl := Option.some.inj (he.symm.trans he')
      exact h.imp_left fun h => ⟨fun h => absurd h hwithin, h⟩
    · exact fun h => (h.elbow e he hle fun _ => not_lt.1 htop).imp_left And.right

end Select

/-- The selection is good exactly when the half is kept where the code does not look at it. -/
theorem goodSelection_iff (ops : FloatOps) (config : GapConfig) (unifiedGaps : List UnifiedGap) :
    GoodSelection config (sortByScore unifiedGaps) (selectGapsByElbow ops config unifiedGaps) ↔
      HalfKept ops config (sortByScore unifiedGaps) := by
  have hsorted := pairwise_sortByScore unifiedGaps
  unfold selectGapsByElbow
  by_cases hnil : unifiedGaps = []
  · subst hnil
    exact iff_of_true (goodSelection_self (Nat.zero_le _)) (halfKept_of_le (Nat.zero_le _))
  rw [if_neg hnil]
  by_cases hmin : (sortByScore unifiedGaps).length ≤ config.minGaps
  · simp only [if_pos hmin]
    exact iff_of_true (goodSelection_self hmin) (halfKept_of_le hmin)
  by_cases hmax : (sortByScore unifiedGaps).length ≤ config.maxGaps
  · simp only [if_neg hmin, if_pos hmax]
    exact goodSelection_selectWithin_iff hsorted (not_le.1 hmin) hmax
  · simp only [if_neg hmin, if_neg hmax]
    exact goodSelection_selectBeyond_iff hsorted (not_le.1 hmax)

/-- Exact operations, with the square root of the chord of six gaps at most. -/
def exactOps : FloatOps where
  add := (· + ·)
  sub := (· - ·)
  mul := (· * ·)
  div := (· / ·)
  sqrt := fun _ => 14142135623730951 / 10000000000000000
  linspace := fun n i => i / (n - 1 : ℕ)

/-- A gap of some fifths. -/
def fifths (n : Fin 6) : UnifiedGap where
  query := "gap"
  score := n.val / 5
  nonneg := by positivity
  le_one := by
    have hle : (n.val : ℚ) ≤ 5 := by exact_mod_cast Nat.le_of_lt_succ n.isLt
    linarith

/-- Six gaps in even steps have no elbow, and the best five are taken. -/
theorem not_goodSelection_steps :
    ¬ GoodSelection ⟨1, 5, by decide, by decide, by decide⟩
      (sortByScore [fifths 5, fifths 4, fifths 3, fifths 2, fifths 1, fifths 0])
      (selectGapsByElbow exactOps ⟨1, 5, by decide, by decide, by decide⟩
        [fifths 5, fifths 4, fifths 3, fifths 2, fifths 1, fifths 0]) := by
  intro h
  have hmem : fifths 1 ∈ (selectGapsByElbow exactOps ⟨1, 5, by decide, by decide, by decide⟩
      [fifths 5, fifths 4, fifths 3, fifths 2, fifths 1, fifths 0]).drop 1 := by
    decide +kernel
  exact absurd (h.half_le _ hmem) (by decide +kernel)

end ChunkHound.GapSelection
