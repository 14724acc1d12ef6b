import Mathlib.Order.Bounds.Basic
import Mathlib.Data.List.Basic
import Mathlib.Tactic.Common

/-!
# Searches in a text

A pattern tells the length of its match at the head of a text, and a search finds the first place
with a match. Searches for several patterns, each from the end of the one before, end at the first
place that has matches of all of them in front of it (`isLeast_of_searchEach`), where a later
match of a pattern never ends earlier (`EndsInOrder`).
-/

namespace ChunkHound.TextSearch

variable {α : Type*}

/-- A pattern, by the length of its match at the head of a text. -/
abbrev Pattern (α : Type*) := List α → Option ℕ

/-- `re.search` : where the first match starts and where it ends. -/
def search (p : Pattern α) : List α → Option (ℕ × ℕ)
  | [] => (p []).map fun n => (0, n)
  | a :: s =>
    match p (a :: s) with
    | some n => some (0, n)
    | none => (search p s).map fun m => (m.1 + 1, m.2 + 1)

/-- The pattern of these characters. -/
def literal [DecidableEq α] (word : List α) : Pattern α := fun s =>
  if word <+: s then some word.length else none

/-- The first match from a place on, and its length. -/
structure First (p : Pattern α) (text : List α) (start i n : ℕ) : Prop where
  le : start ≤ i
  hit : p (text.drop i) = some n
  earlier : ∀ k, start ≤ k → k < i → p (text.drop k) = none

/-- There is no match from a place on. -/
def Absent (p : Pattern α) (text : List α) (start : ℕ) : Prop :=
  ∀ k, start ≤ k → p (text.drop k) = none

variable {p : Pattern α}

theorem search_eq_none_iff : ∀ {s : List α},
    search p s = none ↔ ∀ k, p (s.drop k) = none
  | [] => by simp [search]
  | a :: s => by
    rw [search]
    cases hp : p (a :: s) with
    | some n => exact iff_of_false nofun fun h => by simpa [hp] using h 0
    | none =>
      simp only [Option.map_eq_none_iff, search_eq_none_iff]
      refine ⟨fun h k => ?_, fun h k => h (k + 1)⟩
      cases k with
      | zero => exact hp
      | succ k => exact h k

theorem search_spec : ∀ {s : List α} {i j : ℕ}, search p s = some (i, j) →
    ∃ n, j = i + n ∧ p (s.drop i) = some n ∧ ∀ k < i, p (s.drop k) = none
  | [], i, j, h => by
    obtain ⟨n, hn, heq⟩ := Option.map_eq_some_iff.1 h
    obtain ⟨rfl, rfl⟩ := Prod.mk.inj heq
    exact ⟨n, (Nat.zero_add n).symm, hn, fun k hk => absurd hk (Nat.not_lt_zero k)⟩
  | a :: s, i, j, h => by
    rw [search] at h
    cases hp : p (a :: s) with
    | some n =>
      rw [hp] at h
      obtain ⟨rfl, rfl⟩ := Prod.mk.inj (Option.some.inj h)
      exact ⟨n, (Nat.zero_add n).symm, hp, fun k hk => absurd hk (Nat.not_lt_zero k)⟩
    | none =>
      rw [hp] at h
      obtain ⟨⟨i', j'⟩, hrest, heq⟩ := Option.map_eq_some_iff.1 h
      obtain ⟨rfl, rfl⟩ := Prod.mk.inj heq
      obtain ⟨n, rfl, hhit, hearlier⟩ := search_spec hrest
      refine ⟨n, by omega, hhit, fun k hk => ?_⟩
      cases k with
      | zero => exact hp
      | succ k => exact hearlier k (by omega)

variable {text : List α}

/-- A search from a place on finds the first match. -/
theorem first_of_search {start i j : ℕ} (h : search p (text.drop start) = some (i, j)) :
    ∃ n, j = i + n ∧ First p text start (start + i) n := by
  obtain ⟨n, hj, hhit, hearlier⟩ := search_spec h
  rw [List.drop_drop] at hhit
  refine ⟨n, hj, Nat.le_add_right _ _, hhit, fun k hle hlt => ?_⟩
  have hk := hearlier (k - start) (by omega)
  rwa [List.drop_drop, Nat.add_sub_cancel' hle] at hk

theorem absent_of_search {start : ℕ}
    (h : search p (text.drop start) = none) : Absent p text start := by
  intro k hle
  have hk := search_eq_none_iff.1 h (k - start)
  rwa [List.drop_drop, Nat.add_sub_cancel' hle] at hk

theorem First.unique {start i n i' n' : ℕ}
    (h : First p text start i n) (h' : First p text start i' n') : i = i' ∧ n = n' := by
  have hi : i = i' := by
    rcases Nat.lt_trichotomy i i' with hlt | heq | hlt
    · exact absurd (h'.earlier i h.le hlt) (by simp [h.hit])
    · exact heq
    · exact absurd (h.earlier i' h'.le hlt) (by simp [h'.hit])
  subst hi
  exact ⟨rfl, Option.some.inj (h.hit.symm.trans h'.hit)⟩

/-! ## One pattern after the other -/

/-- A later match never ends earlier. -/
def EndsInOrder (p : Pattern α) : Prop :=
  ∀ ⦃text : List α⦄ ⦃i j n m : ℕ⦄, i ≤ j → p (text.drop i) = some n →
    p (text.drop j) = some m → i + n ≤ j + m

/-- Between two places there are matches of the patterns, one behind the other. -/
def Between (text : List α) : ℕ → List (Pattern α) → ℕ → Prop
  | start, [], stop => start ≤ stop
  | start, p :: ps, stop =>
    ∃ i n, start ≤ i ∧ p (text.drop i) = some n ∧ Between text (i + n) ps stop

/-- Where the last of several searches ends, each from the end of the one before. -/
def searchEach (text : List α) : ℕ → List (Pattern α) → Option ℕ
  | start, [] => some start
  | start, p :: ps =>
    match search p (text.drop start) with
    | none => none
    | some m => searchEach text (start + m.2) ps

theorem Between.mono : ∀ {ps : List (Pattern α)} {start start' stop : ℕ},
    start ≤ start' → Between text start' ps stop → Between text start ps stop
  | [], _, _, _, h, hstop => h.trans hstop
  | _ :: _, _, _, _, h, ⟨i, n, hi, hrest⟩ => ⟨i, n, h.trans hi, hrest⟩

/-- The places with matches in front of them are those from the end of the searches on. -/
theorem between_iff_of_searchEach : ∀ {ps : List (Pattern α)},
    (∀ p ∈ ps, EndsInOrder p) → ∀ start stop : ℕ,
      Between text start ps stop ↔ ∃ k, searchEach text start ps = some k ∧ k ≤ stop
  | [], _, start, stop => by simp [Between, searchEach]
  | p :: ps, horder, start, stop => by
    have hrest : ∀ k, Between text k ps stop ↔ ∃ l, searchEach text k ps = some l ∧ l ≤ stop :=
      fun k => between_iff_of_searchEach (fun q hq => horder q (List.mem_cons_of_mem _ hq)) k stop
    rw [searchEach]
    cases hsearch : search p (text.drop start) with
    | none =>
      refine iff_of_false ?_ (by simp)
      rintro ⟨i, n, hi, hhit, -⟩
      exact absurd (absent_of_search hsearch i hi) (by simp [hhit])
    | some m =>
      obtain ⟨i, j⟩ := m
      obtain ⟨n, rfl, hfirst⟩ := first_of_search hsearch
      rw [← hrest, ← Nat.add_assoc]
      constructor
      · rintro ⟨i', n', hi', hhit', hbetween⟩
        have hle : start + i ≤ i' := by
          by_contra hlt
          exact absurd (hfirst.earlier i' hi' (by omega)) (by simp [hhit'])
        exact hbetween.mono (horder p List.mem_cons_self hle hfirst.hit hhit')
      · exact fun hbetween => ⟨start + i, n, hfirst.le, hfirst.hit, hbetween⟩

variable {ps : List (Pattern α)}

/-- A search behind several others finds the first match that has matches of the others in front
of it. -/
theorem isLeast_of_searchEach {start k i j : ℕ}
    (horder : ∀ q ∈ ps, EndsInOrder q) (heach : searchEach text start ps = some k)
    (h : search p (text.drop k) = some (i, j)) :
    IsLeast {k | (p (text.drop k)).isSome ∧ Between text start ps k} (k + i) := by
  obtain ⟨n, -, hfirst⟩ := first_of_search h
  refine ⟨⟨by simp [hfirst.hit], ?_⟩, ?_⟩
  · exact (between_iff_of_searchEach horder start _).2 ⟨k, heach, hfirst.le⟩
  · rintro l ⟨hhit, hbetween⟩
    obtain ⟨k', hk', hle⟩ := (between_iff_of_searchEach horder start _).1 hbetween
    obtain rfl := Option.some.inj (heach.symm.trans hk')
    by_contra hlt
    rw [hfirst.earlier l hle (by omega)] at hhit
    exact absurd hhit (by simp)

/-- Where a search behind several others finds nothing, no match has matches of the others in
front of it. -/
theorem not_between_of_searchEach {start : ℕ} (horder : ∀ q ∈ ps, EndsInOrder q)
    (h : ∀ k, searchEach text start ps = some k → search p (text.drop k) = none) {l : ℕ}
    (hhit : (p (text.drop l)).isSome) : ¬Between text start ps l := by
  intro hbetween
  obtain ⟨k, hk, hle⟩ := (between_iff_of_searchEach horder start _).1 hbetween
  rw [absent_of_search (h k hk) l hle] at hhit
  exact absurd hhit (by simp)

end ChunkHound.TextSearch
