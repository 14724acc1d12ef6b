import Mathlib.Data.List.Basic
import Mathlib.Tactic.Common

/-!
# The last match wins

`lastMatch m v l` is the value of the last element of `l` that `m` admits : what a list of
rules says of something, when a later rule overrides an earlier one.

A rule may stand for several (`lastMatch_flatMap`), and a list of rules may be asked about
several things at once. The last rule that matches any of them is the last one that matches
some one of them (`exists_lastMatch_of_any`).
-/

namespace LastMatch

variable {α β γ κ : Type*}

def lastMatch (m : α → Bool) (v : α → β) : List α → Option β
  | [] => none
  | a :: l => (lastMatch m v l).or (if m a then some (v a) else none)

section LastMatch

variable {m m' : α → Bool} {v : α → β} {l : List α} {b : β}

@[simp] theorem lastMatch_nil : lastMatch m v [] = none := rfl

theorem lastMatch_cons (a : α) (l : List α) :
    lastMatch m v (a :: l) = (lastMatch m v l).or (if m a then some (v a) else none) := rfl

theorem lastMatch_append : ∀ l l' : List α,
    lastMatch m v (l ++ l') = (lastMatch m v l').or (lastMatch m v l)
  | [], l' => by simp
  | a :: l, l' => by
    rw [List.cons_append, lastMatch_cons, lastMatch_append l l', lastMatch_cons, Option.or_assoc]

theorem lastMatch_eq_none : lastMatch m v l = none ↔ ∀ a ∈ l, m a = false := by
  induction l with
  | nil => simp
  | cons a l ih =>
    rw [lastMatch_cons, Option.or_eq_none_iff, ih, List.forall_mem_cons]
    cases m a <;> simp

theorem lastMatch_congr (h : ∀ a ∈ l, m a = m' a) : lastMatch m v l = lastMatch m' v l := by
  induction l with
  | nil => rfl
  | cons a l ih =>
    rw [List.forall_mem_cons] at h
    rw [lastMatch_cons, lastMatch_cons, ih h.2, h.1]

/-- Elements that do not match may be left out. -/
theorem lastMatch_filter (p : α → Bool) (h : ∀ a ∈ l, m a = true → p a = true) :
    lastMatch m v (l.filter p) = lastMatch m v l := by
  induction l with
  | nil => rfl
  | cons a l ih =>
    rw [List.forall_mem_cons] at h
    rw [List.filter_cons]
    split
    · rw [lastMatch_cons, lastMatch_cons, ih h.2]
    · rename_i hp
      have hm : m a = false := by
        by_contra hne
        exact hp (h.1 (by simpa using hne))
      rw [ih h.2, lastMatch_cons, hm]
      simp

/-- The rules of one group have one value. -/
theorem lastMatch_group {b : β} (h : ∀ a ∈ l, v a = b) :
    lastMatch m v l = if l.any m then some b else none := by
  induction l with
  | nil => rfl
  | cons a l ih =>
    rw [List.forall_mem_cons] at h
    rw [lastMatch_cons, ih h.2, h.1, List.any_cons]
    cases m a <;> cases l.any m <;> rfl

/-- A list of groups, each with one value, is asked like a list of rules. -/
theorem lastMatch_flatMap {g : γ → List α} {w : γ → β} {r : List γ}
    (h : ∀ c ∈ r, ∀ a ∈ g c, v a = w c) :
    lastMatch m v (r.flatMap g) = lastMatch (fun c => (g c).any m) w r := by
  induction r with
  | nil => rfl
  | cons c r ih =>
    rw [List.forall_mem_cons] at h
    rw [List.flatMap_cons, lastMatch_append, ih h.2, lastMatch_group h.1, lastMatch_cons]

variable {f : κ → α → Bool}

/-- The last rule that matches any of `ks` is the last that matches some one of them. -/
theorem exists_lastMatch_of_any {ks : List κ}
    (h : lastMatch (fun a => ks.any fun k => f k a) v l = some b) :
    ∃ k ∈ ks, lastMatch (f k) v l = some b := by
  induction l with
  | nil => cases h
  | cons a l ih =>
    rw [lastMatch_cons, Option.or_eq_some_iff] at h
    rcases h with hlast | ⟨hnone, hfirst⟩
    · obtain ⟨k, hk, hb⟩ := ih hlast
      refine ⟨k, hk, ?_⟩
      rw [lastMatch_cons, hb]
      rfl
    · split at hfirst
      · rename_i hany
        obtain ⟨k, hk, hm⟩ := List.any_eq_true.1 hany
        have hrest : lastMatch (f k) v l = none := lastMatch_eq_none.2 fun x hx => by
          have hx := lastMatch_eq_none.1 hnone x hx
          simpa using List.any_eq_false.1 hx k hk
        refine ⟨k, hk, ?_⟩
        rw [lastMatch_cons, hrest, if_pos hm, Option.none_or]
        exact hfirst
      · cases hfirst

/-- When no rule matches any of `ks`, none matches one of them. -/
theorem lastMatch_none_of_any {ks : List κ} {k : κ} (hk : k ∈ ks)
    (h : lastMatch (fun a => ks.any fun k => f k a) v l = none) : lastMatch (f k) v l = none :=
  lastMatch_eq_none.2 fun a ha => by
    have ha := lastMatch_eq_none.1 h a ha
    simpa using List.any_eq_false.1 ha k hk

end LastMatch

end LastMatch
