import Mathlib.Data.List.Basic
import Mathlib.Data.List.Infix
import Mathlib.Data.List.TakeWhile

/-!
# Words between delimiters

A word of a list is what stands between an opening and the next closing delimiter, without a
delimiter in between. `mapWords` rewrites all words at once, and `replaceAll` the occurrences of one
list from left to right. Replacing a word by a word is mapping the words (`replaceAll_word`), and
mapping twice is mapping by the composition (`mapWords_mapWords`), so that a run of replacements is
one simultaneous one.
-/

namespace DelimitedWords

variable {α : Type*} [DecidableEq α]

/-! ## Replacing a list -/

/-- Replace the occurrences, after the items that the last one covers are skipped. -/
def replaceFrom (old new : List α) : ℕ → List α → List α
  | _, [] => []
  | skip + 1, _ :: xs => replaceFrom old new skip xs
  | 0, x :: xs =>
    if old <+: x :: xs then new ++ replaceFrom old new (old.length - 1) xs
    else x :: replaceFrom old new 0 xs

/-- Replace the occurrences of a list that is not empty, from left to right. -/
def replaceAll (old new xs : List α) : List α := replaceFrom old new 0 xs

theorem replaceFrom_eq (old new : List α) : ∀ (skip : ℕ) (xs : List α),
    replaceFrom old new skip xs = replaceAll old new (xs.drop skip)
  | 0, xs => by rw [List.drop_zero, replaceAll]
  | skip + 1, [] => by simp [replaceAll, replaceFrom]
  | skip + 1, x :: xs => by
    rw [List.drop_succ_cons, ← replaceFrom_eq old new skip xs]
    rfl

theorem replaceAll_prefix {old : List α} (new xs : List α) (h : old ≠ []) :
    replaceAll old new (old ++ xs) = new ++ replaceAll old new xs := by
  cases old with
  | nil => exact absurd rfl h
  | cons y ys =>
    have hprefix : y :: ys <+: y :: (ys ++ xs) := List.prefix_append (y :: ys) xs
    have hstep : replaceAll (y :: ys) new (y :: ys ++ xs) =
        if y :: ys <+: y :: (ys ++ xs) then new ++ replaceFrom (y :: ys) new ys.length (ys ++ xs)
        else y :: replaceFrom (y :: ys) new 0 (ys ++ xs) := rfl
    rw [hstep, if_pos hprefix, replaceFrom_eq, List.drop_left]

theorem replaceAll_cons {old : List α} (new : List α) {x : α} {xs : List α}
    (h : ¬ old <+: x :: xs) :
    replaceAll old new (x :: xs) = x :: replaceAll old new xs :=
  if_neg h

/-- What cannot start an occurrence stays. -/
theorem replaceAll_append {o : α} (old new : List α) : ∀ {xs : List α}, o ∉ xs → ∀ ys,
    replaceAll (o :: old) new (xs ++ ys) = xs ++ replaceAll (o :: old) new ys
  | [], _, _ => rfl
  | x :: xs, h, ys => by
    have hx : ¬ o :: old <+: x :: (xs ++ ys) := fun hpre =>
      h (List.mem_cons.2 (Or.inl (List.cons_prefix_cons.1 hpre).1))
    rw [List.cons_append, replaceAll_cons new hx,
      replaceAll_append old new fun hmem => h (List.mem_cons_of_mem x hmem)]
    rfl

/-! ## Mapping the words -/

section Words

variable (o c : α)

/-- A list without a delimiter. -/
def Bare (b : List α) : Prop := o ∉ b ∧ c ∉ b

/-- The items up to the next delimiter. -/
def body (xs : List α) : List α := xs.takeWhile fun x => x ≠ o ∧ x ≠ c

/-- The next delimiter closes. -/
def closes (xs : List α) : Bool := (xs.dropWhile fun x => x ≠ o ∧ x ≠ c).head? = some c

/-- Rewrite the words, after the items of the last one are skipped. -/
def mapWordsFrom (f : List α → List α) : ℕ → List α → List α
  | _, [] => []
  | skip + 1, _ :: xs => mapWordsFrom f skip xs
  | 0, x :: xs =>
    if x = o ∧ closes o c xs then
      o :: f (body o c xs) ++ c :: mapWordsFrom f ((body o c xs).length + 1) xs
    else x :: mapWordsFrom f 0 xs

/-- Rewrite all words at once. -/
def mapWords (f : List α → List α) (xs : List α) : List α := mapWordsFrom o c f 0 xs

variable {o c}

theorem mapWordsFrom_eq (f : List α → List α) : ∀ (skip : ℕ) (xs : List α),
    mapWordsFrom o c f skip xs = mapWords o c f (xs.drop skip)
  | 0, xs => by rw [List.drop_zero, mapWords]
  | skip + 1, [] => by simp [mapWords, mapWordsFrom]
  | skip + 1, x :: xs => by
    rw [List.drop_succ_cons, ← mapWordsFrom_eq f skip xs]
    rfl

theorem body_append {b : List α} (h : Bare o c b) (xs : List α) :
    body o c (b ++ c :: xs) = b := by
  unfold body
  rw [List.takeWhile_append_of_pos fun x hx => ?_]
  · simp
  · have ho : x ≠ o := fun heq => h.1 (heq ▸ hx)
    have hc : x ≠ c := fun heq => h.2 (heq ▸ hx)
    simp [ho, hc]

theorem bare_body (xs : List α) : Bare o c (body o c xs) := by
  have hmem : ∀ x ∈ body o c xs, x ≠ o ∧ x ≠ c := fun x hx => by
    simpa using List.mem_takeWhile_imp hx
  exact ⟨fun h => (hmem o h).1 rfl, fun h => (hmem c h).2 rfl⟩

variable {xs : List α}

/-- What closes is a list without a delimiter, and the closing one. -/
theorem closes_iff :
    closes o c xs = true ↔ ∃ b rest, Bare o c b ∧ xs = b ++ c :: rest := by
  constructor
  · intro h
    have hsplit := List.takeWhile_append_dropWhile (p := fun x => x ≠ o ∧ x ≠ c) (l := xs)
    unfold closes at h
    cases hdrop : xs.dropWhile fun x => x ≠ o ∧ x ≠ c with
    | nil =>
      rw [hdrop] at h
      simp at h
    | cons x rest =>
      rw [hdrop] at h hsplit
      obtain rfl : x = c := by simpa using h
      exact ⟨body o x xs, rest, bare_body xs, hsplit.symm⟩
  · rintro ⟨b, rest, hb, rfl⟩
    have hpos : ∀ x ∈ b, decide (x ≠ o ∧ x ≠ c) = true := fun x hx => by
      have ho : x ≠ o := fun heq => hb.1 (heq ▸ hx)
      have hc : x ≠ c := fun heq => hb.2 (heq ▸ hx)
      simp [ho, hc]
    unfold closes
    rw [List.dropWhile_append_of_pos hpos, List.dropWhile_cons_of_neg (by simp)]
    simp

theorem closes_cons (h : o ≠ c) {x : α} :
    closes o c (x :: xs) = true ↔ x = c ∨ x ≠ o ∧ closes o c xs = true := by
  unfold closes
  rw [List.dropWhile_cons]
  by_cases ho : x = o
  · subst ho
    simp [h]
  · by_cases hc : x = c
    · simp [hc]
    · simp [ho, hc]

theorem mapWords_word (f : List α → List α) {b : List α} (h : Bare o c b) (xs : List α) :
    mapWords o c f (o :: b ++ c :: xs) = o :: f b ++ c :: mapWords o c f xs := by
  have hcloses : closes o c (b ++ c :: xs) = true := closes_iff.2 ⟨b, xs, h, rfl⟩
  have hstep : mapWords o c f (o :: b ++ c :: xs) =
      if o = o ∧ closes o c (b ++ c :: xs) then o :: f (body o c (b ++ c :: xs)) ++
        c :: mapWordsFrom o c f ((body o c (b ++ c :: xs)).length + 1) (b ++ c :: xs)
      else o :: mapWordsFrom o c f 0 (b ++ c :: xs) := rfl
  rw [hstep, if_pos ⟨rfl, hcloses⟩, body_append h, mapWordsFrom_eq]
  simp

theorem mapWords_cons (f : List α → List α) {x : α} (h : ¬ (x = o ∧ closes o c xs = true)) :
    mapWords o c f (x :: xs) = x :: mapWords o c f xs :=
  if_neg h

/-- A list is read word by word. -/
theorem words_induction {motive : List α → Prop} (nil : motive [])
    (word : ∀ b xs, Bare o c b → motive xs → motive (o :: b ++ c :: xs))
    (cons : ∀ x xs, ¬ (x = o ∧ closes o c xs = true) → motive xs → motive (x :: xs))
    (xs : List α) : motive xs := by
  induction hn : xs.length using Nat.strong_induction_on generalizing xs with
  | _ n ih =>
    subst hn
    cases xs with
    | nil => exact nil
    | cons x xs =>
      by_cases h : x = o ∧ closes o c xs = true
      · obtain ⟨rfl, hcloses⟩ := h
        obtain ⟨b, rest, hb, rfl⟩ := closes_iff.1 hcloses
        exact word b rest hb (ih rest.length (by simp; omega) rest rfl)
      · exact cons x xs h (ih xs.length (by simp) xs rfl)

/-- Mapping the words keeps what closes. -/
theorem closes_mapWords (h : o ≠ c) (f : List α → List α) (xs : List α) :
    closes o c (mapWords o c f xs) = true ↔ closes o c xs = true := by
  induction xs using words_induction (o := o) (c := c) with
  | nil => exact Iff.rfl
  | word b xs hb _ =>
    rw [mapWords_word f hb, List.cons_append, List.cons_append, closes_cons h, closes_cons h]
    simp [h]
  | cons x xs hx ih => rw [mapWords_cons f hx, closes_cons h, closes_cons h, ih]

theorem mapWords_mapWords (h : o ≠ c) {f g : List α → List α}
    (hf : ∀ b, Bare o c b → Bare o c (f b)) (xs : List α) :
    mapWords o c g (mapWords o c f xs) = mapWords o c (g ∘ f) xs := by
  induction xs using words_induction (o := o) (c := c) with
  | nil => rfl
  | word b xs hb ih =>
    rw [mapWords_word f hb, mapWords_word g (hf b hb), mapWords_word (g ∘ f) hb, ih,
      Function.comp_apply]
  | cons x xs hx ih =>
    rw [mapWords_cons f hx, mapWords_cons g (by rwa [closes_mapWords h]), mapWords_cons _ hx, ih]

theorem mapWords_id (xs : List α) : mapWords o c (fun b => b) xs = xs := by
  induction xs using words_induction (o := o) (c := c) with
  | nil => rfl
  | word b xs hb ih => rw [mapWords_word _ hb, ih]
  | cons x xs hx ih => rw [mapWords_cons _ hx, ih]

/-- Replacing a word by a word rewrites the words that are it. -/
theorem replaceAll_word (h : o ≠ c) {a : List α} (a' : List α) (ha : Bare o c a) (xs : List α) :
    replaceAll (o :: a ++ [c]) (o :: a' ++ [c]) xs =
      mapWords o c (fun b => if b = a then a' else b) xs := by
  induction xs using words_induction (o := o) (c := c) with
  | nil => rfl
  | word b xs hb ih =>
    rw [mapWords_word _ hb]
    by_cases hab : b = a
    · subst hab
      have hsplit : o :: b ++ c :: xs = (o :: b ++ [c]) ++ xs := by simp
      rw [hsplit, replaceAll_prefix _ _ (by simp), ih, if_pos rfl]
      simp
    · have hprefix : ¬ o :: (a ++ [c]) <+: o :: (b ++ c :: xs) := by
        rintro ⟨rest, hrest⟩
        have hbody : a ++ c :: rest = b ++ c :: xs := by simpa using hrest
        refine hab ?_
        rw [← body_append hb xs, ← hbody, body_append ha]
      have hrest : replaceAll (o :: (a ++ [c])) (o :: a' ++ [c]) (b ++ c :: xs) =
          b ++ c :: replaceAll (o :: (a ++ [c])) (o :: a' ++ [c]) xs := by
        have hnot : o ∉ b ++ [c] := by simp [hb.1, h]
        have happend := replaceAll_append (a ++ [c]) (o :: a' ++ [c]) hnot xs
        simpa using happend
      rw [if_neg hab, ← ih]
      exact (replaceAll_cons _ hprefix).trans (congrArg (o :: ·) hrest)
  | cons x xs hx ih =>
    have hprefix : ¬ o :: (a ++ [c]) <+: x :: xs := by
      rintro ⟨rest, hrest⟩
      obtain ⟨rfl, rfl⟩ : o = x ∧ a ++ c :: rest = xs := by simpa using hrest
      exact hx ⟨rfl, closes_iff.2 ⟨a, rest, ha, rfl⟩⟩
    rw [mapWords_cons _ hx, ← ih]
    exact replaceAll_cons _ hprefix

end Words

end DelimitedWords
