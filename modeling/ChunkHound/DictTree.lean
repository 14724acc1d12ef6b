import Mathlib
import ChunkHound.OrderedDict

/-!
# Trees of dictionaries

A tree is a scalar, a list of trees, or a dictionary of trees. A path of keys leads through
dictionaries. `setAt` writes at a path and makes the dictionaries on the way, in the place of
anything that is none, and `removeAt` takes out what is there. Both only change what stands at the
path, below it or on the way to it (`find_setAt_of_apart`, `find_removeAt_of_apart`).

`deepMerge` merges one dictionary into another. What the update says at a path is merged into what
is there (`find_mergeValue`), and what it says nothing about stays (`find_mergeValue_of_silent`).

`same` compares trees as `==` does : dictionaries without regard to the order of their keys, scalars
by a given comparison. It is transitive where that is (`same_trans`).
-/

namespace DictTree

variable {κ σ : Type*}

inductive Tree (κ σ : Type*)
  | leaf (scalar : σ)
  | arr (items : List (Tree κ σ))
  | dict (entries : List (κ × Tree κ σ))

/-- The entries of a dictionary, none for anything else. -/
def entriesOf : Option (Tree κ σ) → List (κ × Tree κ σ)
  | some (.dict entries) => entries
  | _ => []

/-- Neither path leads on from the other. -/
def Apart (p q : List κ) : Prop := ¬p <+: q ∧ ¬q <+: p

theorem Apart.symm {p q : List κ} (h : Apart p q) : Apart q p := ⟨h.2, h.1⟩

variable {k : κ}

theorem Apart.of_cons {p q : List κ} (h : Apart (k :: p) (k :: q)) : Apart p q :=
  ⟨fun hp => h.1 (List.cons_prefix_cons.2 ⟨rfl, hp⟩),
    fun hq => h.2 (List.cons_prefix_cons.2 ⟨rfl, hq⟩)⟩

theorem Apart.ne_nil {p q : List κ} (h : Apart p q) : p ≠ [] ∧ q ≠ [] :=
  ⟨fun hp => h.1 (hp ▸ List.nil_prefix), fun hq => h.2 (hq ▸ List.nil_prefix)⟩

variable [DecidableEq κ]

instance Apart.decidable (p q : List κ) : Decidable (Apart p q) :=
  inferInstanceAs (Decidable (¬p <+: q ∧ ¬q <+: p))

/-! ## Paths -/

/-- What stands at a path. -/
def find : List κ → Tree κ σ → Option (Tree κ σ)
  | [], t => some t
  | k :: ks, .dict entries => (entries.lookup k).bind (find ks)
  | _ :: _, _ => none

/-- Write at a path, through dictionaries that are made where there are none. -/
def setAt : List κ → Tree κ σ → List (κ × Tree κ σ) → List (κ × Tree κ σ)
  | [], _, d => d
  | [k], v, d => OrderedDict.insert k v d
  | k :: ks, v, d => OrderedDict.insert k (.dict (setAt ks v (entriesOf (d.lookup k)))) d

/-- Take out what stands at a path. -/
def removeAt : List κ → List (κ × Tree κ σ) → List (κ × Tree κ σ)
  | [], d => d
  | [k], d => OrderedDict.erase k d
  | k :: ks, d =>
    match d.lookup k with
    | some (.dict entries) => OrderedDict.insert k (.dict (removeAt ks entries)) d
    | _ => d

theorem find_cons (k : κ) (ks : List κ) (d : List (κ × Tree κ σ)) :
    find (k :: ks) (.dict d) = (d.lookup k).bind (find ks) := rfl

theorem find_append : ∀ (p q : List κ) (t : Tree κ σ),
    find (p ++ q) t = (find p t).bind (find q)
  | [], _, _ => rfl
  | k :: p, q, .dict d => by
    rw [List.cons_append, find_cons, find_cons, Option.bind_assoc]
    exact congrArg _ (funext fun t => find_append p q t)
  | _ :: _, _, .leaf _ | _ :: _, _, .arr _ => rfl

theorem find_entriesOf {ks : List κ} : ∀ t : Option (Tree κ σ),
    find (k :: ks) (.dict (entriesOf t)) = t.bind (find (k :: ks))
  | none | some (.leaf _) | some (.arr _) | some (.dict _) => rfl

theorem find_setAt : ∀ {p : List κ} {v : Tree κ σ} {d : List (κ × Tree κ σ)}, p ≠ [] →
    find p (.dict (setAt p v d)) = some v
  | [k], v, d, _ => by
    rw [setAt, find_cons, OrderedDict.lookup_insert_self]
    rfl
  | k :: k' :: ks, v, d, _ => by
    have ih : find (k' :: ks) (.dict (setAt (k' :: ks) v (entriesOf (d.lookup k)))) = some v :=
      find_setAt (List.cons_ne_nil k' ks)
    rw [setAt, find_cons, OrderedDict.lookup_insert_self, Option.bind_some, ih]
    exact List.cons_ne_nil k' ks

theorem find_setAt_of_apart : ∀ {p q : List κ} {v : Tree κ σ} {d : List (κ × Tree κ σ)},
    Apart p q → find q (.dict (setAt p v d)) = find q (.dict d)
  | [], _, _, _, h => absurd rfl h.ne_nil.1
  | _, [], _, _, h => absurd rfl h.ne_nil.2
  | [k], k' :: q, v, d, h => by
    have hne : k' ≠ k := by
      rintro rfl
      exact h.1 (List.cons_prefix_cons.2 ⟨rfl, List.nil_prefix⟩)
    rw [setAt, find_cons, find_cons, OrderedDict.lookup_insert, if_neg hne]
  | k :: k₁ :: p, k' :: q, v, d, h => by
    rw [setAt, find_cons, find_cons, OrderedDict.lookup_insert]
    · by_cases hk : k' = k
      · subst hk
        rw [if_pos rfl, Option.bind_some, find_setAt_of_apart h.of_cons]
        obtain ⟨k₂, q, rfl⟩ := List.exists_cons_of_ne_nil h.of_cons.ne_nil.2
        exact find_entriesOf _
      · rw [if_neg hk]
    · exact List.cons_ne_nil k₁ p

theorem find_removeAt : ∀ {p : List κ} {d : List (κ × Tree κ σ)}, p ≠ [] →
    find p (.dict (removeAt p d)) = none
  | [k], d, _ => by
    rw [removeAt, find_cons, OrderedDict.lookup_erase, if_pos rfl]
    rfl
  | k :: k' :: ks, d, _ => by
    rw [removeAt]
    · split
      · rename_i entries hk
        rw [find_cons, OrderedDict.lookup_insert_self, Option.bind_some,
          find_removeAt (List.cons_ne_nil k' ks)]
      · rename_i hk
        rw [find_cons]
        cases ht : d.lookup k with
        | none => rfl
        | some t =>
          cases t with
          | leaf s => rfl
          | arr items => rfl
          | dict entries => exact absurd ht (hk entries)
    · exact List.cons_ne_nil k' ks

theorem find_removeAt_of_apart : ∀ {p q : List κ} {d : List (κ × Tree κ σ)}, Apart p q →
    find q (.dict (removeAt p d)) = find q (.dict d)
  | [], _, _, h => absurd rfl h.ne_nil.1
  | _, [], _, h => absurd rfl h.ne_nil.2
  | [k], k' :: q, d, h => by
    have hne : k' ≠ k := by
      rintro rfl
      exact h.1 (List.cons_prefix_cons.2 ⟨rfl, List.nil_prefix⟩)
    rw [removeAt, find_cons, find_cons, OrderedDict.lookup_erase, if_neg hne]
  | k :: k₁ :: p, k' :: q, d, h => by
    rw [removeAt]
    · split
      · rename_i entries hk
        rw [find_cons, find_cons, OrderedDict.lookup_insert]
        by_cases hk' : k' = k
        · subst hk'
          rw [if_pos rfl, hk, Option.bind_some, Option.bind_some,
            find_removeAt_of_apart h.of_cons]
        · rw [if_neg hk']
      · rfl
    · exact List.cons_ne_nil k₁ p

/-- Nothing is taken out where nothing is. -/
theorem removeAt_eq_self : ∀ {p : List κ} {d : List (κ × Tree κ σ)},
    find p (.dict d) = none → removeAt p d = d
  | [], _, _ => rfl
  | [k], d, h => by
    have hk : d.lookup k = none := by
      cases ht : d.lookup k with
      | none => rfl
      | some t =>
        rw [find_cons, ht] at h
        cases h
    refine List.filter_eq_self.2 fun e he => ?_
    have hne : e.1 ≠ k := fun heq =>
      OrderedDict.lookup_eq_none_iff.1 hk (List.mem_map.2 ⟨e, he, heq⟩)
    simpa using hne
  | k :: k' :: ks, d, h => by
    rw [removeAt]
    · split
      · rename_i entries hk
        rw [find_cons, hk, Option.bind_some] at h
        exact OrderedDict.alter_eq_self (by rw [removeAt_eq_self h]) hk
      · rfl
    · exact List.cons_ne_nil k' ks

/-! ## Merging -/

mutual

/-- The value of an update, merged into the one that is there. -/
def mergeValue (old : Option (Tree κ σ)) : Tree κ σ → Tree κ σ
  | .dict update => .dict (deepMerge (entriesOf old) update)
  | .leaf s => .leaf s
  | .arr items => .arr items

/-- The entries of an update, one after another, merged into a dictionary. -/
def deepMerge (base : List (κ × Tree κ σ)) : List (κ × Tree κ σ) → List (κ × Tree κ σ)
  | [] => base
  | (k, v) :: rest => deepMerge (OrderedDict.insert k (mergeValue (base.lookup k) v) base) rest

end

/-- No dictionary in the tree has a key twice. -/
def Distinct (t : Tree κ σ) : Prop :=
  ∀ p entries, find p t = some (.dict entries) → (OrderedDict.keys entries).Nodup

variable {t : Tree κ σ}

theorem Distinct.entry {entries : List (κ × Tree κ σ)}
    (h : Distinct (.dict entries)) (hk : entries.lookup k = some t) : Distinct t := by
  intro p inner hp
  refine h (k :: p) inner ?_
  rw [find_cons, hk]
  exact hp

theorem distinct_leaf (s : σ) : Distinct (.leaf s : Tree κ σ)
  | [], _, h => by cases h
  | _ :: _, _, h => by cases h

theorem distinct_singleton (h : Distinct t) : Distinct (.dict [(k, t)])
  | [], _, hp => by
    cases hp
    exact List.nodup_singleton k
  | k' :: p, inner, hp => by
    obtain ⟨v, hv, hinner⟩ := Option.bind_eq_some_iff.1 hp
    rw [List.lookup_cons] at hv
    split at hv
    · cases hv
      exact h p inner hinner
    · cases hv

theorem lookup_deepMerge (k : κ) : ∀ {update base : List (κ × Tree κ σ)},
    (OrderedDict.keys update).Nodup → (deepMerge base update).lookup k =
      match update.lookup k with
      | none => base.lookup k
      | some v => some (mergeValue (base.lookup k) v)
  | [], _, _ => by rw [deepMerge, List.lookup_nil]
  | (k', v) :: rest, base, h => by
    obtain ⟨hk', hrest⟩ := List.nodup_cons.1 h
    rw [deepMerge, lookup_deepMerge k hrest, OrderedDict.lookup_insert, List.lookup_cons]
    by_cases hk : k = k'
    · subst hk
      have hnone : rest.lookup k = none := OrderedDict.lookup_eq_none_iff.2 hk'
      rw [hnone, if_pos rfl, beq_self_eq_true]
    · rw [if_neg hk, beq_false_of_ne hk]

/-- What an update says at a path is merged into what is there. -/
theorem find_mergeValue : ∀ {p : List κ} {old : Option (Tree κ σ)} {t v : Tree κ σ}, Distinct t →
    find p t = some v → find p (mergeValue old t) = some (mergeValue (old.bind (find p)) v)
  | [], old, t, v, _, h => by
    obtain rfl := Option.some.inj h
    cases old <;> rfl
  | k :: p, old, .dict update, v, hd, h => by
    obtain ⟨t, hk, ht⟩ := Option.bind_eq_some_iff.1 h
    rw [mergeValue, find_cons, lookup_deepMerge k (hd [] update rfl), hk, Option.bind_some,
      find_mergeValue (hd.entry hk) ht, ← find_entriesOf, find_cons]

/-- The tree says nothing at the path, nor at any part of it. -/
def Silent : List κ → Tree κ σ → Prop
  | k :: ks, .dict entries => ∀ t, entries.lookup k = some t → Silent ks t
  | _, _ => False

/-- What an update says nothing about stays. -/
theorem find_mergeValue_of_silent : ∀ {p : List κ} {old : Option (Tree κ σ)} {t : Tree κ σ},
    Distinct t → Silent p t → find p (mergeValue old t) = old.bind (find p)
  | k :: p, old, .dict update, hd, h => by
    rw [mergeValue, find_cons, lookup_deepMerge k (hd [] update rfl), ← find_entriesOf, find_cons]
    cases hk : update.lookup k with
    | none => rfl
    | some t => exact find_mergeValue_of_silent (hd.entry hk) (h t hk)

/-- A value that is merged in counts at a path only with what is there. -/
theorem find_mergeValue_congr : ∀ {p : List κ} {old old' : Option (Tree κ σ)} {t : Tree κ σ},
    Distinct t → old.bind (find p) = old'.bind (find p) →
      find p (mergeValue old t) = find p (mergeValue old' t)
  | [], old, old', t, _, h => by
    have hself : ∀ o : Option (Tree κ σ), o.bind (find []) = o := fun o => by cases o <;> rfl
    rw [hself, hself] at h
    rw [h]
  | _ :: _, _, _, .leaf _, _, _ => rfl
  | _ :: _, _, _, .arr _, _, _ => rfl
  | k :: p, old, old', .dict update, hd, h => by
    rw [← find_entriesOf, ← find_entriesOf, find_cons, find_cons] at h
    rw [mergeValue, mergeValue, find_cons, find_cons, lookup_deepMerge k (hd [] update rfl),
      lookup_deepMerge k (hd [] update rfl)]
    cases hk : update.lookup k with
    | none => exact h
    | some t => exact find_mergeValue_congr (hd.entry hk) h

variable {p : List κ}

/-- What a dictionary says about a path depends on what is there. -/
theorem find_deepMerge_congr {base base' update : List (κ × Tree κ σ)}
    (hd : Distinct (.dict update)) (h : find p (.dict base) = find p (.dict base')) :
    find p (.dict (deepMerge base update)) = find p (.dict (deepMerge base' update)) :=
  have h' : (some (.dict base)).bind (find p) = (some (.dict base')).bind (find p) := h
  find_mergeValue_congr hd h'

theorem find_deepMerge_of_silent {base update : List (κ × Tree κ σ)}
    (hd : Distinct (.dict update)) (h : Silent p (.dict update)) :
    find p (.dict (deepMerge base update)) = find p (.dict base) := by
  have hmerge := @find_mergeValue_of_silent _ _ _ p (some (.dict base)) _ hd h
  exact hmerge

/-- Updates that say nothing about a path leave it. -/
theorem find_foldl_deepMerge : ∀ {updates : List (List (κ × Tree κ σ))}
    {base : List (κ × Tree κ σ)}, (∀ u ∈ updates, Distinct (.dict u) ∧ Silent p (.dict u)) →
      find p (.dict (updates.foldl deepMerge base)) = find p (.dict base)
  | [], _, _ => rfl
  | u :: updates, base, h => by
    obtain ⟨hd, hsilent⟩ := h u List.mem_cons_self
    rw [List.foldl_cons, find_foldl_deepMerge fun u hu => h u (List.mem_cons_of_mem _ hu),
      find_deepMerge_of_silent hd hsilent]

variable {v : Tree κ σ}

variable {lower higher : List (List (κ × Tree κ σ))} {u : List (κ × Tree κ σ)}

/-- The last update that says something about a path decides, where it is no dictionary. -/
theorem find_foldl_deepMerge_of_last
    (hd : Distinct (.dict u)) (hu : find p (.dict u) = some v) (hv : ∀ d, v ≠ .dict d)
    (h : ∀ u ∈ higher, Distinct (.dict u) ∧ Silent p (.dict u)) :
    find p (.dict ((lower ++ u :: higher).foldl deepMerge [])) = some v := by
  rw [List.foldl_append, List.foldl_cons, find_foldl_deepMerge h]
  have hmerge := @find_mergeValue _ _ _ p (some (.dict (lower.foldl deepMerge []))) _ v hd hu
  refine hmerge.trans ?_
  cases v with
  | leaf s => rfl
  | arr items => rfl
  | dict d => exact absurd rfl (hv d)

/-- Below the last value that is no dictionary there is nothing, unless a later update says so. -/
theorem find_foldl_deepMerge_below {q r : List κ}
    (hd : Distinct (.dict u)) (hu : find q (.dict u) = some v) (hv : ∀ d, v ≠ .dict d)
    (hr : r ≠ []) (h : ∀ u ∈ higher, Distinct (.dict u) ∧ Silent (q ++ r) (.dict u)) :
    find (q ++ r) (.dict ((lower ++ u :: higher).foldl deepMerge [])) = none := by
  have hlast : find q (.dict ((lower ++ [u]).foldl deepMerge [])) = some v :=
    find_foldl_deepMerge_of_last hd hu hv nofun
  rw [List.foldl_append] at hlast
  rw [List.foldl_append, List.foldl_cons, find_foldl_deepMerge h, find_append]
  refine (congrArg (Option.bind · (find r)) hlast).trans ?_
  obtain ⟨k, ks, rfl⟩ := List.exists_cons_of_ne_nil hr
  cases v with
  | leaf s => rfl
  | arr items => rfl
  | dict d => exact absurd rfl (hv d)

variable {d : List (κ × Tree κ σ)}

theorem distinct_insert
    (hv : Distinct v) (hd : Distinct (.dict d)) : Distinct (.dict (OrderedDict.insert k v d))
  | [], _, hp => by
    cases hp
    exact OrderedDict.nodup_keys_alter (hd [] d rfl)
  | k' :: p, inner, hp => by
    rw [find_cons, OrderedDict.lookup_insert] at hp
    split at hp
    · exact hv p inner hp
    · exact hd (k' :: p) inner hp

theorem distinct_erase (hd : Distinct (.dict d)) :
    Distinct (.dict (OrderedDict.erase k d))
  | [], _, hp => by
    cases hp
    exact OrderedDict.nodup_keys_erase (hd [] d rfl)
  | k' :: p, inner, hp => by
    rw [find_cons, OrderedDict.lookup_erase] at hp
    split at hp
    · cases hp
    · exact hd (k' :: p) inner hp

theorem distinct_nil : Distinct (.dict ([] : List (κ × Tree κ σ)))
  | [], _, hp => by
    cases hp
    exact List.nodup_nil
  | _ :: _, _, hp => by cases hp

theorem distinct_entriesOf {t : Option (Tree κ σ)} (h : ∀ t' ∈ t, Distinct t') :
    Distinct (.dict (entriesOf t)) := by
  match t, h with
  | none, _ => exact distinct_nil
  | some (.leaf _), _ => exact distinct_nil
  | some (.arr _), _ => exact distinct_nil
  | some (.dict d), h => exact h (.dict d) rfl

theorem distinct_setAt : ∀ {p : List κ} {v : Tree κ σ} {d : List (κ × Tree κ σ)}, Distinct v →
    Distinct (.dict d) → Distinct (.dict (setAt p v d))
  | [], _, _, _, hd => hd
  | [_], _, _, hv, hd => distinct_insert hv hd
  | _ :: _ :: _, _, _, hv, hd =>
    distinct_insert (distinct_setAt hv (distinct_entriesOf fun _ ht => hd.entry ht)) hd

/-- An update says the same of a path where it is written to apart from it, in a dictionary it
has. -/
theorem find_mergeValue_setAt : ∀ {r p : List κ} {v : Tree κ σ} {u d : List (κ × Tree κ σ)}
    {old : Option (Tree κ σ)}, Distinct v → Distinct (.dict u) → Apart r p →
      find r.dropLast (.dict u) = some (.dict d) →
        find p (mergeValue old (.dict (setAt r v u))) = find p (mergeValue old (.dict u))
  | [], _, _, _, _, _, _, _, h, _ => absurd rfl h.ne_nil.1
  | _, [], _, _, _, _, _, _, h, _ => absurd rfl h.ne_nil.2
  | [k], k' :: q, v, u, _, old, hv, hu, h, _ => by
    have hne : k' ≠ k := by
      rintro rfl
      exact h.1 (List.cons_prefix_cons.2 ⟨rfl, List.nil_prefix⟩)
    rw [mergeValue, mergeValue, find_cons, find_cons,
      lookup_deepMerge k' (distinct_setAt hv hu [] _ rfl), lookup_deepMerge k' (hu [] u rfl), setAt,
      OrderedDict.lookup_insert, if_neg hne]
  | k :: k₁ :: r, k' :: q, v, u, d, old, hv, hu, h, hdict => by
    rw [mergeValue, mergeValue, find_cons, find_cons,
      lookup_deepMerge k' (distinct_setAt hv hu [] _ rfl), lookup_deepMerge k' (hu [] u rfl), setAt,
      OrderedDict.lookup_insert]
    · by_cases hk : k' = k
      · subst hk
        obtain ⟨t, ht, hrest⟩ := Option.bind_eq_some_iff.1 hdict
        obtain ⟨e, rfl⟩ : ∃ e, t = .dict e := by
          cases t with
          | dict e => exact ⟨e, rfl⟩
          | leaf s => cases r <;> cases hrest
          | arr items => cases r <;> cases hrest
        rw [if_pos rfl, ht]
        exact find_mergeValue_setAt hv (hu.entry ht) h.of_cons hrest
      · rw [if_neg hk]
    · exact List.cons_ne_nil k₁ r

theorem silent_erase (d : List (κ × Tree κ σ)) :
    Silent (k :: p) (.dict (OrderedDict.erase k d)) := by
  intro t ht
  rw [OrderedDict.lookup_erase, if_pos rfl] at ht
  cases ht

/-! ## Comparison -/

mutual

/-- Python's `==` on trees, with `eq` on scalars. -/
def same (eq : σ → σ → Bool) : Tree κ σ → Tree κ σ → Bool
  | .leaf s, .leaf s' => eq s s'
  | .arr items, .arr items' => sameItems eq items items'
  | .dict entries, .dict entries' =>
    entries.length == entries'.length && sameEntries eq entries entries'
  | _, _ => false

def sameItems (eq : σ → σ → Bool) : List (Tree κ σ) → List (Tree κ σ) → Bool
  | [], [] => true
  | t :: items, t' :: items' => same eq t t' && sameItems eq items items'
  | _, _ => false

/-- Every entry is there, with the same value. -/
def sameEntries (eq : σ → σ → Bool) : List (κ × Tree κ σ) → List (κ × Tree κ σ) → Bool
  | [], _ => true
  | (k, t) :: rest, entries' =>
    (match entries'.lookup k with
      | some t' => same eq t t'
      | none => false) && sameEntries eq rest entries'

end

theorem same_of_sameEntries {eq : σ → σ → Bool} :
    ∀ {entries entries' : List (κ × Tree κ σ)}, sameEntries eq entries entries' = true →
      entries.lookup k = some t → ∃ t', entries'.lookup k = some t' ∧ same eq t t' = true
  | (k', v) :: rest, entries', h, hk => by
    rw [sameEntries, Bool.and_eq_true] at h
    rw [List.lookup_cons] at hk
    by_cases hkk : k = k'
    · subst hkk
      obtain rfl : v = t := by simpa using hk
      revert h
      cases entries'.lookup k with
      | none => exact fun h => absurd h.1 Bool.false_ne_true
      | some t' => exact fun h => ⟨t', rfl, h.1⟩
    · rw [beq_false_of_ne hkk] at hk
      exact same_of_sameEntries h.2 hk

/-- A comparison that is transitive. -/
def Chains (eq : σ → σ → Bool) : Prop := ∀ a b c, eq a b = true → eq b c = true → eq a c = true

mutual

theorem same_trans {eq : σ → σ → Bool} (heq : Chains eq) : ∀ {a b c : Tree κ σ},
    same eq a b = true → same eq b c = true → same eq a c = true
  | .leaf a, .leaf b, .leaf c, hab, hbc => heq a b c hab hbc
  | .arr a, .arr b, .arr c, hab, hbc => sameItems_trans heq hab hbc
  | .dict a, .dict b, .dict c, hab, hbc => by
    rw [same, Bool.and_eq_true, beq_iff_eq] at hab hbc ⊢
    exact ⟨hab.1.trans hbc.1, sameEntries_trans heq hab.2 hbc.2⟩

theorem sameItems_trans {eq : σ → σ → Bool} (heq : Chains eq) : ∀ {a b c : List (Tree κ σ)},
    sameItems eq a b = true → sameItems eq b c = true → sameItems eq a c = true
  | [], [], [], _, _ => rfl
  | a :: as, b :: bs, c :: cs, hab, hbc => by
    rw [sameItems, Bool.and_eq_true] at hab hbc ⊢
    exact ⟨same_trans heq hab.1 hbc.1, sameItems_trans heq hab.2 hbc.2⟩

theorem sameEntries_trans {eq : σ → σ → Bool} (heq : Chains eq) :
    ∀ {a b c : List (κ × Tree κ σ)}, sameEntries eq a b = true → sameEntries eq b c = true →
      sameEntries eq a c = true
  | [], _, _, _, _ => rfl
  | (k, t) :: rest, b, c, hab, hbc => by
    rw [sameEntries, Bool.and_eq_true] at hab ⊢
    cases hb : b.lookup k with
    | none =>
      rw [hb] at hab
      exact absurd hab.1 Bool.false_ne_true
    | some t' =>
      rw [hb] at hab
      obtain ⟨t'', hc, htt⟩ := same_of_sameEntries hbc hb
      rw [hc]
      exact ⟨same_trans heq hab.1 htt, sameEntries_trans heq hab.2 hbc⟩

end

end DictTree
