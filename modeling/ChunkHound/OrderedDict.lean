import Mathlib.Data.List.Induction
import Mathlib.Data.List.Nodup

/-!
# Dictionaries in order of insertion

A dictionary is the list of its entries, each key once, in the order the keys were first set.
`alter` sets the value of a key from the value it has, and is all that a program needs to fill one :
`insert` overwrites, and a run of `alter` over a list of items gives each key what the items with it
make of the value it had (`lookup_alterAll`).
-/

namespace OrderedDict

variable {κ ν α : Type*} [DecidableEq κ]

/-- The keys, in the order of their insertion. -/
def keys (d : List (κ × ν)) : List κ := d.map Prod.fst

/-- The values, in the order of their keys. -/
def values (d : List (κ × ν)) : List ν := d.map Prod.snd

/-- Set the value of a key from the one it has. A key that is new comes last. -/
def alter (f : Option ν → ν) (k : κ) : List (κ × ν) → List (κ × ν)
  | [] => [(k, f none)]
  | (k', v) :: rest => if k' = k then (k', f (some v)) :: rest else (k', v) :: alter f k rest

/-- `d[k] = v`. -/
def insert (k : κ) (v : ν) (d : List (κ × ν)) : List (κ × ν) := alter (fun _ => v) k d

/-! ## One entry -/

theorem lookup_alter (f : Option ν → ν) (k k' : κ) : ∀ d : List (κ × ν),
    (alter f k d).lookup k' = if k' = k then some (f (d.lookup k)) else d.lookup k'
  | [] => by
    unfold alter
    rw [List.lookup_cons]
    by_cases h : k' = k
    · simp [h]
    · simp [h, beq_false_of_ne h]
  | (k₀, v) :: rest => by
    have ih := lookup_alter f k k' rest
    unfold alter
    by_cases h₀ : k₀ = k
    · subst h₀
      rw [if_pos rfl]
      simp only [List.lookup_cons, beq_self_eq_true]
      by_cases h : k' = k₀
      · simp [h]
      · simp [h, beq_false_of_ne h]
    · rw [if_neg h₀]
      simp only [List.lookup_cons, beq_false_of_ne (Ne.symm h₀), ih]
      by_cases h : k' = k₀
      · subst h
        simp [h₀]
      · simp [beq_false_of_ne h]

theorem lookup_insert (k k' : κ) (v : ν) (d : List (κ × ν)) :
    (insert k v d).lookup k' = if k' = k then some v else d.lookup k' :=
  lookup_alter _ _ _ _

theorem lookup_insert_self (k : κ) (v : ν) (d : List (κ × ν)) :
    (insert k v d).lookup k = some v := by
  rw [lookup_insert, if_pos rfl]

theorem keys_alter (f : Option ν → ν) (k : κ) : ∀ d : List (κ × ν),
    keys (alter f k d) = if k ∈ keys d then keys d else keys d ++ [k]
  | [] => rfl
  | (k₀, v) :: rest => by
    have ih : (alter f k rest).map Prod.fst =
        if k ∈ rest.map Prod.fst then rest.map Prod.fst else rest.map Prod.fst ++ [k] :=
      keys_alter f k rest
    unfold alter keys
    by_cases h₀ : k₀ = k
    · simp [h₀]
    · simp only [if_neg h₀, List.map_cons, ih, List.mem_cons, Ne.symm h₀, false_or]
      by_cases hk : k ∈ rest.map Prod.fst
      · rw [if_pos hk, if_pos hk]
      · rw [if_neg hk, if_neg hk, List.cons_append]

variable {d : List (κ × ν)}

variable {f : Option ν → ν}

theorem mem_keys_alter {k k' : κ} :
    k' ∈ keys (alter f k d) ↔ k' ∈ keys d ∨ k' = k := by
  rw [keys_alter]
  by_cases hk : k ∈ keys d
  · rw [if_pos hk]
    exact ⟨Or.inl, fun h => h.elim id fun heq => heq ▸ hk⟩
  · rw [if_neg hk, List.mem_append, List.mem_singleton]

variable {k : κ}

theorem nodup_keys_alter (h : (keys d).Nodup) :
    (keys (alter f k d)).Nodup := by
  rw [keys_alter]
  by_cases hk : k ∈ keys d
  · rwa [if_pos hk]
  · rw [if_neg hk, ← List.concat_eq_append]
    exact h.concat hk

theorem mem_keys_iff : ∀ {d : List (κ × ν)}, k ∈ keys d ↔ ∃ v, d.lookup k = some v
  | [] => by simp [keys]
  | (k₀, v) :: rest => by
    have ih : k ∈ keys rest ↔ ∃ v, rest.lookup k = some v := mem_keys_iff
    unfold keys at ih ⊢
    rw [List.map_cons, List.mem_cons, ih, List.lookup_cons]
    by_cases h : k = k₀
    · simp [h]
    · simp [h, beq_false_of_ne h]

theorem lookup_eq_none_iff : d.lookup k = none ↔ k ∉ keys d := by
  rw [mem_keys_iff, ← Option.not_isSome_iff_eq_none, Option.isSome_iff_exists]

variable {v : ν}

/-- The entries are what a lookup finds. -/
theorem lookup_eq_some_iff : ∀ {d : List (κ × ν)}, (keys d).Nodup →
    (d.lookup k = some v ↔ (k, v) ∈ d)
  | [], _ => by simp
  | (k₀, v₀) :: rest, h => by
    obtain ⟨hk₀, hrest⟩ := List.nodup_cons.1 h
    rw [List.lookup_cons, List.mem_cons]
    by_cases hk : k = k₀
    · subst hk
      have hnot : (k, v) ∉ rest := fun hmem => hk₀ (List.mem_map.2 ⟨(k, v), hmem, rfl⟩)
      simp [hnot, eq_comm]
    · simp [hk, beq_false_of_ne hk, lookup_eq_some_iff hrest]

theorem mem_values_iff (h : (keys d).Nodup) :
    v ∈ values d ↔ ∃ k, d.lookup k = some v := by
  unfold values
  rw [List.mem_map]
  constructor
  · rintro ⟨⟨k, v'⟩, hmem, rfl⟩
    exact ⟨k, (lookup_eq_some_iff h).2 hmem⟩
  · rintro ⟨k, hk⟩
    exact ⟨(k, v), (lookup_eq_some_iff h).1 hk, rfl⟩

/-- `d.pop(k, None)`. -/
def erase (k : κ) (d : List (κ × ν)) : List (κ × ν) := d.filter (·.1 ≠ k)

theorem lookup_erase (k k' : κ) : ∀ d : List (κ × ν),
    (erase k d).lookup k' = if k' = k then none else d.lookup k'
  | [] => by simp [erase]
  | (k₀, v) :: rest => by
    have ih := lookup_erase k k' rest
    unfold erase at ih ⊢
    by_cases h₀ : k₀ = k
    · rw [List.filter_cons_of_neg (by simp [h₀]), ih]
      by_cases h : k' = k
      · simp [h]
      · simp [h, List.lookup_cons, beq_false_of_ne (h₀ ▸ h)]
    · rw [List.filter_cons_of_pos (by simp [h₀]), List.lookup_cons, List.lookup_cons, ih]
      by_cases h : k' = k₀
      · simp [h, h₀]
      · simp [beq_false_of_ne h]

theorem nodup_keys_erase (h : (keys d).Nodup) :
    (keys (erase k d)).Nodup :=
  h.sublist (List.filter_sublist.map _)

/-- An entry and the others. -/
theorem perm_erase : ∀ {d : List (κ × ν)}, (keys d).Nodup →
    d.lookup k = some v → d.Perm ((k, v) :: erase k d)
  | (k₀, v₀) :: rest, h, hk => by
    obtain ⟨hk₀, hrest⟩ := List.nodup_cons.1 h
    unfold erase
    rw [List.lookup_cons] at hk
    by_cases h₀ : k = k₀
    · subst h₀
      obtain rfl : v₀ = v := by simpa using hk
      have hself : rest.filter (·.1 ≠ k) = rest := List.filter_eq_self.2 fun e he => by
        have hne : e.1 ≠ k := fun heq => hk₀ (List.mem_map.2 ⟨e, he, heq⟩)
        simpa using hne
      rw [List.filter_cons_of_neg (by simp), hself]
    · rw [beq_false_of_ne h₀] at hk
      rw [List.filter_cons_of_pos (by simpa using Ne.symm h₀)]
      exact ((perm_erase hrest hk).cons _).trans (List.Perm.swap _ _ _)

/-- What is the same of the value before and after is the same in all values. -/
theorem map_values_insert {β : Type*} {g : ν → β} {v v' : ν} : ∀ {d : List (κ × ν)},
    d.lookup k = some v → g v' = g v → (values (insert k v' d)).map g = (values d).map g
  | [], h, _ => nomatch h
  | (k₀, v₀) :: rest, h, hg => by
    have ih : rest.lookup k = some v → (values (alter (fun _ => v') k rest)).map g =
        (values rest).map g := fun h => map_values_insert h hg
    unfold insert values alter
    unfold values at ih
    rw [List.lookup_cons] at h
    by_cases h₀ : k₀ = k
    · subst h₀
      simp only [beq_self_eq_true, Option.some.injEq] at h
      simp [h, hg]
    · simp only [beq_false_of_ne (Ne.symm h₀)] at h
      simp [h₀, ih h]

/-- A value that does not change leaves the dictionary as it is. -/
theorem alter_eq_self (hf : f (some v) = v) :
    ∀ {d : List (κ × ν)}, d.lookup k = some v → alter f k d = d
  | (k₀, v₀) :: rest, h => by
    rw [List.lookup_cons] at h
    unfold alter
    by_cases hk : k₀ = k
    · subst hk
      simp only [beq_self_eq_true] at h
      obtain rfl := Option.some.inj h
      rw [if_pos rfl, hf]
    · rw [if_neg hk]
      simp only [beq_false_of_ne (Ne.symm hk)] at h
      rw [alter_eq_self hf h]

/-- A key that is new comes last. -/
theorem alter_of_not_mem : ∀ {d : List (κ × ν)}, k ∉ keys d →
    alter f k d = d ++ [(k, f none)]
  | [], _ => rfl
  | (k₀, v) :: rest, h => by
    have hne : k ≠ k₀ := fun heq => h (heq ▸ List.mem_cons_self)
    have hrest : k ∉ keys rest := fun hmem => h (List.mem_cons_of_mem _ hmem)
    unfold alter
    rw [if_neg (Ne.symm hne), alter_of_not_mem hrest]
    rfl

theorem values_insert_of_not_mem (h : k ∉ keys d) :
    values (insert k v d) = values d ++ [v] := by
  unfold insert values
  rw [alter_of_not_mem h, List.map_append, List.map_singleton]

/-- Two dictionaries with the same keys in the same order, and the same values. -/
theorem ext_lookup : ∀ {d d' : List (κ × ν)}, (keys d).Nodup → keys d = keys d' →
    (∀ k, d.lookup k = d'.lookup k) → d = d'
  | [], [], _, _, _ => rfl
  | [], _ :: _, _, hkeys, _ => nomatch hkeys
  | _ :: _, [], _, hkeys, _ => nomatch hkeys
  | (k, v) :: rest, (k', v') :: rest', h, hkeys, hlookup => by
    obtain ⟨hk, hrest⟩ := List.nodup_cons.1 h
    obtain ⟨rfl, hrests⟩ : k = k' ∧ keys rest = keys rest' := List.cons.inj hkeys
    have hv := hlookup k
    simp only [List.lookup_cons, beq_self_eq_true, Option.some.injEq] at hv
    obtain rfl : v = v' := hv
    refine congrArg _ (ext_lookup hrest hrests fun k₁ => ?_)
    by_cases h₁ : k₁ = k
    · subst h₁
      rw [lookup_eq_none_iff.2 hk, lookup_eq_none_iff.2 (hrests ▸ hk)]
    · simpa [List.lookup_cons, beq_false_of_ne h₁] using hlookup k₁

variable {d d' : List (κ × ν)}

omit [DecidableEq κ] in
/-- Dictionaries are their keys and their values. -/
theorem ext_values (hkeys : keys d = keys d') (hvalues : values d = values d') : d = d' := by
  rw [← List.zip_unzip d, ← List.zip_unzip d', List.unzip_eq_map, List.unzip_eq_map]
  exact congrArg₂ List.zip hkeys hvalues

/-! ## A run of entries -/

section Run

variable (key : α → κ) (f : α → Option ν → ν)

/-- The items are entered one after the other. -/
def alterAll (d : List (κ × ν)) (xs : List α) : List (κ × ν) :=
  xs.foldl (fun d x => alter (f x) (key x) d) d

theorem alterAll_cons (d : List (κ × ν)) (x : α) (xs : List α) :
    alterAll key f d (x :: xs) = alterAll key f (alter (f x) (key x) d) xs := rfl

theorem alterAll_append (d : List (κ × ν)) (xs ys : List α) :
    alterAll key f d (xs ++ ys) = alterAll key f (alterAll key f d xs) ys :=
  List.foldl_append

theorem alterAll_concat (d : List (κ × ν)) (xs : List α) (x : α) :
    alterAll key f d (xs ++ [x]) = alter (f x) (key x) (alterAll key f d xs) :=
  alterAll_append key f d xs [x]

/-- A key gets what the items with it make of its value. -/
theorem lookup_alterAll (k : κ) : ∀ (xs : List α) (d : List (κ × ν)),
    (alterAll key f d xs).lookup k =
      (xs.filter (key · = k)).foldl (fun v x => some (f x v)) (d.lookup k)
  | [], _ => rfl
  | x :: xs, d => by
    rw [alterAll_cons, lookup_alterAll k xs, lookup_alter, List.filter_cons]
    by_cases h : key x = k
    · simp [h]
    · simp [h, Ne.symm h]

theorem mem_keys_alterAll {k : κ} : ∀ {xs : List α} {d : List (κ × ν)},
    k ∈ keys (alterAll key f d xs) ↔ k ∈ keys d ∨ ∃ x ∈ xs, key x = k
  | [], d => by simp [alterAll]
  | x :: xs, d => by
    rw [alterAll_cons, mem_keys_alterAll, mem_keys_alter, List.exists_mem_cons_iff, or_assoc,
      eq_comm (a := k)]

theorem nodup_keys_alterAll : ∀ {xs : List α} {d : List (κ × ν)}, (keys d).Nodup →
    (keys (alterAll key f d xs)).Nodup
  | [], _, h => h
  | x :: xs, d, h => by
    have hstep : (keys (alter (f x) (key x) d)).Nodup := nodup_keys_alter h
    rw [alterAll_cons]
    exact nodup_keys_alterAll hstep

/-- The keys do not depend on the values. -/
theorem keys_alterAll_congr {f' : α → Option ν → ν} : ∀ {xs : List α} {d d' : List (κ × ν)},
    keys d = keys d' → keys (alterAll key f d xs) = keys (alterAll key f' d' xs)
  | [], _, _, h => h
  | _ :: xs, _, _, h => by
    rw [alterAll_cons, alterAll_cons]
    refine keys_alterAll_congr ?_
    rw [keys_alter, keys_alter, h]

/-- The keys that are new come in the order of the items. -/
theorem keys_alterAll (d : List (κ × ν)) (xs : List α) :
    keys (alterAll key f d xs) =
      keys d ++ (keys (alterAll key f [] xs)).filter (· ∉ keys d) := by
  induction xs using List.reverseRecOn with
  | nil => exact (List.append_nil _).symm
  | append_singleton xs x ih =>
    rw [alterAll_concat, alterAll_concat, keys_alter, keys_alter]
    have hmem : key x ∈ keys (alterAll key f d xs) ↔
        key x ∈ keys d ∨ key x ∈ keys (alterAll key f [] xs) := by
      rw [mem_keys_alterAll, mem_keys_alterAll]
      exact or_congr_right ⟨Or.inr, fun h => h.resolve_left List.not_mem_nil⟩
    by_cases hd : key x ∈ keys d
    · rw [if_pos (hmem.2 (Or.inl hd)), ih]
      split
      · rfl
      · simp [List.filter_append, hd]
    · by_cases hx : key x ∈ keys (alterAll key f [] xs)
      · rw [if_pos (hmem.2 (Or.inr hx)), if_pos hx, ih]
      · rw [if_neg (fun h => (hmem.1 h).elim hd hx), if_neg hx, ih, List.filter_append,
          List.append_assoc]
        simp [hd]

end Run

/-! ## Updating by another dictionary -/

/-- `d.update(d')`. -/
def update (d d' : List (κ × ν)) : List (κ × ν) := d'.foldl (fun d e => insert e.1 e.2 d) d

theorem update_eq_alterAll (d d' : List (κ × ν)) :
    update d d' = alterAll Prod.fst (fun e _ => e.2) d d' := rfl

theorem lookup_update (h : (keys d').Nodup) (k : κ) :
    (update d d').lookup k = (d'.lookup k).or (d.lookup k) := by
  induction d' generalizing d with
  | nil => rfl
  | cons e rest ih =>
    obtain ⟨he, hrest⟩ := List.nodup_cons.1 h
    have hstep : (update d (e :: rest)).lookup k =
        (rest.lookup k).or ((insert e.1 e.2 d).lookup k) := ih hrest
    rw [hstep, lookup_insert, List.lookup_cons]
    by_cases hk : k = e.1
    · subst hk
      simp [lookup_eq_none_iff.2 he]
    · simp [hk, beq_false_of_ne hk]

theorem nodup_keys_update (h : (keys d).Nodup) :
    (keys (update d d')).Nodup :=
  nodup_keys_alterAll _ _ h

/-- A dictionary that is filled from the entries of another is that dictionary. -/
theorem update_append : ∀ {d d' : List (κ × ν)}, (keys (d ++ d')).Nodup → update d d' = d ++ d'
  | d, [], _ => (List.append_nil d).symm
  | d, (k, v) :: rest, h => by
    have hk : k ∉ keys d := by
      unfold keys at h ⊢
      rw [List.map_append, List.nodup_append] at h
      exact fun hmem => h.2.2 k hmem k List.mem_cons_self rfl
    have hstep : update d ((k, v) :: rest) = update (d ++ [(k, v)]) rest := by
      show update (insert k v d) rest = _
      rw [insert, alter_of_not_mem hk]
    rw [hstep, update_append (by simpa [keys] using h), List.append_assoc]
    rfl

theorem update_nil (h : (keys d).Nodup) : update [] d = d :=
  update_append (d := []) h

end OrderedDict
