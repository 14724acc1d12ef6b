import ChunkHound.Ranking
import Mathlib.Data.List.Dedup
import Mathlib.Data.List.Perm.Subperm

/-!
# Merging rows into a table by key

`upsert pick source table` replaces the rows of a table whose keys are among those of the source,
and adds the rows of the source with other keys. Where rows of the source share a key one of them is
taken, and `Pick` says which. A `Table` is a list of rows with distinct keys.

`upsertAll` merges batch after batch. It grows a table by every row of the batches exactly when
their keys are distinct and new (`length_upsertAll_iff`), and then it appends them
(`upsertAll_perm`).
-/

namespace Upserts

open Ranking

variable {α κ : Type*} [DecidableEq κ] {key : α → κ}

/-! ## One row for each key -/

/-- A choice of one row for each key of a list. -/
structure Pick (key : α → κ) where
  pick : List α → List α
  subset : ∀ l, pick l ⊆ l
  nodup : ∀ l, ((pick l).map key).Nodup
  covers : ∀ l, ∀ a ∈ l, ∃ b ∈ pick l, key b = key a

/-- The first row for each key. -/
def Pick.first (key : α → κ) : Pick key where
  pick := keepFirst key (fun _ => false) []
  subset l := (keepFirst_sublist [] l).subset
  nodup l := keepFirst_keys_nodup [] l
  covers l a ha := by
    have hsorted : l.Pairwise fun _ _ => () ≤ () := List.pairwise_of_forall fun _ _ => le_rfl
    obtain ⟨b, hb, hkey, -⟩ : ∃ b ∈ keepFirst key (fun _ => false) [] l, key b = key a ∧ () ≤ () :=
      exists_best hsorted ha rfl List.not_mem_nil
    exact ⟨b, hb, hkey⟩

namespace Pick

variable (p : Pick key) {l : List α}

omit [DecidableEq κ] in
theorem mem_keys (l : List α) (k : κ) : k ∈ (p.pick l).map key ↔ k ∈ l.map key := by
  constructor
  · intro h
    obtain ⟨a, ha, rfl⟩ := List.mem_map.1 h
    exact List.mem_map_of_mem (p.subset l ha)
  · intro h
    obtain ⟨a, ha, rfl⟩ := List.mem_map.1 h
    obtain ⟨b, hb, hkey⟩ := p.covers l a ha
    exact List.mem_map.2 ⟨b, hb, hkey⟩

/-- The rows that are taken are as many as the distinct keys. -/
theorem length_pick (l : List α) : (p.pick l).length = (l.map key).dedup.length := by
  have hperm : ((p.pick l).map key).Perm (l.map key).dedup :=
    (List.perm_ext_iff_of_nodup (p.nodup l) (List.nodup_dedup _)).2 fun k => by
      rw [p.mem_keys, List.mem_dedup]
  rw [← hperm.length_eq, List.length_map]

theorem length_pick_le (l : List α) : (p.pick l).length ≤ l.length := by
  rw [p.length_pick, ← List.length_map key]
  exact (List.dedup_sublist _).length_le

theorem length_pick_iff : (p.pick l).length = l.length ↔ (l.map key).Nodup := by
  rw [p.length_pick]
  constructor
  · intro h
    have heq := (List.dedup_sublist (l.map key)).eq_of_length (by rw [h, List.length_map])
    exact heq ▸ List.nodup_dedup _
  · intro h
    rw [h.dedup, List.length_map]

/-- Of rows with distinct keys all are taken. -/
theorem pick_perm (h : (l.map key).Nodup) : (p.pick l).Perm l := by
  have hsub : (p.pick l).Subperm l := (p.nodup l).of_map.subperm (p.subset l)
  exact hsub.perm_of_length_le (p.length_pick_iff.2 h).ge

end Pick

/-! ## A merge -/

section Upsert

variable (p : Pick key) {source table : List α} {a : α} {k : κ}

def upsert (source table : List α) : List α :=
  (table.filter fun a => key a ∉ source.map key) ++ p.pick source

theorem mem_upsert :
    a ∈ upsert p source table ↔ (a ∈ table ∧ key a ∉ source.map key) ∨ a ∈ p.pick source := by
  unfold upsert
  rw [List.mem_append, List.mem_filter, decide_eq_true_iff]

theorem mem_keys_upsert :
    k ∈ (upsert p source table).map key ↔ k ∈ table.map key ∨ k ∈ source.map key := by
  constructor
  · intro h
    obtain ⟨a, ha, rfl⟩ := List.mem_map.1 h
    rcases (mem_upsert p).1 ha with ⟨ha, -⟩ | ha
    · exact Or.inl (List.mem_map_of_mem ha)
    · exact Or.inr (List.mem_map_of_mem (p.subset source ha))
  · intro h
    by_cases hk : k ∈ source.map key
    · obtain ⟨a, ha, rfl⟩ := List.mem_map.1 ((p.mem_keys source k).2 hk)
      exact List.mem_map_of_mem ((mem_upsert p).2 (Or.inr ha))
    · obtain ⟨a, ha, rfl⟩ := List.mem_map.1 (h.resolve_right hk)
      exact List.mem_map_of_mem ((mem_upsert p).2 (Or.inl ⟨ha, hk⟩))

/-- One row replaces those of its key. -/
theorem upsert_singleton (a : α) (table : List α) :
    upsert p [a] table = (table.filter fun b => key b ≠ key a) ++ [a] := by
  have hpick : p.pick [a] = [a] := List.perm_singleton.1 (p.pick_perm (List.nodup_singleton _))
  rw [upsert, hpick]
  simp only [List.map_singleton, List.mem_singleton, ne_eq]

/-- The keys stay distinct. -/
theorem nodup_upsert (h : (table.map key).Nodup) : ((upsert p source table).map key).Nodup := by
  unfold upsert
  rw [List.map_append]
  refine (h.sublist (List.filter_sublist.map key)).append (p.nodup source) fun k hold hnew => ?_
  obtain ⟨a, ha, rfl⟩ := List.mem_map.1 hold
  exact of_decide_eq_true (List.mem_filter.1 ha).2 ((p.mem_keys source _).1 hnew)

theorem length_upsert_le (source table : List α) :
    (upsert p source table).length ≤ table.length + source.length := by
  unfold upsert
  rw [List.length_append]
  exact Nat.add_le_add (List.length_filter_le _ _) (p.length_pick_le source)

/-- Every row of the source adds one exactly when the keys are distinct and new. -/
theorem length_upsert_iff : (upsert p source table).length = table.length + source.length ↔
    (source.map key).Nodup ∧ ∀ k ∈ source.map key, k ∉ table.map key := by
  have hfilter := List.length_filter_le (fun a => decide (key a ∉ source.map key)) table
  have hpick := p.length_pick_le source
  have hsplit : (upsert p source table).length = table.length + source.length ↔
      (table.filter fun a => key a ∉ source.map key).length = table.length ∧
        (p.pick source).length = source.length := by
    unfold upsert
    rw [List.length_append]
    omega
  rw [hsplit, p.length_pick_iff, List.length_filter_eq_length_iff, and_comm]
  refine and_congr_right fun _ => ⟨fun h k hk hin => ?_, fun h a ha => ?_⟩
  · obtain ⟨a, ha, rfl⟩ := List.mem_map.1 hin
    exact of_decide_eq_true (h a ha) hk
  · exact decide_eq_true fun hk => h _ hk (List.mem_map_of_mem ha)

theorem upsert_perm (hnodup : (source.map key).Nodup)
    (hnew : ∀ k ∈ source.map key, k ∉ table.map key) :
    (upsert p source table).Perm (table ++ source) := by
  have hkeep : (table.filter fun a => key a ∉ source.map key) = table :=
    List.filter_eq_self.2 fun a ha =>
      decide_eq_true fun hk => hnew _ hk (List.mem_map_of_mem ha)
  unfold upsert
  rw [hkeep]
  exact (p.pick_perm hnodup).append_left table

end Upsert

/-! ## Batch after batch -/

section Batches

variable (p : Pick key) {a : α} {k : κ}

def upsertAll (batches : List (List α)) (table : List α) : List α :=
  batches.foldl (fun table source => upsert p source table) table

@[simp] theorem upsertAll_nil (table : List α) : upsertAll p [] table = table :=
  rfl

@[simp] theorem upsertAll_cons (source : List α) (batches : List (List α)) (table : List α) :
    upsertAll p (source :: batches) table = upsertAll p batches (upsert p source table) :=
  rfl

theorem mem_keys_upsertAll : ∀ (batches : List (List α)) (table : List α),
    k ∈ (upsertAll p batches table).map key ↔
      k ∈ table.map key ∨ k ∈ batches.flatten.map key
  | [], table => by simp
  | source :: batches, table => by
    rw [upsertAll_cons, mem_keys_upsertAll batches, mem_keys_upsert, List.flatten_cons,
      List.map_append, List.mem_append, or_assoc]

/-- Every row comes from the batches, or was there. -/
theorem mem_of_mem_upsertAll : ∀ {batches : List (List α)} {table : List α},
    a ∈ upsertAll p batches table → a ∈ table ∨ a ∈ batches.flatten
  | [], _, h => Or.inl h
  | source :: batches, _, h => by
    rw [List.flatten_cons, List.mem_append]
    have h : a ∈ upsertAll p batches (upsert p source _) := h
    rcases mem_of_mem_upsertAll h with h | h
    · rcases (mem_upsert p).1 h with ⟨h, -⟩ | h
      · exact Or.inl h
      · exact Or.inr (Or.inl (p.subset source h))
    · exact Or.inr (Or.inr h)

/-- Rows of other keys stay. -/
theorem mem_upsertAll_of_ne : ∀ {batches : List (List α)} {table : List α},
    key a ∉ batches.flatten.map key → (a ∈ upsertAll p batches table ↔ a ∈ table)
  | [], _, _ => Iff.rfl
  | source :: batches, table, hk => by
    rw [List.flatten_cons, List.map_append, List.mem_append, not_or] at hk
    rw [upsertAll_cons, mem_upsertAll_of_ne hk.2, mem_upsert]
    constructor
    · rintro (⟨h, -⟩ | h)
      · exact h
      · exact absurd (List.mem_map_of_mem (p.subset source h)) hk.1
    · exact fun h => Or.inl ⟨h, hk.1⟩

/-- What a table with distinct keys has for the key of a batch comes from the batches. -/
theorem mem_flatten_of_key : ∀ {batches : List (List α)} {table : List α},
    a ∈ upsertAll p batches table → key a ∈ batches.flatten.map key → a ∈ batches.flatten
  | [], _, _, hk => by simp at hk
  | source :: batches, table, h, hk => by
    rw [List.flatten_cons, List.mem_append]
    by_cases hrest : key a ∈ batches.flatten.map key
    · exact Or.inr (mem_flatten_of_key h hrest)
    · rw [List.flatten_cons, List.map_append, List.mem_append] at hk
      rcases (mem_upsert p).1 ((mem_upsertAll_of_ne p hrest).1 h) with ⟨-, hold⟩ | hpick
      · exact absurd (hk.resolve_right hrest) hold
      · exact Or.inl (p.subset source hpick)

theorem length_upsertAll_le : ∀ (batches : List (List α)) (table : List α),
    (upsertAll p batches table).length ≤ table.length + batches.flatten.length
  | [], table => by simp
  | source :: batches, table => by
    have hrest := length_upsertAll_le batches (upsert p source table)
    have hfirst := length_upsert_le p source table
    rw [upsertAll_cons, List.flatten_cons, List.length_append]
    omega

/-- Keys of a batch and of the batches behind it are distinct and new when those of the batch are,
and then the others in the table that it leaves. -/
theorem nodup_new_cons (source : List α) (batches : List (List α)) (table : List α) :
    (((source :: batches).flatten.map key).Nodup ∧
        ∀ k ∈ (source :: batches).flatten.map key, k ∉ table.map key) ↔
      ((source.map key).Nodup ∧ ∀ k ∈ source.map key, k ∉ table.map key) ∧
        (batches.flatten.map key).Nodup ∧
          ∀ k ∈ batches.flatten.map key, k ∉ (upsert p source table).map key := by
  rw [List.flatten_cons, List.map_append, List.nodup_append']
  simp only [List.mem_append, mem_keys_upsert, not_or]
  constructor
  · rintro ⟨⟨hsource, hrest, hdisjoint⟩, hnew⟩
    exact ⟨⟨hsource, fun k hk => hnew k (Or.inl hk)⟩, hrest,
      fun k hk => ⟨hnew k (Or.inr hk), fun hin => hdisjoint hin hk⟩⟩
  · rintro ⟨⟨hsource, hnew⟩, hrest, hnew'⟩
    exact ⟨⟨hsource, hrest, fun k hin hk => (hnew' k hk).2 hin⟩,
      fun k hk => hk.elim (hnew k) fun hk => (hnew' k hk).1⟩

theorem length_upsertAll_iff : ∀ (batches : List (List α)) (table : List α),
    (upsertAll p batches table).length = table.length + batches.flatten.length ↔
      (batches.flatten.map key).Nodup ∧ ∀ k ∈ batches.flatten.map key, k ∉ table.map key
  | [], table => by simp
  | source :: batches, table => by
    have hrest := length_upsertAll_le p batches (upsert p source table)
    have hfirst := length_upsert_le p source table
    rw [nodup_new_cons p, ← length_upsertAll_iff batches, ← length_upsert_iff p, upsertAll_cons,
      List.flatten_cons, List.length_append]
    omega

theorem upsertAll_perm : ∀ (batches : List (List α)) (table : List α),
    (batches.flatten.map key).Nodup → (∀ k ∈ batches.flatten.map key, k ∉ table.map key) →
      (upsertAll p batches table).Perm (table ++ batches.flatten)
  | [], table, _, _ => by simp
  | source :: batches, table, hnodup, hnew => by
    obtain ⟨⟨hsource, hfresh⟩, hrest, hnew'⟩ := (nodup_new_cons p source batches table).1
      ⟨hnodup, hnew⟩
    rw [upsertAll_cons, List.flatten_cons, ← List.append_assoc]
    exact (upsertAll_perm batches _ hrest hnew').trans
      ((upsert_perm p hsource hfresh).append_right _)

end Batches

/-! ## Tables -/

/-- Rows with distinct keys. -/
structure Table (key : α → κ) where
  rows : List α
  nodup : (rows.map key).Nodup

namespace Table

def empty : Table key := ⟨[], List.nodup_nil⟩

def upsert (p : Pick key) (source : List α) (t : Table key) : Table key :=
  ⟨Upserts.upsert p source t.rows, nodup_upsert p t.nodup⟩

@[simp] theorem rows_upsert (p : Pick key) (source : List α) (t : Table key) :
    (t.upsert p source).rows = Upserts.upsert p source t.rows :=
  rfl

/-- `delete` of the rows that do not satisfy `keep`. -/
def filter (keep : α → Bool) (t : Table key) : Table key :=
  ⟨t.rows.filter keep, t.nodup.sublist (List.filter_sublist.map key)⟩

omit [DecidableEq κ] in
@[simp] theorem rows_filter (keep : α → Bool) (t : Table key) :
    (t.filter keep).rows = t.rows.filter keep :=
  rfl

omit [DecidableEq κ] in
/-- Rows of a table are told by their keys. -/
theorem eq_of_map_key (t : Table key) : ∀ {l l' : List α}, l ⊆ t.rows → l' ⊆ t.rows →
    l.map key = l'.map key → l = l'
  | [], l', _, _, h => (List.map_eq_nil_iff.1 h.symm).symm
  | _ :: _, [], _, _, h => nomatch h
  | a :: l, b :: l', hl, hl', h => by
    obtain ⟨hkey, hrest⟩ := List.cons.inj h
    rw [List.cons_subset] at hl hl'
    rw [List.inj_on_of_nodup_map t.nodup hl.1 hl'.1 hkey, eq_of_map_key t hl.2 hl'.2 hrest]

end Table

end Upserts
