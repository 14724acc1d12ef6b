import Mathlib.Data.List.Infix

/-!
# Joined lists

Lists joined by a separator : when one joined list goes on where another one ends. Where no list
has the separator in it, that is when the lists do.
-/

namespace Joined

variable {α : Type}

theorem intercalate_append (sep : List α) : ∀ {a b : List (List α)}, a ≠ [] → b ≠ [] →
    sep.intercalate (a ++ b) = sep.intercalate a ++ sep ++ sep.intercalate b
  | [], _, ha, _ => absurd rfl ha
  | [l], b, _, hb => by
    rw [List.singleton_append, List.intercalate_cons_of_ne_nil hb, List.intercalate_singleton]
  | l :: l' :: a, b, _, hb => by
    have ih := intercalate_append sep (List.cons_ne_nil l' a) hb
    rw [List.cons_append, List.intercalate_cons_of_ne_nil (by simp), ih,
      List.intercalate_cons_cons]
    simp only [List.append_assoc]

/-- What is in a joined list is in the separator or in one of the lists. -/
theorem mem_of_mem_intercalate {sep : List α} {x : α} : ∀ {parts : List (List α)},
    x ∈ sep.intercalate parts → x ∈ sep ∨ ∃ part ∈ parts, x ∈ part
  | [], h => by simp at h
  | [p], h => Or.inr ⟨p, List.mem_singleton_self p, by simpa using h⟩
  | p :: q :: rest, h => by
    rw [List.intercalate_cons_cons] at h
    rcases List.mem_append.1 h with h | h
    · rcases List.mem_append.1 h with h | h
      · exact Or.inr ⟨p, List.mem_cons_self, h⟩
      · exact Or.inl h
    · rcases mem_of_mem_intercalate h with h | ⟨part, hpart, hx⟩
      · exact Or.inl h
      · exact Or.inr ⟨part, List.mem_cons_of_mem p hpart, hx⟩

theorem mem_intercalate_of_mem {sep part : List α} {x : α} (hx : x ∈ part) :
    ∀ {parts : List (List α)}, part ∈ parts → x ∈ sep.intercalate parts
  | [], h => absurd h List.not_mem_nil
  | [p], h => by
    rw [List.intercalate_singleton, ← List.mem_singleton.1 h]
    exact hx
  | p :: q :: parts, h => by
    rw [List.intercalate_cons_cons]
    rcases List.mem_cons.1 h with rfl | h
    · exact List.mem_append_left _ (List.mem_append_left _ hx)
    · exact List.mem_append_right _ (mem_intercalate_of_mem hx h)

/-- No list that is split off has the separator. -/
theorem notMem_of_mem_splitOn [BEq α] [LawfulBEq α] {sep : α} :
    ∀ {s c : List α}, c ∈ s.splitOn sep → sep ∉ c
  | [], c, h => by
    obtain rfl : c = [] := by simpa using h
    simp
  | x :: s, c, h => by
    rw [List.splitOn_cons_eq_if_modifyHead] at h
    split at h
    · rcases List.mem_cons.1 h with rfl | h
      · simp
      · exact notMem_of_mem_splitOn h
    · rename_i hx
      obtain ⟨d, ds, hds⟩ := List.exists_cons_of_ne_nil (List.splitOn_ne_nil sep s)
      rw [hds, List.modifyHead_cons] at h
      have hmem : ∀ e ∈ d :: ds, sep ∉ e := fun e he => notMem_of_mem_splitOn (hds ▸ he)
      rcases List.mem_cons.1 h with rfl | h
      · rintro (_ | ⟨_, hc⟩)
        · exact hx (beq_self_eq_true sep)
        · exact hmem d List.mem_cons_self hc
      · exact hmem c (List.mem_cons_of_mem _ h)

section Prefix

variable [BEq α] [LawfulBEq α] {sep : α} {a b : List (List α)}

theorem intercalate_inj (ha : ∀ l ∈ a, sep ∉ l) (hb : ∀ l ∈ b, sep ∉ l) (hane : a ≠ [])
    (hbne : b ≠ []) : [sep].intercalate a = [sep].intercalate b ↔ a = b := by
  refine ⟨fun h => ?_, congrArg _⟩
  rw [← List.splitOn_intercalate sep ha hane, h, List.splitOn_intercalate sep hb hbne]

/-- A joined list goes on behind another one and a separator when the lists do. -/
theorem prefix_iff (ha : ∀ l ∈ a, sep ∉ l) (hb : ∀ l ∈ b, sep ∉ l) (hane : a ≠ [])
    (hbne : b ≠ []) :
    [sep].intercalate a ++ [sep] <+: [sep].intercalate b ↔ a <+: b ∧ a ≠ b := by
  constructor
  · rintro ⟨t, ht⟩
    have hsplit := congrArg (List.splitOn sep) ht
    rw [List.append_assoc, List.singleton_append, List.splitOn_append_cons_self,
      List.splitOn_intercalate sep ha hane, List.splitOn_intercalate sep hb hbne] at hsplit
    refine ⟨⟨_, hsplit⟩, fun heq => List.splitOn_ne_nil sep t ?_⟩
    rw [heq] at hsplit
    exact List.append_right_eq_self.1 hsplit
  · rintro ⟨⟨rest, rfl⟩, hne⟩
    have hrest : rest ≠ [] := fun h => hne (by rw [h, List.append_nil])
    rw [intercalate_append [sep] hane hrest]
    exact List.prefix_append _ _

/-- Of two joined lists one goes on behind the other, or they are equal, exactly when one list is a
prefix of the other. -/
theorem comparable_iff (ha : ∀ l ∈ a, sep ∉ l) (hb : ∀ l ∈ b, sep ∉ l) (hane : a ≠ [])
    (hbne : b ≠ []) :
    ([sep].intercalate a = [sep].intercalate b ∨
        [sep].intercalate b ++ [sep] <+: [sep].intercalate a ∨
        [sep].intercalate a ++ [sep] <+: [sep].intercalate b) ↔ a <+: b ∨ b <+: a := by
  rw [intercalate_inj ha hb hane hbne, prefix_iff ha hb hane hbne, prefix_iff hb ha hbne hane]
  constructor
  · rintro (rfl | h | h)
    · exact Or.inl (List.prefix_refl a)
    · exact Or.inr h.1
    · exact Or.inl h.1
  · rintro (h | h)
    · by_cases heq : a = b
      · exact Or.inl heq
      · exact Or.inr (Or.inr ⟨h, heq⟩)
    · by_cases heq : b = a
      · exact Or.inl heq.symm
      · exact Or.inr (Or.inl ⟨h, heq⟩)

end Prefix

end Joined
