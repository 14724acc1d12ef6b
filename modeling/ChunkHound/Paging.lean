import Mathlib.Data.List.Nodup
import Mathlib.Data.List.Perm.Basic
import Mathlib.Data.List.Sort

/-!
# Pages of an ordered list

A query answers with a page : some items, whether there are more, and the offset at which to go on.
`Walk` follows the offsets, one query after another. `page` cuts a page from a list that is ordered
as a whole.

When all queries cut from the same list, the pages of a walk concatenate to it
(`Walk.flatten_same`).
A query may also order the items anew, by a key that some have in common. Then a walk still has
every item once if no two with the same key meet where one page ends and the next starts, and only
then (`partitions_iff`).
-/

namespace Paging

variable {α β κ : Type*}

@[ext]
structure Page (α : Type*) where
  items : List α
  hasMore : Bool
  nextOffset : Option ℕ
  deriving DecidableEq, Repr

/-- `LIMIT size OFFSET offset`, or `l[offset : offset + size]`. -/
def slice (l : List α) (size offset : ℕ) : List α := (l.drop offset).take size

/-- A page of an ordered list, of which `total` items are counted. -/
def page (l : List α) (total size offset : ℕ) : Page α where
  items := slice l size offset
  hasMore := offset + size < total
  nextOffset := if offset + size < total then some (offset + size) else none

/-- The items of the pages that are found by following `nextOffset` while `hasMore`. The answer to a
query depends on its number too. -/
inductive Walk (fetch : ℕ → ℕ → Page α) : ℕ → ℕ → List (List α) → Prop
  | last {q offset : ℕ} : (fetch q offset).hasMore = false →
      Walk fetch q offset [(fetch q offset).items]
  | more {q offset next : ℕ} {pages : List (List α)} : (fetch q offset).hasMore = true →
      (fetch q offset).nextOffset = some next → Walk fetch (q + 1) next pages →
      Walk fetch q offset ((fetch q offset).items :: pages)

/-- The pages of a list that each query orders in its own way. -/
def pageOf (orders : ℕ → List α) (size q offset : ℕ) : Page α :=
  page (orders q) (orders q).length size offset

section Walk

variable {orders : ℕ → List α} {n size q offset : ℕ} {pages : List (List α)}

variable {fetch : ℕ → ℕ → Page α}

theorem Walk.ne_nil (hw : Walk fetch q offset pages) : pages ≠ [] := by
  cases hw <;> exact List.cons_ne_nil _ _

theorem next_query (q k : ℕ) : q + 1 + k = q + (k + 1) := by omega

theorem next_offset (offset size k : ℕ) :
    offset + size + k * size = offset + (k + 1) * size := by
  rw [Nat.succ_mul]
  omega

/-- The `k`-th page of a walk whose pages before have more, each `size` items on. -/
theorem Walk.getElem?_fetch
    (hnext : ∀ q o, (fetch q o).hasMore = true → (fetch q o).nextOffset = some (o + size)) :
    ∀ (k : ℕ) {pages : List (List α)} {q offset : ℕ}, Walk fetch q offset pages →
      (∀ m < k, (fetch (q + m) (offset + m * size)).hasMore = true) →
      pages[k]? = some (fetch (q + k) (offset + k * size)).items
  | 0, pages, q, offset, hw, _ => by
    cases hw <;> simp
  | k + 1, pages, q, offset, hw, hmore => by
    have hfirst := hmore 0 (Nat.succ_pos k)
    rw [Nat.add_zero, Nat.zero_mul, Nat.add_zero] at hfirst
    cases hw with
    | last hlast =>
      rw [hfirst] at hlast
      cases hlast
    | more _ hoffset hw =>
      rw [hnext q offset hfirst] at hoffset
      obtain rfl := Option.some.inj hoffset
      have ih := Walk.getElem?_fetch hnext k hw fun m hm => by
        rw [next_query, next_offset]
        exact hmore (m + 1) (Nat.succ_lt_succ hm)
      rw [List.getElem?_cons_succ, ih, next_query, next_offset]

/-- Every page of a walk is what some query answered. -/
theorem Walk.exists_of_mem
    (hnext : ∀ q o, (fetch q o).hasMore = true → (fetch q o).nextOffset = some (o + size)) :
    ∀ {pages : List (List α)} {q offset : ℕ}, Walk fetch q offset pages →
      ∀ p ∈ pages, ∃ k, p = (fetch (q + k) (offset + k * size)).items
  | [], _, _, _, _, hp => nomatch hp
  | page :: rest, q, offset, hw, p, hp => by
    cases hw with
    | last _ =>
      obtain rfl := List.mem_singleton.1 hp
      exact ⟨0, by simp⟩
    | more hmore hoffset hw =>
      rw [hnext q offset hmore] at hoffset
      obtain rfl := Option.some.inj hoffset
      rcases List.mem_cons.1 hp with rfl | hp
      · exact ⟨0, by simp⟩
      · obtain ⟨k, hk⟩ := Walk.exists_of_mem hnext hw p hp
        exact ⟨k + 1, by rw [hk, next_query, next_offset]⟩

/-- Queries that answer alike at the offsets of a walk. -/
theorem Walk.congr_at {fetch fetch' : ℕ → ℕ → Page α}
    (hnext : ∀ q o, (fetch q o).hasMore = true → (fetch q o).nextOffset = some (o + size)) :
    ∀ {pages : List (List α)} {q offset : ℕ}, Walk fetch q offset pages →
      (∀ k, fetch (q + k) (offset + k * size) = fetch' (q + k) (offset + k * size)) →
      Walk fetch' q offset pages
  | [], _, _, hw, _ => absurd rfl hw.ne_nil
  | page :: rest, q, offset, hw, h => by
    have hfirst := h 0
    rw [Nat.add_zero, Nat.zero_mul, Nat.add_zero] at hfirst
    cases hw with
    | last hlast =>
      rw [hfirst] at hlast ⊢
      exact .last hlast
    | more hmore hoffset hw =>
      rw [hnext q offset hmore] at hoffset
      obtain rfl := Option.some.inj hoffset
      have hrest : Walk fetch' (q + 1) (offset + size) rest := Walk.congr_at hnext hw fun k => by
        rw [next_query, next_offset]
        exact h (k + 1)
      have hoffset := hnext q offset hmore
      rw [hfirst] at hmore hoffset ⊢
      exact .more hmore hoffset hrest

theorem pageOf_nextOffset (q o : ℕ) : (pageOf orders size q o).nextOffset =
    if (pageOf orders size q o).hasMore then some (o + size) else none := by
  simp [pageOf, page]

theorem pageOf_next (q o : ℕ) (h : (pageOf orders size q o).hasMore = true) :
    (pageOf orders size q o).nextOffset = some (o + size) := by
  rw [pageOf_nextOffset, if_pos h]

/-- A walk ends at a page, or goes on behind it. -/
theorem walk_pageOf_iff : Walk (pageOf orders size) q offset pages ↔
    (orders q).length ≤ offset + size ∧ pages = [slice (orders q) size offset] ∨
      offset + size < (orders q).length ∧ ∃ rest, pages = slice (orders q) size offset :: rest ∧
        Walk (pageOf orders size) (q + 1) (offset + size) rest := by
  constructor
  · intro hw
    cases hw with
    | last hmore => exact Or.inl ⟨by simpa [pageOf, page] using hmore, rfl⟩
    | more hmore hnext hw =>
      have hlt : offset + size < (orders q).length := by simpa [pageOf, page] using hmore
      simp only [pageOf, page, hlt, if_true] at hnext
      obtain rfl := Option.some.inj hnext
      exact Or.inr ⟨hlt, _, rfl, hw⟩
  · rintro (⟨hle, rfl⟩ | ⟨hlt, rest, rfl, hw⟩)
    · exact .last (by simpa [pageOf, page] using hle)
    · exact .more (by simpa [pageOf, page] using hlt) (by simp [pageOf, page, hlt]) hw

/-- Every step of a walk leaves fewer items behind it. -/
theorem exists_walk (hsize : 0 < size) (hlen : ∀ q, (orders q).length = n) :
    ∀ (left q offset : ℕ), n - offset ≤ left → ∃ pages, Walk (pageOf orders size) q offset pages
  | 0, q, offset, hleft =>
    ⟨_, walk_pageOf_iff.2 (Or.inl ⟨by rw [hlen]; omega, rfl⟩)⟩
  | left + 1, q, offset, hleft => by
    by_cases hle : n ≤ offset + size
    · exact ⟨_, walk_pageOf_iff.2 (Or.inl ⟨by rw [hlen]; exact hle, rfl⟩)⟩
    · obtain ⟨rest, hw⟩ := exists_walk hsize hlen left (q + 1) (offset + size) (by omega)
      exact ⟨_, walk_pageOf_iff.2 (Or.inr ⟨by rw [hlen]; omega, rest, rfl, hw⟩)⟩

/-- With empty pages a walk does not end before the items do. -/
theorem Walk.le_offset (hlen : ∀ q, (orders q).length = n) :
    ∀ {pages : List (List α)} {q : ℕ}, Walk (pageOf orders 0) q offset pages → n ≤ offset
  | [], _, hw => absurd rfl hw.ne_nil
  | _ :: rest, q, hw => by
    rcases walk_pageOf_iff.1 hw with ⟨hle, -⟩ | ⟨-, rest', heq, hw⟩
    · rwa [hlen] at hle
    · obtain ⟨-, rfl⟩ := List.cons.inj heq
      exact Walk.le_offset hlen hw

/-- The `j`-th page of a walk. -/
theorem Walk.getElem? (hlen : ∀ q, (orders q).length = n) (j : ℕ)
    (hw : Walk (pageOf orders size) q offset pages) (hj : j = 0 ∨ offset + j * size < n) :
    pages[j]? = some (slice (orders (q + j)) size (offset + j * size)) := by
  refine hw.getElem?_fetch pageOf_next j fun m hm => ?_
  have hmul : (m + 1) * size ≤ j * size := Nat.mul_le_mul_right size hm
  rw [Nat.succ_mul] at hmul
  have hlt : offset + m * size + size < n := by omega
  simpa [pageOf, page, hlen] using hlt

/-- No page but the first is empty. -/
theorem Walk.ne_nil_of_mem_tail (hsize : 0 < size) (hlen : ∀ q, (orders q).length = n) :
    ∀ {pages : List (List α)} {q offset : ℕ}, Walk (pageOf orders size) q offset pages →
      ∀ p ∈ pages.tail, p ≠ []
  | [], _, _, hw, _, _ => absurd rfl hw.ne_nil
  | _ :: rest, q, offset, hw, p, hp => by
    rcases walk_pageOf_iff.1 hw with ⟨-, heq⟩ | ⟨hlt, rest', heq, hw⟩
    · obtain ⟨-, rfl⟩ := List.cons.inj heq
      cases hp
    · obtain ⟨-, rfl⟩ := List.cons.inj heq
      have htail := Walk.ne_nil_of_mem_tail hsize hlen hw
      have hhead : rest ≠ [] := hw.ne_nil
      have hp : p ∈ rest := hp
      have hfirst : ∀ first, rest.head? = some first → first ≠ [] := by
        intro first hfirst
        have hslice : first = slice (orders (q + 1)) size (offset + size) := by
          rcases walk_pageOf_iff.1 hw with ⟨-, rfl⟩ | ⟨-, _, rfl, -⟩ <;>
            exact (Option.some.inj hfirst).symm
        rw [hslice, ← List.length_pos_iff]
        simp only [slice, List.length_take, List.length_drop, hlen] at hlt ⊢
        omega
      cases rest with
      | nil => cases hp
      | cons first rest =>
        rcases List.mem_cons.1 hp with rfl | hp
        · exact hfirst _ rfl
        · exact htail p hp

theorem slice_append_drop (l : List α) (size offset : ℕ) :
    slice l size offset ++ l.drop (offset + size) = l.drop offset := by
  rw [slice, ← List.drop_drop, List.take_append_drop]

theorem slice_eq_drop {l : List α} (h : l.length ≤ offset + size) :
    slice l size offset = l.drop offset :=
  List.take_of_length_le (by rw [List.length_drop]; omega)

/-- A page does not see what comes behind it. -/
theorem slice_take (l : List α) (size offset : ℕ) :
    slice (l.take (offset + size)) size offset = slice l size offset := by
  rw [slice, slice, List.drop_take, Nat.add_sub_cancel_left, List.take_take, Nat.min_self]

/-- Where the queries agree on what comes behind each page, a walk has what comes behind its
start. -/
theorem Walk.flatten_perm (hlen : ∀ q, (orders q).length = n) :
    ∀ {pages : List (List α)} {q offset : ℕ},
      (∀ k, 0 < k → offset + k * size < n → ∀ q q',
        ((orders q).drop (offset + k * size)).Perm ((orders q').drop (offset + k * size))) →
      Walk (pageOf orders size) q offset pages → pages.flatten.Perm ((orders q).drop offset)
  | [], _, _, _, hw => absurd rfl hw.ne_nil
  | _ :: rest, q, offset, hagree, hw => by
    rcases walk_pageOf_iff.1 hw with ⟨hle, heq⟩ | ⟨hlt, rest', heq, hw⟩
    · obtain ⟨rfl, rfl⟩ := List.cons.inj heq
      simp [slice_eq_drop hle]
    · obtain ⟨rfl, rfl⟩ := List.cons.inj heq
      have ih := Walk.flatten_perm hlen (fun k hk hb => by
        rw [next_offset] at hb ⊢
        exact hagree (k + 1) (Nat.succ_pos k) hb) hw
      have hnext := hagree 1 Nat.one_pos (by rw [hlen] at hlt; omega) (q + 1) q
      rw [Nat.one_mul] at hnext
      rw [List.flatten_cons, ← slice_append_drop (orders q) size offset]
      exact (ih.trans hnext).append_left _

/-- Pages of one list concatenate to it. -/
theorem Walk.flatten_same {l : List α} :
    ∀ {pages : List (List α)} {q offset : ℕ}, Walk (pageOf (fun _ => l) size) q offset pages →
      pages.flatten = l.drop offset
  | [], _, _, hw => absurd rfl hw.ne_nil
  | _ :: rest, q, offset, hw => by
    rcases walk_pageOf_iff.1 hw with ⟨hle, heq⟩ | ⟨-, rest', heq, hw⟩
    · obtain ⟨rfl, rfl⟩ := List.cons.inj heq
      simp [slice_eq_drop hle]
    · obtain ⟨rfl, rfl⟩ := List.cons.inj heq
      rw [List.flatten_cons, Walk.flatten_same hw, slice_append_drop]

end Walk

/-! ## Partitions -/

/-- A page is followed by another exactly when an item is still unseen. -/
def TellsMore (pages : List (List α)) (whole : List α) : Prop :=
  ∀ j < pages.length, j + 1 < pages.length ↔ ∃ a ∈ whole, a ∉ (pages.take (j + 1)).flatten

/-- The pages of a walk have every item once, and say when there are more. -/
def Partitions (fetch : ℕ → ℕ → Page α) (offset : ℕ) (whole : List α) : Prop :=
  ∃ pages, Walk fetch 0 offset pages ∧ pages.flatten.Perm whole ∧ TellsMore pages whole

/-- It is enough that no page but the first is empty. -/
theorem tellsMore_of_perm {whole : List α} {pages : List (List α)} (hnodup : whole.Nodup)
    (hperm : pages.flatten.Perm whole) (htail : ∀ p ∈ pages.tail, p ≠ []) :
    TellsMore pages whole := by
  intro j hj
  have hsplit : pages.flatten = (pages.take (j + 1)).flatten ++ (pages.drop (j + 1)).flatten := by
    rw [← List.flatten_append, List.take_append_drop]
  constructor
  · intro hlt
    have hmem : pages[j + 1] ∈ pages.tail := by
      rw [← List.drop_one]
      exact List.mem_drop_iff_getElem.2 ⟨j, by omega, by simp [Nat.add_comm]⟩
    obtain ⟨a, ha⟩ := List.exists_mem_of_ne_nil _ (htail _ hmem)
    have hright : a ∈ (pages.drop (j + 1)).flatten :=
      List.mem_flatten.2 ⟨_, List.mem_drop_iff_getElem.2 ⟨0, by omega, rfl⟩, ha⟩
    refine ⟨a, hperm.subset (by rw [hsplit]; exact List.mem_append_right _ hright), fun hleft => ?_⟩
    have hboth : (pages.take (j + 1)).flatten.Disjoint (pages.drop (j + 1)).flatten :=
      (List.nodup_append'.1 (hsplit ▸ hperm.nodup_iff.2 hnodup)).2.2
    exact hboth hleft hright
  · rintro ⟨a, ha, hunseen⟩
    by_contra hlast
    have htake : pages.take (j + 1) = pages := List.take_of_length_le (by omega)
    rw [htake] at hunseen
    exact hunseen (hperm.symm.subset ha)

/-- Each query cuts its page from the same list. -/
theorem exists_walk_same {l : List α} {size : ℕ} (hnodup : l.Nodup) (hsize : 0 < size)
    (offset : ℕ) : ∃ pages, Walk (pageOf (fun _ => l) size) 0 offset pages ∧
      pages.flatten = l.drop offset ∧ TellsMore pages (l.drop offset) := by
  have hex : ∃ pages, Walk (pageOf (fun _ => l) size) 0 offset pages :=
    exists_walk hsize (fun _ => rfl) _ 0 offset (Nat.le_refl _)
  obtain ⟨pages, hw⟩ := hex
  refine ⟨pages, hw, hw.flatten_same, ?_⟩
  exact tellsMore_of_perm (hnodup.sublist (List.drop_sublist _ _)) (by rw [hw.flatten_same])
    (hw.ne_nil_of_mem_tail hsize fun _ => rfl)

theorem partitions_same {l : List α} {size : ℕ} (hnodup : l.Nodup) (hsize : 0 < size)
    (offset : ℕ) : Partitions (pageOf (fun _ => l) size) offset (l.drop offset) := by
  obtain ⟨pages, hw, hflat, hmore⟩ := exists_walk_same hnodup hsize offset
  exact ⟨pages, hw, by rw [hflat], hmore⟩

/-! ## Orders by a key -/

section Key

variable [LinearOrder κ] {key : α → κ} {rows l l' : List α}

/-- `l` has the rows in an order that `ORDER BY` admits. -/
def IsOrdered (key : α → κ) (rows l : List α) : Prop :=
  l.Perm rows ∧ l.Pairwise fun a b => key a ≤ key b

/-- The keys of the rows in order. -/
def keys (key : α → κ) (rows : List α) : List κ := (rows.map key).mergeSort fun a b => a ≤ b

/-- The rows on both sides of a position differ in their keys. -/
def Untied (key : α → κ) (rows : List α) (b : ℕ) : Prop :=
  (keys key rows)[b - 1]? ≠ (keys key rows)[b]?

/-- The order of the keys is no choice. -/
theorem IsOrdered.map_key (h : IsOrdered key rows l) : l.map key = keys key rows := by
  have hsorted : (l.map key).SortedLE := (List.pairwise_map.2 h.2).sortedLE
  have hkeys : (keys key rows).SortedLE := List.sortedLE_mergeSort
  exact ((h.1.map key).trans (List.mergeSort_perm _ _).symm).eq_of_sortedLE hsorted hkeys

theorem IsOrdered.length_eq (h : IsOrdered key rows l) : l.length = rows.length :=
  h.1.length_eq

/-- The rows on both sides of a position. -/
theorem exists_split {b : ℕ} (hb : 0 < b) (hlt : b < l.length) :
    ∃ pre x y post, l = pre ++ x :: y :: post ∧ pre.length + 1 = b := by
  have hlen : (l.drop (b - 1)).length = l.length - (b - 1) := List.length_drop
  match hdrop : l.drop (b - 1) with
  | [] | [_] =>
    rw [hdrop] at hlen
    simp only [List.length_nil, List.length_singleton] at hlen
    omega
  | x :: y :: post =>
    refine ⟨l.take (b - 1), x, y, post, ?_, ?_⟩
    · rw [← hdrop, List.take_append_drop]
    · rw [List.length_take]
      omega

variable {pre post : List α}

variable {x y : α}

theorem IsOrdered.untied_iff (h : IsOrdered key rows (pre ++ x :: y :: post)) :
    Untied key rows (pre.length + 1) ↔ key x ≠ key y := by
  have hx : (keys key rows)[pre.length]? = some (key x) := by
    rw [← h.map_key]
    simp
  have hy : (keys key rows)[pre.length + 1]? = some (key y) := by
    rw [← h.map_key]
    simp
  rw [Untied, Nat.add_sub_cancel, hx, hy]
  exact not_congr Option.some_inj

/-- Behind an untied position come the rows with a key from there on. -/
theorem IsOrdered.filter_eq (h : IsOrdered key rows (pre ++ x :: y :: post)) (hne : key x ≠ key y) :
    (pre ++ x :: y :: post).filter (fun a => key y ≤ key a) = y :: post := by
  obtain ⟨-, hright, hcross⟩ := List.pairwise_append.1 h.2
  obtain ⟨hx, hright⟩ := List.pairwise_cons.1 hright
  have hlt : key x < key y := lt_of_le_of_ne (hx y List.mem_cons_self) hne
  have hpre : pre.filter (fun a => key y ≤ key a) = [] :=
    List.filter_eq_nil_iff.2 fun a ha => by
      simpa using lt_of_le_of_lt (hcross a ha x List.mem_cons_self) hlt
  have hpost : (y :: post).filter (fun a => key y ≤ key a) = y :: post := by
    refine List.filter_eq_self.2 fun a ha => ?_
    rcases List.mem_cons.1 ha with rfl | ha
    · simp
    · simpa using (List.pairwise_cons.1 hright).1 a ha
  rw [List.filter_append, hpre, List.nil_append, List.filter_cons_of_neg (by simpa using hlt),
    hpost]

/-- All orders agree on what comes behind an untied position. -/
theorem IsOrdered.drop_perm {b : ℕ} (h : IsOrdered key rows l) (h' : IsOrdered key rows l')
    (hb : 0 < b) (hlt : b < rows.length) (hu : Untied key rows b) :
    (l.drop b).Perm (l'.drop b) := by
  obtain ⟨pre, x, y, post, rfl, rfl⟩ := exists_split hb (h.length_eq ▸ hlt)
  obtain ⟨pre', x', y', post', rfl, hlen⟩ := exists_split hb (h'.length_eq ▸ hlt)
  have hne := h.untied_iff.1 hu
  have hne' := h'.untied_iff.1 (hlen ▸ hu)
  have hkey : key y = key y' := by
    have hy := congrArg (·[pre.length + 1]?) (h.map_key.trans h'.map_key.symm)
    have hlen : pre.length = pre'.length := by omega
    simpa [hlen] using hy
  have hdrop : (pre ++ x :: y :: post).drop (pre.length + 1) = y :: post := by
    simp
  have hdrop' : (pre' ++ x' :: y' :: post').drop (pre.length + 1) = y' :: post' := by
    rw [← hlen]
    simp
  rw [hdrop, hdrop', ← h.filter_eq hne, ← h'.filter_eq hne', hkey]
  exact (h.1.trans h'.1.symm).filter _

/-- Two rows of the same key may change places. -/
theorem IsOrdered.swap (h : IsOrdered key rows (pre ++ x :: y :: post)) (heq : key x = key y) :
    IsOrdered key rows (pre ++ y :: x :: post) := by
  refine ⟨((List.Perm.swap x y post).append_left pre).trans h.1, List.pairwise_map.1 ?_⟩
  have hmap := List.pairwise_map.2 h.2
  simpa [heq] using hmap

theorem isOrdered_mergeSort (key : α → κ) (rows : List α) :
    IsOrdered key rows (rows.mergeSort fun a b => key a ≤ key b) := by
  refine ⟨List.mergeSort_perm _ _, ?_⟩
  have hsorted : (rows.mergeSort fun a b => key a ≤ key b).Pairwise
      fun a b => decide (key a ≤ key b) = true := by
    refine List.pairwise_mergeSort (fun a b c hab hbc => ?_) (fun a b => ?_) rows
    · simp only [decide_eq_true_eq] at hab hbc ⊢
      exact hab.trans hbc
    · simpa using le_total (key a) (key b)
  exact hsorted.imp fun hab => of_decide_eq_true hab

/-- Where two rows of the same key meet at the end of a page, the next query may show the one before
again. -/
theorem exists_repeated {b size k : ℕ} {offset : ℕ} (hk : 0 < k) (hsize : 0 < size)
    (hb : b = offset + k * size) (hlt : b < rows.length) (htie : ¬ Untied key rows b) :
    ∃ orders : ℕ → List α, (∀ q, IsOrdered key rows (orders q)) ∧
      ∀ pages, Walk (pageOf orders size) 0 offset pages → ¬ pages.flatten.Nodup := by
  have hsort := isOrdered_mergeSort key rows
  have hmul : (k - 1) * size + size = k * size := by
    rw [← Nat.succ_mul]
    congr 1
    omega
  obtain ⟨pre, x, y, post, hl, hpre⟩ :=
    exists_split (b := b) (by omega) (hsort.length_eq ▸ hlt)
  rw [hl] at hsort
  have heq : key x = key y := by
    subst hpre
    exact not_not.1 fun hne => htie (hsort.untied_iff.2 hne)
  have hswap := hsort.swap heq
  refine ⟨fun q => if q < k then pre ++ x :: y :: post else pre ++ y :: x :: post,
    fun q => ?_, fun pages hw hnodup => ?_⟩
  · dsimp only
    split
    · exact hsort
    · exact hswap
  · have hlen : ∀ q, ((fun q => if q < k then pre ++ x :: y :: post
        else pre ++ y :: x :: post) q).length = rows.length := by
      intro q
      dsimp only
      split
      · exact hsort.length_eq
      · exact hswap.length_eq
    have hbefore := hw.getElem? hlen (k - 1) (Or.inr (by omega))
    have hafter := hw.getElem? hlen k (Or.inr (by omega))
    rw [Nat.zero_add, if_pos (by omega)] at hbefore
    rw [Nat.zero_add, if_neg (by omega), ← hb] at hafter
    have hxbefore : x ∈ slice (pre ++ x :: y :: post) size (offset + (k - 1) * size) := by
      refine List.mem_of_getElem? (i := size - 1) ?_
      rw [slice, List.getElem?_take_of_lt (by omega), List.getElem?_drop]
      have hi : offset + (k - 1) * size + (size - 1) = pre.length := by omega
      rw [hi]
      simp
    have hxafter : x ∈ slice (pre ++ y :: x :: post) size b := by
      refine List.mem_of_getElem? (i := 0) ?_
      rw [slice, List.getElem?_take_of_lt hsize, List.getElem?_drop, Nat.add_zero, ← hpre]
      simp
    have hdisjoint := List.pairwise_iff_getElem.1 (List.nodup_flatten.1 hnodup).2
    obtain ⟨hk', hbefore⟩ := List.getElem?_eq_some_iff.1 hbefore
    obtain ⟨hk'', hafter⟩ := List.getElem?_eq_some_iff.1 hafter
    have hpages := hdisjoint (k - 1) k hk' hk'' (by omega)
    rw [hbefore, hafter] at hpages
    exact hpages hxbefore hxafter

/-- Whatever orders the queries choose, the pages have every row once exactly when no two rows of
the same key meet where a page ends and another starts. -/
theorem partitions_iff (hnodup : rows.Nodup) (size offset : ℕ) :
    (∀ orders : ℕ → List α, (∀ q, IsOrdered key rows (orders q)) →
      Partitions (pageOf orders size) offset ((orders 0).drop offset)) ↔
    (size = 0 → rows.length ≤ offset) ∧
      ∀ k, 0 < k → offset + k * size < rows.length → Untied key rows (offset + k * size) := by
  constructor
  · intro h
    constructor
    · rintro rfl
      obtain ⟨pages, hw, -⟩ := h (fun _ => _) fun _ => isOrdered_mergeSort key rows
      exact hw.le_offset fun _ => (isOrdered_mergeSort key rows).length_eq
    · intro k hk hlt
      by_contra htie
      have hsize : 0 < size := by
        rcases Nat.eq_zero_or_pos size with rfl | hpos
        · obtain ⟨pages, hw, -⟩ := h (fun _ => _) fun _ => isOrdered_mergeSort key rows
          have := hw.le_offset fun _ => (isOrdered_mergeSort key rows).length_eq
          omega
        · exact hpos
      obtain ⟨orders, hord, hrepeated⟩ := exists_repeated hk hsize rfl hlt htie
      obtain ⟨pages, hw, hperm, -⟩ := h orders hord
      refine hrepeated pages hw (hperm.nodup_iff.2 ?_)
      exact ((hord 0).1.nodup_iff.2 hnodup).sublist (List.drop_sublist _ _)
  · rintro ⟨hzero, huntied⟩ orders hord
    have hlen : ∀ q, (orders q).length = rows.length := fun q => (hord q).length_eq
    have hwhole : ((orders 0).drop offset).Nodup :=
      ((hord 0).1.nodup_iff.2 hnodup).sublist (List.drop_sublist _ _)
    rcases Nat.eq_zero_or_pos size with rfl | hsize
    · have hle := hzero rfl
      have hw : Walk (pageOf orders 0) 0 offset [slice (orders 0) 0 offset] :=
        walk_pageOf_iff.2 (Or.inl ⟨by rw [hlen]; omega, rfl⟩)
      have hperm : [slice (orders 0) 0 offset].flatten.Perm ((orders 0).drop offset) := by
        rw [List.drop_eq_nil_of_le (by rw [hlen]; exact hle)]
        simp [slice]
      exact ⟨_, hw, hperm, tellsMore_of_perm hwhole hperm nofun⟩
    · obtain ⟨pages, hw⟩ := exists_walk hsize hlen _ 0 offset (Nat.le_refl _)
      have hperm := hw.flatten_perm hlen fun k hk hlt q q' => by
        have hmul : size ≤ k * size := Nat.le_mul_of_pos_left size hk
        exact (hord q).drop_perm (hord q') (by omega) hlt (huntied k hk hlt)
      exact ⟨pages, hw, hperm,
        tellsMore_of_perm hwhole hperm (hw.ne_nil_of_mem_tail hsize hlen)⟩

/-- No two rows of the same key meet where a page ends and another starts. -/
def Separated (key : α → κ) (rows : List α) (size offset : ℕ) : Prop :=
  (size = 0 → rows.length ≤ offset) ∧
    ∀ k, 0 < k → offset + k * size < rows.length → Untied key rows (offset + k * size)

/-- Every list is put into an order that `ORDER BY` admits. -/
def Orders (key : α → κ) (order : List α → List α) : Prop :=
  ∀ rows, IsOrdered key rows (order rows)

/-- Queries that order the rows as they choose. -/
theorem partitions_orders_iff (fetch : (List α → List α) → ℕ → Page α) {size : ℕ}
    (hfetch : ∀ order offset, Orders key order →
      fetch order offset = page (order rows) rows.length size offset)
    (hnodup : rows.Nodup) (offset : ℕ) :
    (∀ order : ℕ → List α → List α, (∀ q, Orders key (order q)) →
      Partitions (fun q o => fetch (order q) o) offset ((order 0 rows).drop offset)) ↔
    Separated key rows size offset := by
  classical
  have hpage : ∀ order : ℕ → List α → List α, (∀ q, Orders key (order q)) →
      (fun q o => fetch (order q) o) = pageOf (fun q => order q rows) size := by
    intro order hord
    ext q o : 2
    rw [hfetch (order q) o (hord q), pageOf, (hord q rows).length_eq]
  rw [Separated, ← partitions_iff hnodup size offset]
  constructor
  · intro h orders hord
    have hchoose : ∀ q, Orders key fun l =>
        if l = rows then orders q else l.mergeSort fun a b => key a ≤ key b := by
      intro q l
      dsimp only
      split
      · rename_i heq
        rw [heq]
        exact hord q
      · exact isOrdered_mergeSort key l
    have := h _ hchoose
    rw [hpage _ hchoose] at this
    simpa using this
  · intro h order hord
    rw [hpage order hord]
    exact h _ fun q => hord q rows

end Key

/-! ## Pages of what passes a filter -/

section Filtered

variable {p p' : α → Bool} {size : ℕ}

/-- The items that pass either filter begin with some that pass both, as long as they go on. -/
theorem agree_of_take_eq : ∀ {l : List α} {n : ℕ}, l.Nodup →
    (l.filter p).take n = (l.filter p').take n →
      ∃ shown behind, l = shown ++ behind ∧ (∀ x ∈ shown, p x = p' x) ∧
        (behind = [] ∨ shown.countP p = n)
  | l, 0, _, _ => ⟨[], l, rfl, List.forall_mem_nil _, Or.inr rfl⟩
  | [], _ + 1, _, _ => ⟨[], [], rfl, List.forall_mem_nil _, Or.inl rfl⟩
  | y :: l, n + 1, hnodup, h => by
    obtain ⟨hy, hl⟩ := List.nodup_cons.1 hnodup
    have hnot : ∀ q : α → Bool, y ∉ (l.filter q).take (n + 1) := fun q hmem =>
      hy (List.mem_of_mem_filter (List.mem_of_mem_take hmem))
    cases hp : p y <;> cases hp' : p' y <;>
      simp only [List.filter_cons, hp, hp', if_true, Bool.false_eq_true, if_false,
        List.take_succ_cons] at h
    · obtain ⟨shown, behind, rfl, hagree, hend⟩ := agree_of_take_eq hl h
      refine ⟨y :: shown, behind, rfl, List.forall_mem_cons.2 ⟨hp.trans hp'.symm, hagree⟩, ?_⟩
      rwa [List.countP_cons_of_neg (by simp [hp])]
    · exact absurd (h ▸ List.mem_cons_self) (hnot p)
    · exact absurd (h ▸ List.mem_cons_self) (hnot p')
    · obtain ⟨shown, behind, rfl, hagree, hend⟩ := agree_of_take_eq hl (List.cons.inj h).2
      refine ⟨y :: shown, behind, rfl, List.forall_mem_cons.2 ⟨hp.trans hp'.symm, hagree⟩, ?_⟩
      rw [List.countP_cons_of_pos hp]
      exact hend.imp_right (congrArg (· + 1))

/-- An item in front of the page only moves the offset. -/
theorem slice_filter_cons (size : ℕ) {y : α} {offset : ℕ} (h : p y = true → 0 < offset) :
    ∃ m, (∀ l : List α, slice ((y :: l).filter p) size offset = slice (l.filter p) size m) ∧
      ∀ l : List α, (y :: l).countP p + m = l.countP p + offset := by
  cases hp : p y with
  | false =>
    exact ⟨offset, fun l => by rw [List.filter_cons_of_neg (by simp [hp])],
      fun l => by rw [List.countP_cons_of_neg (by simp [hp])]⟩
  | true =>
    obtain ⟨m, rfl⟩ := Nat.exists_eq_add_one.2 (h hp)
    refine ⟨m, fun l => ?_, fun l => ?_⟩
    · rw [List.filter_cons_of_pos hp, slice, List.drop_succ_cons, slice]
    · rw [List.countP_cons_of_pos hp]
      omega

/-- An item begins the page where it passes and nothing is left out before. -/
theorem mem_slice_cons {y : α} {l : List α} {offset : ℕ} (hy : y ∉ l) (hsize : 0 < size) :
    y ∈ slice ((y :: l).filter p) size offset ↔ p y = true ∧ offset = 0 := by
  constructor
  · intro hmem
    by_contra hnot
    obtain ⟨m, hslice, -⟩ := slice_filter_cons size fun hp : p y = true =>
      Nat.pos_of_ne_zero fun h0 => hnot ⟨hp, h0⟩
    rw [hslice] at hmem
    exact hy (List.mem_of_mem_filter (List.mem_of_mem_drop (List.mem_of_mem_take hmem)))
  · rintro ⟨hp, rfl⟩
    obtain ⟨n, rfl⟩ := Nat.exists_eq_add_one.2 hsize
    rw [List.filter_cons_of_pos hp, slice, List.drop_zero, List.take_succ_cons]
    exact List.mem_cons_self

/-- The list begins with items that fill one filter up to its offset and the other to its own, and
behind them the filters agree to the end of a page. -/
def AgreeOnPage (p p' : α → Bool) (size offset offset' : ℕ) (l : List α) : Prop :=
  ∃ front shown behind, l = front ++ shown ++ behind ∧ front.countP p = offset ∧
    front.countP p' = offset' ∧ (∀ x ∈ shown, p x = p' x) ∧
      (behind = [] ∨ shown.countP p = size)

theorem agree_of_slice_eq (hsize : 0 < size) : ∀ {l : List α} {offset offset' : ℕ}, l.Nodup →
    slice (l.filter p) size offset = slice (l.filter p') size offset' →
      (l.countP p ≤ offset ∧ l.countP p' ≤ offset') ∨ AgreeOnPage p p' size offset offset' l
  | [], _, _, _, _ => Or.inl ⟨Nat.zero_le _, Nat.zero_le _⟩
  | y :: l, offset, offset', hnodup, h => by
    obtain ⟨hy, hl⟩ := List.nodup_cons.1 hnodup
    by_cases hmem : y ∈ slice ((y :: l).filter p) size offset
    · -- the page begins here
      obtain ⟨-, rfl⟩ := (mem_slice_cons hy hsize).1 hmem
      rw [h] at hmem
      obtain ⟨-, rfl⟩ := (mem_slice_cons hy hsize).1 hmem
      obtain ⟨shown, behind, hsplit, hagree, hend⟩ := agree_of_take_eq hnodup h
      exact Or.inr ⟨[], shown, behind, hsplit, rfl, rfl, hagree, hend⟩
    · have hmem' := hmem
      rw [h] at hmem'
      rw [mem_slice_cons hy hsize, not_and] at hmem hmem'
      obtain ⟨m, hslice, hcount⟩ := slice_filter_cons size fun hp => Nat.pos_of_ne_zero (hmem hp)
      obtain ⟨m', hslice', hcount'⟩ :=
        slice_filter_cons size fun hp => Nat.pos_of_ne_zero (hmem' hp)
      rw [hslice, hslice'] at h
      have hhere := hcount l
      have hhere' := hcount' l
      rcases agree_of_slice_eq hsize hl h with ⟨hle, hle'⟩ |
        ⟨front, shown, behind, rfl, hfront, hfront', hagree, hend⟩
      · exact Or.inl ⟨by omega, by omega⟩
      · have hmore := hcount front
        have hmore' := hcount' front
        exact Or.inr ⟨y :: front, shown, behind, rfl, by omega, by omega, hagree, hend⟩

/-- The items that pass one filter have the same page as those that pass another exactly when they
end before it, or the filters agree from its first item to its last. -/
theorem slice_filter_eq_iff (p p' : α → Bool) (size offset : ℕ) {l : List α} (h : l.Nodup) :
    slice (l.filter p) size offset = slice (l.filter p') size offset ↔
      size = 0 ∨ (l.countP p ≤ offset ∧ l.countP p' ≤ offset) ∨
        AgreeOnPage p p' size offset offset l := by
  constructor
  · intro heq
    exact (Nat.eq_zero_or_pos size).imp_right fun hsize => agree_of_slice_eq hsize h heq
  · rintro (rfl | ⟨hle, hle'⟩ | ⟨front, shown, behind, rfl, hfront, hfront', hagree, hend⟩)
    · simp [slice]
    · rw [List.countP_eq_length_filter] at hle hle'
      simp [slice, List.drop_eq_nil_of_le hle, List.drop_eq_nil_of_le hle']
    · have hshown : shown.filter p = shown.filter p' := List.filter_congr hagree
      rw [List.countP_eq_length_filter] at hfront hfront' hend
      simp only [slice, List.filter_append, List.append_assoc]
      rw [List.drop_left' hfront, List.drop_left' hfront', ← hshown]
      rcases hend with rfl | hend
      · simp
      · rw [List.take_left' hend, List.take_left' hend]

/-- What passes a filter has the page of the whole list exactly when the list ends before it, or
all items to its end pass. -/
theorem slice_eq_filter_iff {l : List α} {offset : ℕ} (h : l.Nodup) :
    slice l size offset = slice (l.filter p) size offset ↔
      size = 0 ∨ l.length ≤ offset ∨ ∀ x ∈ l.take (offset + size), p x = true := by
  have hiff := slice_filter_eq_iff (fun _ => true) p size offset h
  rw [List.filter_eq_self.2 fun _ _ => rfl, List.countP_true] at hiff
  refine hiff.trans (or_congr_right ?_)
  constructor
  · rintro (⟨hle, -⟩ | ⟨front, shown, behind, rfl, hfront, hpass, hagree, hend⟩)
    · exact Or.inl hle
    · rw [List.countP_true] at hfront hend
      have hall : ∀ x ∈ front ++ shown, p x = true := fun x hx =>
        (List.mem_append.1 hx).elim (List.countP_eq_length.1 (hpass.trans hfront.symm) x)
          fun hx => (hagree x hx).symm
      refine Or.inr fun x hx => hall x ?_
      rcases hend with rfl | hend
      · rw [List.append_nil] at hx
        exact List.mem_of_mem_take hx
      · rwa [List.take_left' (by rw [List.length_append, hfront, hend])] at hx
  · intro hall
    by_cases hle : l.length ≤ offset
    · exact Or.inl ⟨hle, List.countP_le_length.trans hle⟩
    · have hpass := (hall.resolve_left hle)
      rw [List.take_add, List.forall_mem_append] at hpass
      have hfront : (l.take offset).length = offset := by
        rw [List.length_take]
        omega
      refine Or.inr ⟨l.take offset, (l.drop offset).take size, (l.drop offset).drop size,
        ?_, ?_, ?_, fun x hx => (hpass.2 x hx).symm, ?_⟩
      · rw [List.append_assoc, List.take_append_drop, List.take_append_drop]
      · rw [List.countP_true, hfront]
      · rw [List.countP_eq_length.2 hpass.1, hfront]
      · rw [List.countP_true, List.length_take, List.drop_eq_nil_iff]
        omega

end Filtered
end Paging
