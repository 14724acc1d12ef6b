import ChunkHound.ChunkMerging
import Mathlib.Order.Bounds.Basic

/-!
# The line ranges of merged chunks

Which chunks `_merge_chunk_group` and `_greedy_merge_pass` merge into which (`mergeGroupMembers`,
`greedyPassMembers`), and what line range the merged chunk gets. It starts where the first member
starts, which no member precedes. It ends where one member ends : the last one of a group, and in
the greedy pass the last one that added content. That one need not end last
(`merged_ranges_iff`).
-/

namespace ChunkHound.Cast

/-! ## Members -/

/-- `_merge_chunk_group` makes the group one chunk. -/
def merges (cfg : CASTConfig) (group : List UniversalChunk) : Bool :=
  match sortByStart group with
  | first :: second :: rest => cfg.fits (combine first.content (second :: rest))
  | _ => false

/-- The chunks of `_merge_chunk_group`, each with those it was merged from. -/
def mergeGroupMembers (cfg : CASTConfig) (group : List UniversalChunk) :
    List (UniversalChunk × List UniversalChunk) :=
  if merges cfg group then (mergeChunkGroup cfg group).map fun c => (c, group)
  else group.map fun c => (c, [c])

/-- The loop of `_greedy_merge_pass`, with the chunks that `current` was merged from. -/
def greedyMembers (cfg : CASTConfig) (current : UniversalChunk) (members : List UniversalChunk) :
    List UniversalChunk → List (UniversalChunk × List UniversalChunk)
  | [] => [(current, members)]
  | next :: rest =>
    match mergeNext cfg current next with
    | some merged => greedyMembers cfg merged (members ++ [next]) rest
    | none => (current, members) :: greedyMembers cfg next [next] rest

/-- The chunks of `_greedy_merge_pass`, each with those it was merged from. -/
def greedyPassMembers (cfg : CASTConfig) (chunks : List UniversalChunk) :
    List (UniversalChunk × List UniversalChunk) :=
  match sortByStart chunks with
  | [] => []
  | c :: cs => greedyMembers cfg c [c] cs

/-- The last chunk that adds content, of those after `last` and of `last`, which have the
`content` together. -/
def lastToAdd (last : UniversalChunk) (content : Text) : List UniversalChunk → UniversalChunk
  | [] => last
  | c :: cs =>
    if strip c.content <:+: content then lastToAdd last content cs
    else lastToAdd c (content ++ '\n' :: c.content) cs

/-- No member ends after the last one that adds content. -/
def EndsLast : List UniversalChunk → Prop
  | [] => True
  | first :: rest =>
    ∀ m ∈ first :: rest, m.endLine ≤ (lastToAdd first first.content rest).endLine

/-- The chunks with their members are the result of a pass, and the members are its chunks. -/
structure Traces (traced : List (UniversalChunk × List UniversalChunk))
    (chunks result : List UniversalChunk) : Prop where
  fst_eq : traced.map Prod.fst = result
  snd_eq : traced.flatMap Prod.snd = chunks

/-- The line range from the first line of the members to the last. -/
structure Spans (c : UniversalChunk) (members : List UniversalChunk) : Prop where
  start : IsLeast {n | ∃ m ∈ members, m.startLine = n} c.startLine
  stop : IsGreatest {n | ∃ m ∈ members, m.endLine = n} c.endLine

theorem spans_self (c : UniversalChunk) : Spans c [c] := by
  constructor
  · exact ⟨⟨c, List.mem_singleton_self c, rfl⟩, by simp⟩
  · exact ⟨⟨c, List.mem_singleton_self c, rfl⟩, by simp⟩

theorem sortByStart_sorted (chunks : List UniversalChunk) :
    (sortByStart chunks).Pairwise fun a b => a.startLine ≤ b.startLine :=
  Accessors.universal.sortByStart_pairwise chunks

/-- A chunk that starts where the first of the sorted members does and ends where one of them does
spans them when none ends later. -/
theorem spans_iff {c first last : UniversalChunk} {rest members : List UniversalChunk}
    (hmem : ∀ m, m ∈ members ↔ m ∈ first :: rest)
    (hsorted : (first :: rest).Pairwise fun a b => a.startLine ≤ b.startLine)
    (hstart : c.startLine = first.startLine) (hlast : last ∈ members)
    (hend : c.endLine = last.endLine) :
    Spans c members ↔ ∀ m ∈ members, m.endLine ≤ last.endLine := by
  constructor
  · intro h m hm
    rw [← hend]
    exact h.stop.2 ⟨m, hm, rfl⟩
  · intro h
    refine ⟨⟨⟨first, (hmem first).2 List.mem_cons_self, hstart.symm⟩, ?_⟩,
      ⟨⟨last, hlast, hend.symm⟩, ?_⟩⟩
    · rintro n ⟨m, hm, rfl⟩
      rw [hstart]
      rcases List.mem_cons.1 ((hmem m).1 hm) with rfl | hm
      · exact le_refl _
      · exact (List.pairwise_cons.1 hsorted).1 m hm
    · rintro n ⟨m, hm, rfl⟩
      rw [hend]
      exact h m hm

/-! ## A group -/

variable {cfg : CASTConfig}

variable {group : List UniversalChunk}

theorem mergeChunkGroup_of_not_merges
    (h : merges cfg group = false) : mergeChunkGroup cfg group = group := by
  unfold merges at h
  unfold mergeChunkGroup
  split
  · rename_i hsorted
    simp only [hsorted] at h
    simp [h]
  · rfl

/-- The chunk of a group that merges, from its first member to the end of its last. -/
theorem mergeChunkGroup_of_merges
    (h : merges cfg group = true) : ∃ first rest last c, sortByStart group = first :: rest ∧
      (sortByStart group).getLast? = some last ∧ mergeChunkGroup cfg group = [c] ∧
      c.startLine = first.startLine ∧ c.endLine = last.endLine := by
  unfold merges at h
  unfold mergeChunkGroup
  split at h
  · rename_i first second rest hsorted
    simp only [hsorted, h, Bool.not_true, Bool.false_eq_true, if_false]
    have hlast := List.getLast?_eq_some_getLast (List.cons_ne_nil second rest)
    refine ⟨first, second :: rest, (second :: rest).getLast (List.cons_ne_nil _ _), _, rfl,
      ?_, rfl, ?_, ?_⟩
    · rwa [List.getLast?_cons_cons]
    · rfl
    · rw [List.getLast?_cons_cons, hlast]
      rfl
  · exact absurd h Bool.false_ne_true

/-- Every chunk of a group is a member of one. -/
theorem mergeGroupMembers_traces (cfg : CASTConfig) (group : List UniversalChunk) :
    Traces (mergeGroupMembers cfg group) group (mergeChunkGroup cfg group) := by
  unfold mergeGroupMembers
  split
  · rename_i h
    obtain ⟨first, rest, last, c, -, -, hc, -⟩ := mergeChunkGroup_of_merges h
    exact ⟨by simp [hc], by simp [hc]⟩
  · rename_i h
    rw [mergeChunkGroup_of_not_merges (by simpa using h)]
    refine ⟨?_, ?_⟩
    · rw [List.map_map]
      exact List.map_id _
    · rw [List.flatMap_map]
      exact List.flatMap_singleton' group

/-- A merged group ends where the last of its sorted members does. -/
theorem mergeGroup_spans_iff (cfg : CASTConfig) (group : List UniversalChunk) :
    (∀ p ∈ mergeGroupMembers cfg group, Spans p.1 p.2) ↔
      (merges cfg group = true → ∀ last ∈ (sortByStart group).getLast?, ∀ m ∈ group,
        m.endLine ≤ last.endLine) := by
  unfold mergeGroupMembers
  split
  · rename_i h
    obtain ⟨first, rest, last, c, hsorted, hlast, hc, hstart, hend⟩ := mergeChunkGroup_of_merges h
    have hmem : ∀ m, m ∈ group ↔ m ∈ first :: rest := fun m => by
      rw [← hsorted, mem_sortByStart]
    have hspans := spans_iff hmem (hsorted ▸ sortByStart_sorted group) hstart
      (mem_sortByStart.1 (List.mem_of_getLast? hlast)) hend
    simp [hc, h, hlast, hspans]
  · rename_i h
    refine ⟨fun _ hmerges => absurd hmerges h, fun _ p hp => ?_⟩
    obtain ⟨c, -, rfl⟩ := List.mem_map.1 hp
    exact spans_self c

/-! ## The greedy pass -/

theorem combine_concat (content : Text) (cs : List UniversalChunk) (c : UniversalChunk) :
    combine content (cs ++ [c]) =
      if strip c.content <:+: combine content cs then combine content cs
      else combine content cs ++ '\n' :: c.content := by
  unfold combine
  rw [List.foldl_append]
  rfl

theorem lastToAdd_concat (c : UniversalChunk) : ∀ (last : UniversalChunk) (content : Text)
    (cs : List UniversalChunk), lastToAdd last content (cs ++ [c]) =
      if strip c.content <:+: combine content cs then lastToAdd last content cs else c
  | last, content, [] => rfl
  | last, content, d :: cs => by
    have hcombine : combine content (d :: cs) =
        combine (if strip d.content <:+: content then content else content ++ '\n' :: d.content)
          cs := rfl
    rw [hcombine]
    simp only [List.cons_append, lastToAdd]
    split
    · exact lastToAdd_concat c last content cs
    · exact lastToAdd_concat c d _ cs

theorem lastToAdd_mem : ∀ (last : UniversalChunk) (content : Text) (cs : List UniversalChunk),
    lastToAdd last content cs ∈ last :: cs
  | last, content, [] => List.mem_singleton_self last
  | last, content, c :: cs => by
    unfold lastToAdd
    split
    · have hmem := lastToAdd_mem last content cs
      rw [List.mem_cons] at hmem ⊢
      exact hmem.imp_right (List.mem_cons_of_mem c)
    · exact List.mem_cons_of_mem last (lastToAdd_mem c _ cs)

/-- A chunk that was merged from the members, in this order. -/
structure MergedFrom (c : UniversalChunk) (first : UniversalChunk) (rest : List UniversalChunk) :
    Prop where
  content : c.content = combine first.content rest
  start : c.startLine = first.startLine
  stop : c.endLine = (lastToAdd first first.content rest).endLine

theorem mergedFrom_self (c : UniversalChunk) : MergedFrom c c [] := ⟨rfl, rfl, rfl⟩

/-- What one merge makes of the chunk. -/
theorem MergedFrom.next {current first next merged : UniversalChunk}
    {rest : List UniversalChunk} (h : MergedFrom current first rest)
    (hnext : mergeNext cfg current next = some merged) :
    MergedFrom merged first (rest ++ [next]) := by
  obtain ⟨-, hstart, hcontent, hend⟩ := mergeNext_fields hnext
  refine ⟨?_, hstart.trans h.start, ?_⟩
  · rw [hcontent, combine_concat, h.content]
  · rw [hend, lastToAdd_concat, ← h.content]
    split
    · exact h.stop
    · rfl

variable {p : UniversalChunk × List UniversalChunk}

/-- Every chunk of the pass was merged from its members, which are a run of the sorted ones. -/
theorem greedyMembers_mergedFrom :
    ∀ {rest : List UniversalChunk} {current first : UniversalChunk} {members : List UniversalChunk},
      MergedFrom current first members → p ∈ greedyMembers cfg current (first :: members) rest →
      ∃ first' members', p.2 = first' :: members' ∧ MergedFrom p.1 first' members' ∧
        p.2 <:+: first :: members ++ rest
  | [], current, first, members, h, hp => by
    obtain rfl := List.mem_singleton.1 hp
    exact ⟨first, members, rfl, h, by simp⟩
  | next :: rest, current, first, members, h, hp => by
    unfold greedyMembers at hp
    split at hp
    · rename_i merged hmerged
      have ih := greedyMembers_mergedFrom (h.next hmerged) hp
      simpa using ih
    · rcases List.mem_cons.1 hp with rfl | hp
      · exact ⟨first, members, rfl, h, (List.prefix_append _ _).isInfix⟩
      · obtain ⟨first', members', hmembers, hfrom, hinfix⟩ :=
          greedyMembers_mergedFrom (mergedFrom_self next) hp
        refine ⟨first', members', hmembers, hfrom, hinfix.trans ?_⟩
        exact (List.suffix_append (first :: members) (next :: rest)).isInfix

theorem greedyMembers_chunks (cfg : CASTConfig) : ∀ (rest : List UniversalChunk)
    (current : UniversalChunk) (members : List UniversalChunk),
    (greedyMembers cfg current members rest).map Prod.fst = greedyLoop cfg current rest
  | [], _, _ => rfl
  | next :: rest, current, members => by
    cases h : mergeNext cfg current next with
    | some merged =>
      simp only [greedyMembers, greedyLoop, h]
      exact greedyMembers_chunks cfg rest merged (members ++ [next])
    | none =>
      simp only [greedyMembers, greedyLoop, h]
      rw [List.map_cons, greedyMembers_chunks cfg rest next [next]]

theorem greedyMembers_members (cfg : CASTConfig) : ∀ (rest : List UniversalChunk)
    (current : UniversalChunk) (members : List UniversalChunk),
    (greedyMembers cfg current members rest).flatMap Prod.snd = members ++ rest
  | [], _, members => by simp [greedyMembers]
  | next :: rest, current, members => by
    unfold greedyMembers
    split
    · rw [greedyMembers_members cfg rest, List.append_assoc, List.singleton_append]
    · rw [List.flatMap_cons, greedyMembers_members cfg rest, List.singleton_append]

/-- Every one of the sorted chunks is a member of one. -/
theorem greedyPassMembers_traces (cfg : CASTConfig) (chunks : List UniversalChunk) :
    Traces (greedyPassMembers cfg chunks) (sortByStart chunks) (greedyMergePass cfg chunks) := by
  constructor
  · match chunks with
    | [] => rfl
    | [c] => rfl
    | c :: d :: ds =>
      unfold greedyPassMembers
      rw [greedyMergePass, if_neg (by simp)]
      cases sortByStart (c :: d :: ds) with
      | nil => rfl
      | cons first rest => exact greedyMembers_chunks cfg rest first [first]
  · unfold greedyPassMembers
    split
    · rename_i hsorted
      rw [hsorted, List.flatMap_nil]
    · rename_i c cs hsorted
      rw [hsorted, greedyMembers_members, List.singleton_append]

/-- A merged chunk spans its members when none of them ends after the last that added content. -/
theorem greedyPass_spans_iff (cfg : CASTConfig) (chunks : List UniversalChunk)
    (hp : p ∈ greedyPassMembers cfg chunks) :
    Spans p.1 p.2 ↔ EndsLast p.2 := by
  unfold greedyPassMembers at hp
  split at hp
  · cases hp
  · rename_i c cs hsorted
    obtain ⟨first, rest, hmembers, hfrom, hinfix⟩ :=
      greedyMembers_mergedFrom (mergedFrom_self c) hp
    have hpairwise : (first :: rest).Pairwise fun a b => a.startLine ≤ b.startLine := by
      have hall := sortByStart_sorted chunks
      rw [hsorted] at hall
      rw [hmembers] at hinfix
      exact hall.sublist hinfix.sublist
    rw [hmembers]
    exact spans_iff (fun _ => Iff.rfl) hpairwise hfrom.start
      (lastToAdd_mem first first.content rest) hfrom.stop

/-! ## Both -/

/-- Both passes give the chunks with their members, and each chunk spans them exactly so : a chunk
of a group when the last of the sorted members ends last, and a chunk of the greedy pass when the
last that added content does. -/
theorem merged_ranges_iff (cfg : CASTConfig) (chunks : List UniversalChunk) :
    (Traces (mergeGroupMembers cfg chunks) chunks (mergeChunkGroup cfg chunks) ∧
        Traces (greedyPassMembers cfg chunks) (sortByStart chunks) (greedyMergePass cfg chunks)) ∧
      ((∀ p ∈ mergeGroupMembers cfg chunks, Spans p.1 p.2) ↔
        (merges cfg chunks = true → ∀ last ∈ (sortByStart chunks).getLast?, ∀ m ∈ chunks,
          m.endLine ≤ last.endLine)) ∧
      ((∀ p ∈ greedyPassMembers cfg chunks, Spans p.1 p.2) ↔
        ∀ p ∈ greedyPassMembers cfg chunks, EndsLast p.2) :=
  ⟨⟨mergeGroupMembers_traces cfg chunks, greedyPassMembers_traces cfg chunks⟩,
    mergeGroup_spans_iff cfg chunks,
    forall₂_congr fun _ hp => greedyPass_spans_iff cfg chunks hp⟩

/-- A block of ten lines, and one inside it. -/
def nestedBlocks : List UniversalChunk :=
  [⟨.block, "f", "ab".toList, 1, 10, ⟨false, none, none, none⟩, "block"⟩,
    ⟨.block, "g", "cd".toList, 3, 5, ⟨false, none, none, none⟩, "block"⟩]

/-- The block inside comes last and ends first. -/
theorem nested_ranges_short :
    ¬ ∀ cfg chunks, (∀ p ∈ mergeGroupMembers cfg chunks, Spans p.1 p.2) ∧
      ∀ p ∈ greedyPassMembers cfg chunks, Spans p.1 p.2 := by
  intro h
  have hcond := (mergeGroup_spans_iff {} nestedBlocks).1 (h {} nestedBlocks).1 (by decide +kernel)
  exact absurd hcond (by decide +kernel)

end ChunkHound.Cast
