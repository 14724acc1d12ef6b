import ChunkHound.MutationQueues
import ChunkHound.OrderedDict
import Mathlib.Data.Finset.Erase
import Mathlib.Data.Finset.Insert

/-!
# The counts of pending mutations

`_register_pending_mutation`, `_release_pending_mutation` and
`_refresh_pending_change_generation` of `pipeline.py` with the three collections they keep : the
registered mutations, how many there are of each path, and the set of the paths. `stop` of
`startup.py` empties them, but it empties the set before it waits for its tasks and the other two
after, and a task that is cancelled still releases its mutation.

`PendingState.Counted` holds in every state, and says that the counts are right and that every path
of the set has one. `PendingState.Listed`, that every path with a count is in the set, is what
`stop` gives up while it waits. Which mutation is taken, which is the registered one and what
refreshes it is as in `Queues`, the model of the pipeline. A path is its text, as on a platform that
compares paths so.
-/

namespace ChunkHound

/-- The registered mutations, how many there are of each path, and the set of the paths. -/
structure PendingState where
  pendingMutations : List ((Operation × String) × Mutation)
  pendingPathCounts : List (String × ℤ)
  pendingFiles : Finset String

namespace PendingState

def empty : PendingState := ⟨[], [], ∅⟩

/-- `_pending_mutations.get(key)`. -/
def pending (s : PendingState) (key : Operation × String) : Option Mutation :=
  @List.lookup _ _ instBEqOfDecidableEq key s.pendingMutations

/-- `_pending_path_counts.get(path, 0)`. -/
def count (s : PendingState) (path : String) : ℤ := (s.pendingPathCounts.lookup path).getD 0

/-- `_register_pending_mutation`. -/
def register (s : PendingState) (m : Mutation) : Bool × PendingState :=
  if m.registers (s.pending m.key) then
    let mutations := OrderedDict.insert m.key m s.pendingMutations
    if (s.pending m.key).isSome then (true, { s with pendingMutations := mutations })
    else
      (true,
        { pendingMutations := mutations
          pendingPathCounts := OrderedDict.insert m.path (s.count m.path + 1) s.pendingPathCounts
          pendingFiles := insert m.path s.pendingFiles })
  else (false, s)

/-- `_release_pending_mutation`. -/
def release (s : PendingState) (m : Mutation) : PendingState :=
  if m.isCurrent (s.pending m.key) then
    let mutations := OrderedDict.erase m.key s.pendingMutations
    let remaining := s.count m.path - 1
    if remaining ≤ 0 then
      ⟨mutations, OrderedDict.erase m.path s.pendingPathCounts, s.pendingFiles.erase m.path⟩
    else
      ⟨mutations, OrderedDict.insert m.path remaining s.pendingPathCounts, s.pendingFiles⟩
  else s

/-- `_refresh_pending_change_generation`, for the generation it finds. -/
def refreshPendingChange (s : PendingState) (path : String) (generation : Option ℕ) :
    PendingState :=
  match Mutation.refreshed generation (s.pending (.change, path)) with
  | some m =>
    { s with pendingMutations := OrderedDict.insert (.change, path) m s.pendingMutations }
  | none => s

/-- `pending_files.clear()`. -/
def clearFiles (s : PendingState) : PendingState := { s with pendingFiles := ∅ }

/-- How many registered mutations have the path. -/
def entries (s : PendingState) (path : String) : ℕ :=
  ((OrderedDict.values s.pendingMutations).map (·.path)).count path

/-- What happens to the collections. `stop` empties the files first, and later the rest. -/
inductive Action
  | register (m : Mutation)
  | release (m : Mutation)
  | refresh (path : String) (generation : Option ℕ)
  | clearFiles
  | clear

/-- The collections after an action, and whether `stop` has emptied the files only. -/
def step (s : PendingState × Bool) : Action → PendingState × Bool
  | .register m => ((s.1.register m).2, s.2)
  | .release m => (s.1.release m, s.2)
  | .refresh path generation => (s.1.refreshPendingChange path generation, s.2)
  | .clearFiles => (s.1.clearFiles, true)
  | .clear => (empty, false)

def run (actions : List Action) : PendingState × Bool := actions.foldl step (empty, false)

/-! ## Counts and entries -/

/-- The counts are those of the entries, and a path of the set has one. -/
structure Counted (s : PendingState) : Prop where
  nodup : (OrderedDict.keys s.pendingMutations).Nodup
  keyed : ∀ key m, s.pending key = some m → m.key = key
  counts : ∀ path, s.count path = s.entries path
  files : ∀ path ∈ s.pendingFiles, 0 < s.count path

/-- Every path that has a count is in the set. -/
def Listed (s : PendingState) : Prop := ∀ path, 0 < s.count path → path ∈ s.pendingFiles

theorem counted_empty : empty.Counted where
  nodup := List.nodup_nil
  keyed _ _ h := nomatch h
  counts _ := rfl
  files _ h := absurd h (Finset.notMem_empty _)

theorem listed_empty : empty.Listed := fun _ h => absurd h (lt_irrefl 0)

section Entries

variable {s : PendingState} {key : Operation × String} {m current : Mutation}
  (counts : List (String × ℤ)) (files : Finset String) (path : String)

theorem pending_insert (key' : Operation × String) :
    pending ⟨OrderedDict.insert key m s.pendingMutations, counts, files⟩ key' =
      if key' = key then some m else s.pending key' :=
  OrderedDict.lookup_insert _ _ _ _

theorem pending_erase (key' : Operation × String) :
    pending ⟨OrderedDict.erase key s.pendingMutations, counts, files⟩ key' =
      if key' = key then none else s.pending key' :=
  OrderedDict.lookup_erase _ _ _

theorem count_insert (k : String) (n : ℤ) (mutations : List ((Operation × String) × Mutation)) :
    count ⟨mutations, OrderedDict.insert k n s.pendingPathCounts, files⟩ path =
      if path = k then n else s.count path := by
  unfold count
  rw [OrderedDict.lookup_insert]
  split
  · rfl
  · rfl

theorem count_erase (k : String) (mutations : List ((Operation × String) × Mutation)) :
    count ⟨mutations, OrderedDict.erase k s.pendingPathCounts, files⟩ path =
      if path = k then 0 else s.count path := by
  unfold count
  rw [OrderedDict.lookup_erase]
  split
  · rfl
  · rfl

/-- A new registration is one entry more of its path. -/
theorem entries_insert (h : s.pending key = none) :
    entries ⟨OrderedDict.insert key m s.pendingMutations, counts, files⟩ path =
      s.entries path + if m.path = path then 1 else 0 := by
  unfold entries
  rw [OrderedDict.values_insert_of_not_mem (OrderedDict.lookup_eq_none_iff.1 h), List.map_append,
    List.count_append, List.map_singleton, List.count_singleton]
  simp

/-- A registration that is replaced by one of its path leaves the entries as they are. -/
theorem entries_replace (h : s.pending key = some current) (hpath : m.path = current.path) :
    entries ⟨OrderedDict.insert key m s.pendingMutations, counts, files⟩ path =
      s.entries path := by
  unfold entries
  rw [OrderedDict.map_values_insert h hpath]

/-- A registration that is taken out was one entry of its path. -/
theorem entries_erase (hnodup : (OrderedDict.keys s.pendingMutations).Nodup)
    (h : s.pending key = some current) :
    s.entries path = entries ⟨OrderedDict.erase key s.pendingMutations, counts, files⟩ path +
      if current.path = path then 1 else 0 := by
  have hperm := (OrderedDict.perm_erase hnodup h).map fun e => e.2.path
  unfold entries OrderedDict.values
  rw [List.map_map, List.map_map]
  refine (hperm.count_eq path).trans ?_
  rw [List.map_cons, List.count_cons]
  simp [Function.comp_def]

end Entries

section Counted

variable {s : PendingState} {key : Operation × String} {m current : Mutation}

/-- A registration is replaced by another of the same operation and path. -/
theorem Counted.replace (h : s.Counted) (hcurrent : s.pending key = some current)
    (hkey : m.key = key) :
    Counted { s with pendingMutations := OrderedDict.insert key m s.pendingMutations } where
  nodup := OrderedDict.nodup_keys_alter h.nodup
  keyed key' m' hm' := by
    rw [pending_insert] at hm'
    split at hm'
    · rename_i heq
      rw [← Option.some.inj hm', hkey, heq]
    · exact h.keyed key' m' hm'
  counts path := by
    have hpath : m.path = current.path :=
      congrArg Prod.snd (hkey.trans (h.keyed key current hcurrent).symm)
    rw [entries_replace _ _ path hcurrent hpath]
    exact h.counts path
  files := h.files

/-- A path has one registration more, and is in the set. -/
theorem Counted.add (h : s.Counted) (hnone : s.pending m.key = none) :
    Counted ⟨OrderedDict.insert m.key m s.pendingMutations,
      OrderedDict.insert m.path (s.count m.path + 1) s.pendingPathCounts,
      insert m.path s.pendingFiles⟩ := by
  refine ⟨OrderedDict.nodup_keys_alter h.nodup, fun key' m' hm' => ?_, fun path => ?_,
    fun path hpath => ?_⟩
  · rw [pending_insert] at hm'
    split at hm'
    · rename_i heq
      rw [← Option.some.inj hm', heq]
    · exact h.keyed key' m' hm'
  · rw [entries_insert _ _ path hnone, count_insert]
    by_cases heq : path = m.path
    · simp [heq, h.counts]
    · simpa [heq, Ne.symm heq] using h.counts path
  · rw [count_insert]
    split
    · rw [h.counts]
      omega
    · rename_i hne
      exact h.files path (Finset.mem_of_mem_insert_of_ne hpath hne)

theorem Counted.register (h : s.Counted) (m : Mutation) : (s.register m).2.Counted := by
  unfold PendingState.register
  dsimp only
  split
  · split
    · rename_i hsome
      obtain ⟨existing, hexisting⟩ := Option.isSome_iff_exists.1 hsome
      exact h.replace hexisting rfl
    · rename_i hnot
      exact h.add (Option.not_isSome_iff_eq_none.1 hnot)
  · exact h

/-- A registration is taken out, and the count of its path goes down by one. -/
theorem Counted.remove (h : s.Counted) (hcurrent : s.pending m.key = some current)
    {counts : List (String × ℤ)} {files : Finset String}
    (hcounts : ∀ path, (counts.lookup path).getD 0 =
      if path = m.path then s.count m.path - 1 else s.count path)
    (hfiles : ∀ path ∈ files, path ∈ s.pendingFiles ∧ (path = m.path → 1 < s.count m.path)) :
    Counted ⟨OrderedDict.erase m.key s.pendingMutations, counts, files⟩ where
  nodup := OrderedDict.nodup_keys_erase h.nodup
  keyed key' m' hm' := by
    rw [pending_erase] at hm'
    split at hm'
    · exact nomatch hm'
    · exact h.keyed key' m' hm'
  counts path := by
    have hpath : current.path = m.path := congrArg Prod.snd (h.keyed _ _ hcurrent)
    have hentries := entries_erase counts files path h.nodup hcurrent
    have hcount := h.counts path
    rw [hpath] at hentries
    refine (hcounts path).trans ?_
    by_cases heq : path = m.path
    · subst heq
      rw [if_pos rfl] at hentries ⊢
      omega
    · rw [if_neg (Ne.symm heq)] at hentries
      rw [if_neg heq]
      omega
  files path hpath := by
    obtain ⟨hmem, hlast⟩ := hfiles path hpath
    refine lt_of_lt_of_eq ?_ (hcounts path).symm
    split
    · rename_i heq
      have := hlast heq
      omega
    · exact h.files path hmem

theorem Counted.release (h : s.Counted) (m : Mutation) : (s.release m).Counted := by
  unfold PendingState.release
  dsimp only
  split
  · rename_i howned
    obtain ⟨current, hcurrent, -⟩ := Mutation.isCurrent_iff.1 howned
    -- the mutation that goes is counted
    have hpath : current.path = m.path := congrArg Prod.snd (h.keyed _ _ hcurrent)
    have hentries := entries_erase [] ∅ m.path h.nodup hcurrent
    have hcount := h.counts m.path
    rw [if_pos hpath] at hentries
    split
    · refine h.remove hcurrent (fun path => ?_) fun path hfile =>
        ⟨Finset.mem_of_mem_erase hfile, fun heq => absurd heq (Finset.ne_of_mem_erase hfile)⟩
      refine (count_erase ∅ path m.path []).trans ?_
      split
      · omega
      · rfl
    · exact h.remove hcurrent (fun path => count_insert ∅ path m.path _ [])
        fun path hfile => ⟨hfile, fun _ => by omega⟩
  · exact h

theorem Counted.refreshPendingChange (h : s.Counted) (path : String) (generation : Option ℕ) :
    (s.refreshPendingChange path generation).Counted := by
  unfold PendingState.refreshPendingChange
  split
  · rename_i m hm
    obtain ⟨g, existing, hexisting, rfl⟩ := Mutation.exists_of_refreshed hm
    exact h.replace hexisting (h.keyed _ existing hexisting)
  · exact h

theorem Counted.clearFiles (h : s.Counted) : s.clearFiles.Counted where
  nodup := h.nodup
  keyed := h.keyed
  counts := h.counts
  files _ hp := absurd hp (Finset.notMem_empty _)

theorem Listed.register (h : s.Listed) (m : Mutation) : (s.register m).2.Listed := by
  unfold PendingState.register
  dsimp only
  split
  · split
    · exact h
    · intro path hpath
      rw [count_insert] at hpath
      split at hpath
      · rename_i heq
        exact heq ▸ Finset.mem_insert_self _ _
      · exact Finset.mem_insert_of_mem (h path hpath)
  · exact h

theorem Listed.release (h : s.Listed) (m : Mutation) : (s.release m).Listed := by
  unfold PendingState.release
  dsimp only
  split
  · split
    · intro path hpath
      rw [count_erase] at hpath
      split at hpath
      · exact absurd hpath (lt_irrefl 0)
      · rename_i hne
        exact Finset.mem_erase.2 ⟨hne, h path hpath⟩
    · intro path hpath
      rw [count_insert] at hpath
      split at hpath
      · rename_i heq
        exact h path (by rw [heq]; omega)
      · exact h path hpath
  · exact h

theorem Listed.refreshPendingChange (h : s.Listed) (path : String) (generation : Option ℕ) :
    (s.refreshPendingChange path generation).Listed := by
  unfold PendingState.refreshPendingChange
  split
  · exact h
  · exact h

end Counted

/-! ## Runs -/

/-- What every action keeps : the counts are right, and unless `stop` has emptied the files only,
every path with a count is in the set. -/
theorem step_counted {s : PendingState × Bool} (h : s.1.Counted ∧ (s.2 = false → s.1.Listed)) :
    ∀ action, (step s action).1.Counted ∧ ((step s action).2 = false → (step s action).1.Listed)
  | .register m => ⟨h.1.register m, fun hs => (h.2 hs).register m⟩
  | .release m => ⟨h.1.release m, fun hs => (h.2 hs).release m⟩
  | .refresh path generation =>
    ⟨h.1.refreshPendingChange path generation,
      fun hs => (h.2 hs).refreshPendingChange path generation⟩
  | .clearFiles => ⟨h.1.clearFiles, nofun⟩
  | .clear => ⟨counted_empty, fun _ => listed_empty⟩

theorem run_counted (actions : List Action) :
    (run actions).1.Counted ∧ ((run actions).2 = false → (run actions).1.Listed) := by
  induction actions using List.reverseRecOn with
  | nil => exact ⟨counted_empty, fun _ => listed_empty⟩
  | append_singleton actions action ih =>
    unfold run at ih ⊢
    rw [List.foldl_append]
    exact step_counted ih action

/-- In every state each path has as many entries as it is counted, a path of the set has one, and
unless `stop` has emptied the files only, so is every path that has one in the set. -/
theorem run_pending (actions : List Action) (path : String) :
    (run actions).1.count path = (run actions).1.entries path ∧
      (path ∈ (run actions).1.pendingFiles → 0 < (run actions).1.count path) ∧
        ((run actions).2 = false →
          (path ∈ (run actions).1.pendingFiles ↔ 0 < (run actions).1.count path)) := by
  obtain ⟨hcounted, hlisted⟩ := run_counted actions
  exact ⟨hcounted.counts path, hcounted.files path,
    fun hs => ⟨hcounted.files path, hlisted hs path⟩⟩

theorem run_pending_registered :
    "a.py" ∈ (run [.register ⟨1, .change, "a.py", 0, some 1⟩]).1.pendingFiles :=
  ((run_pending [.register ⟨1, .change, "a.py", 0, some 1⟩] "a.py").2.2 (by decide)).2 (by decide)

/-- While `stop` waits for its tasks, a mutation is registered and its path is not in the set. -/
theorem stop_files_unlisted :
    ¬ ∀ actions path, (run actions).1.count path = (run actions).1.entries path ∧
      (path ∈ (run actions).1.pendingFiles ↔ 0 < (run actions).1.count path) := fun h =>
  absurd (h [.register ⟨1, .change, "a.py", 0, some 1⟩, .clearFiles] "a.py").2 (by decide)

end PendingState

end ChunkHound
