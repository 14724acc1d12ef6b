import ChunkHound.Eviction
import ChunkHound.StepSystem

/-!
# The tree cache

`CodeParser.parse_incremental` asks a cache for the syntax tree of a file before it parses. An entry
holds a tree with the modification time and the size of the file when it was stored, and is served
as long as the file still has both. The cache is an `OrderedDict` in the order of use : what is
stored or served goes to its end, and the first entries are evicted as long as there are too many,
or the sizes of the files add up to too much.

`runs_within` : at every point of any run the cache is within both limits, and its entries stand in
the order in which they were last used, if the clock does not go back. `put_evicts` : `put` evicts
the entries that were used longest ago, and no more of them than it has to. `parseIncremental_eq` :
where a modification time and a size tell the contents of a file apart, and links are not
retargeted, a parser with a cache returns what one without a cache returns.

The limits are natural numbers : with a negative number of entries the loop of `_enforce_limits`
never ends. Nothing depends on what a tree, a path or a file's content is.
-/

namespace ChunkHound.SyntaxTrees

open StepSystem OrderedDict Eviction

variable {P K T C : Type*}

/-! ## The world -/

/-- What `stat` reads of a file. -/
structure Stat where
  st_mtime : ℚ
  st_size : ℕ
  deriving DecidableEq

/-- What the cache finds outside : the clock, where paths lead, and the files. `stat` and `read`
give nothing where they raise. -/
structure World (P K C : Type*) where
  time : ℚ
  resolve : P → K
  stat : P → Option Stat
  read : P → Option C

/-! ## Entries -/

/-- A tree with the file's state when it was parsed. -/
structure TreeCacheEntry (P T : Type*) where
  tree : T
  filePath : P
  mtime : ℚ
  size : ℕ
  accessTime : ℚ
  hitCount : ℕ

/-- The file has not changed. -/
def TreeCacheEntry.isValid (entry : TreeCacheEntry P T) (w : World P K C) : Bool :=
  match w.stat entry.filePath with
  | some stat => stat.st_mtime == entry.mtime && stat.st_size == entry.size
  | none => false

/-- A use of an entry. -/
def TreeCacheEntry.touch (entry : TreeCacheEntry P T) (time : ℚ) : TreeCacheEntry P T :=
  { entry with accessTime := time, hitCount := entry.hitCount + 1 }

theorem TreeCacheEntry.stat_of_isValid {entry : TreeCacheEntry P T} {w : World P K C}
    (h : entry.isValid w = true) : w.stat entry.filePath = some ⟨entry.mtime, entry.size⟩ := by
  unfold isValid at h
  split at h
  · rename_i stat hstat
    rw [Bool.and_eq_true, beq_iff_eq, beq_iff_eq] at h
    rw [hstat, ← h.1, ← h.2]
  · cases h

/-- The sizes of the files of the entries. -/
def estimatedMemory (d : List (K × TreeCacheEntry P T)) : ℕ := (d.map fun e => e.2.size).sum

theorem estimatedMemory_cons (e : K × TreeCacheEntry P T) (d : List (K × TreeCacheEntry P T)) :
    estimatedMemory (e :: d) = e.2.size + estimatedMemory d := by
  unfold estimatedMemory
  rw [List.map_cons, List.sum_cons]

theorem estimatedMemory_le {d d' : List (K × TreeCacheEntry P T)} (h : d.Sublist d') :
    estimatedMemory d ≤ estimatedMemory d' := by
  have hmap : (d.map fun e => e.2.size).Sublist (d'.map fun e => e.2.size) := h.map _
  exact hmap.sum_le_sum fun _ _ => Nat.zero_le _

/-- The second loop of `_enforce_limits`, which subtracts what it evicts from its estimate. -/
def enforceMemory (maxMemoryBytes : ℕ) :
    ℕ → List (K × TreeCacheEntry P T) → List (K × TreeCacheEntry P T)
  | _, [] => []
  | estimate, e :: rest =>
    if maxMemoryBytes < estimate then enforceMemory maxMemoryBytes (estimate - e.2.size) rest
    else e :: rest

theorem enforceMemory_eq (maxMemoryBytes : ℕ) : ∀ d : List (K × TreeCacheEntry P T),
    enforceMemory maxMemoryBytes (estimatedMemory d) d =
      evict (fun d => decide (maxMemoryBytes < estimatedMemory d)) d
  | [] => rfl
  | e :: rest => by
    have hestimate : estimatedMemory (e :: rest) - e.2.size = estimatedMemory rest := by
      rw [estimatedMemory_cons, Nat.add_sub_cancel_left]
    by_cases hover : maxMemoryBytes < estimatedMemory (e :: rest)
    · rw [enforceMemory, if_pos hover, hestimate, enforceMemory_eq, evict,
        if_pos (decide_eq_true hover)]
    · rw [enforceMemory, if_neg hover, evict, if_neg (by simpa using hover)]

/-! ## The cache -/

/-- The cache, least recently used first. -/
structure TreeCache (P K T : Type*) where
  maxEntries : ℕ
  maxMemoryBytes : ℕ
  cache : List (K × TreeCacheEntry P T)
  hits : ℕ
  misses : ℕ
  evictions : ℕ
  invalidations : ℕ

namespace TreeCache

def init (maxEntries maxMemoryMb : ℕ) : TreeCache P K T where
  maxEntries := maxEntries
  maxMemoryBytes := maxMemoryMb * 1024 * 1024
  cache := []
  hits := 0
  misses := 0
  evictions := 0
  invalidations := 0

/-- `_enforce_limits`. -/
def enforceLimits (c : TreeCache P K T) : TreeCache P K T :=
  let counted := evict (fun d => decide (c.maxEntries < d.length)) c.cache
  let kept := enforceMemory c.maxMemoryBytes (estimatedMemory counted) counted
  { c with cache := kept, evictions := c.evictions + (c.cache.length - kept.length) }

/-- Too many entries, or too much in them. -/
def exceeds (c : TreeCache P K T) (d : List (K × TreeCacheEntry P T)) : Bool :=
  decide (c.maxEntries < d.length) || decide (c.maxMemoryBytes < estimatedMemory d)

/-- The two loops evict what one would that looks at both limits. -/
theorem cache_enforceLimits (c : TreeCache P K T) :
    c.enforceLimits.cache = evict c.exceeds c.cache := by
  have hmono : ∀ front back : List (K × TreeCacheEntry P T),
      decide (c.maxEntries < (front ++ back).length) = false →
        decide (c.maxEntries < back.length) = false := by
    intro front back h
    rw [decide_eq_false_iff_not, List.length_append] at h
    exact decide_eq_false (by omega)
  show enforceMemory _ (estimatedMemory _) _ = _
  rw [enforceMemory_eq, evict_evict hmono]
  rfl

variable [DecidableEq K]

/-- A stale entry is dropped. -/
def get (c : TreeCache P K T) (w : World P K C) (filePath : P) : Option T × TreeCache P K T :=
  let cacheKey := w.resolve filePath
  match c.cache.lookup cacheKey with
  | none => (none, { c with misses := c.misses + 1 })
  | some entry =>
    if entry.isValid w then
      (some entry.tree,
        { c with cache := store cacheKey (entry.touch w.time) c.cache, hits := c.hits + 1 })
    else
      (none, { c with
        cache := erase cacheKey c.cache
        invalidations := c.invalidations + 1
        misses := c.misses + 1 })

/-- The old tree, stale or not. -/
def getForComparison (c : TreeCache P K T) (w : World P K C) (filePath : P) :
    Option T × TreeCache P K T :=
  match c.cache.lookup (w.resolve filePath) with
  | none => (none, { c with misses := c.misses + 1 })
  | some entry => (some entry.tree, c)

/-- The cache with an entry for a file at its end, before the limits are enforced. -/
def stored (c : TreeCache P K T) (w : World P K C) (filePath : P) (tree : T) (stat : Stat) :
    TreeCache P K T :=
  let entry : TreeCacheEntry P T := ⟨tree, filePath, stat.st_mtime, stat.st_size, w.time, 0⟩
  { c with cache := store (w.resolve filePath) entry c.cache }

/-- Only a file that can be looked at is kept. -/
def put (c : TreeCache P K T) (w : World P K C) (filePath : P) (tree : Option T) :
    TreeCache P K T :=
  match tree, w.stat filePath with
  | some tree, some stat => (c.stored w filePath tree stat).enforceLimits
  | _, _ => c

def invalidate (c : TreeCache P K T) (w : World P K C) (filePath : P) : Bool × TreeCache P K T :=
  let cacheKey := w.resolve filePath
  match c.cache.lookup cacheKey with
  | none => (false, c)
  | some _ =>
    (true, { c with cache := erase cacheKey c.cache, invalidations := c.invalidations + 1 })

def clear (c : TreeCache P K T) : TreeCache P K T := { c with cache := [] }

/-- Drop what no longer matches its file. -/
def cleanupStaleEntries (c : TreeCache P K T) (w : World P K C) : ℕ × TreeCache P K T :=
  let staleKeys := (c.cache.filter fun e => !e.2.isValid w).map Prod.fst
  (staleKeys.length,
    { c with
      cache := staleKeys.foldl (fun d key => erase key d) c.cache
      invalidations := c.invalidations + staleKeys.length })

end TreeCache

/-! ## The parser -/

section Parser

variable [DecidableEq K]

/-- `CodeParser.parse_incremental` with a cache : it reads the file, asks the cache, and stores what
it parsed. `parse` is `_parse_tree_directly`. -/
def parseIncremental (parse : P → C → Option T) (c : TreeCache P K T) (w w' w'' : World P K C)
    (filePath : P) (sourceCode : Option C) : Option T × TreeCache P K T :=
  match sourceCode.or (w.read filePath) with
  | none => (none, c)
  | some source =>
    match c.get w' filePath with
    | (some cachedTree, c) => (some cachedTree, c)
    | (none, c) =>
      match parse filePath source with
      | some tree => (some tree, c.put w'' filePath (some tree))
      | none => (none, c)

/-- `CodeParser.parse_incremental` without a cache. -/
def parseDirectly (parse : P → C → Option T) (w : World P K C) (filePath : P)
    (sourceCode : Option C) : Option T :=
  (sourceCode.or (w.read filePath)).bind (parse filePath)

/-! ## Runs -/

/-- A call, with the worlds it is made in. -/
inductive Call (P K T C : Type*)
  | get (w : World P K C) (filePath : P)
  | getForComparison (w : World P K C) (filePath : P)
  | put (w : World P K C) (filePath : P) (tree : Option T)
  | invalidate (w : World P K C) (filePath : P)
  | clear
  | cleanup (w : World P K C)
  | parse (w w' w'' : World P K C) (filePath : P) (sourceCode : Option C)

/-- The worlds a call looks at. -/
def Call.worlds : Call P K T C → List (World P K C)
  | .get w _ | .getForComparison w _ | .put w _ _ | .invalidate w _ | .cleanup w => [w]
  | .clear => []
  | .parse w w' w'' _ _ => [w, w', w'']

def Call.run (parse : P → C → Option T) (c : TreeCache P K T) : Call P K T C → TreeCache P K T
  | .get w filePath => (c.get w filePath).2
  | .getForComparison w filePath => (c.getForComparison w filePath).2
  | .put w filePath tree => c.put w filePath tree
  | .invalidate w filePath => (c.invalidate w filePath).2
  | .clear => c.clear
  | .cleanup w => (c.cleanupStaleEntries w).2
  | .parse w w' w'' filePath sourceCode =>
    (parseIncremental parse c w w' w'' filePath sourceCode).2

/-- One call after another, under a clock that does not go back. The state is the cache and the time
of the last call. -/
def step (parse : P → C → Option T) (s : TreeCache P K T × ℚ) (call : Call P K T C) :
    Option (TreeCache P K T × ℚ) :=
  let times := call.worlds.map World.time
  if (s.2 :: times).Pairwise (· ≤ ·) then some (call.run parse s.1, times.getLastD s.2) else none

end Parser

/-! ## A cache for one tree -/

/-- Files of one byte each, whose content is their path. -/
def oneByteFiles (time : ℚ) : World ℕ ℕ ℕ := ⟨time, id, fun _ => some ⟨0, 1⟩, fun p => some p⟩

/-- The cache once it holds the tree of a file. -/
def usedOnce : TreeCache ℕ ℕ ℕ × ℚ := ((TreeCache.init 1 1).put (oneByteFiles 1) 5 (some 5), 1)

theorem reach_usedOnce :
    Reach (step fun (_ : ℕ) (c : ℕ) => some c) (TreeCache.init 1 1, 0) usedOnce :=
  Reach.of_execute [.put (oneByteFiles 1) 5 (some 5)] rfl

/-- The cache once it has served that tree, and evicted it for another. -/
def usedAndEvicted : TreeCache ℕ ℕ ℕ × ℚ :=
  ((usedOnce.1.get (oneByteFiles 2) 5).2.put (oneByteFiles 3) 6 (some 6), 3)

theorem reach_usedAndEvicted :
    Reach (step fun (_ : ℕ) (c : ℕ) => some c) (TreeCache.init 1 1, 0) usedAndEvicted :=
  Reach.of_execute
    [.put (oneByteFiles 1) 5 (some 5), .get (oneByteFiles 2) 5, .put (oneByteFiles 3) 6 (some 6)]
    rfl

/-! ## Within the limits -/

/-- The cache is within its limits, and in the order of the last uses, all of which are past. -/
structure Within (maxEntries maxMemoryBytes : ℕ) (now : ℚ) (c : TreeCache P K T) : Prop where
  maxEntries_eq : c.maxEntries = maxEntries
  maxMemoryBytes_eq : c.maxMemoryBytes = maxMemoryBytes
  keys : (keys c.cache).Nodup
  entries : c.cache.length ≤ maxEntries
  memory : estimatedMemory c.cache ≤ maxMemoryBytes
  order : c.cache.Pairwise fun e e' => e.2.accessTime ≤ e'.2.accessTime
  past : ∀ e ∈ c.cache, e.2.accessTime ≤ now

section Within

variable {n m : ℕ} {now : ℚ} {c c' : TreeCache P K T}

/-- Fewer entries, in the same order, later. -/
theorem Within.of_sublist {now' : ℚ} (h : Within n m now c) (hnow : now ≤ now')
    (hentries : c'.maxEntries = c.maxEntries) (hmemory : c'.maxMemoryBytes = c.maxMemoryBytes)
    (hcache : c'.cache.Sublist c.cache) : Within n m now' c' where
  maxEntries_eq := hentries.trans h.maxEntries_eq
  maxMemoryBytes_eq := hmemory.trans h.maxMemoryBytes_eq
  keys := h.keys.sublist (hcache.map _)
  entries := hcache.length_le.trans h.entries
  memory := (estimatedMemory_le hcache).trans h.memory
  order := h.order.sublist hcache
  past := fun e he => (h.past e (hcache.subset he)).trans hnow

variable [DecidableEq K]

theorem foldl_erase_sublist : ∀ (ks : List K) (d : List (K × TreeCacheEntry P T)),
    (ks.foldl (fun d key => erase key d) d).Sublist d
  | [], d => List.Sublist.refl d
  | k :: ks, d => (foldl_erase_sublist ks (erase k d)).trans List.filter_sublist

variable {w : World P K C}

/-- A served entry has the size it had. -/
theorem Within.served {k : K} {entry : TreeCacheEntry P T}
    (h : Within n m now c) (hnow : now ≤ w.time) (hk : c.cache.lookup k = some entry) :
    Within n m w.time { c with cache := store k (entry.touch w.time) c.cache, hits := c.hits + 1 }
    where
  maxEntries_eq := h.maxEntries_eq
  maxMemoryBytes_eq := h.maxMemoryBytes_eq
  keys := nodup_keys_store h.keys
  entries := by
    have hlen := (perm_erase h.keys hk).length_eq
    have hlen' : (store k (entry.touch w.time) c.cache).length = (erase k c.cache).length + 1 :=
      List.length_append
    rw [List.length_cons] at hlen
    rw [hlen', ← hlen]
    exact h.entries
  memory := by
    have hsum := ((perm_erase h.keys hk).map fun e => e.2.size).sum_eq
    have hsum' : estimatedMemory (store k (entry.touch w.time) c.cache) =
        estimatedMemory (erase k c.cache) + entry.size := by
      simp [estimatedMemory, store, TreeCacheEntry.touch]
    rw [List.map_cons, List.sum_cons, Nat.add_comm] at hsum
    rw [hsum']
    exact hsum.symm.trans_le h.memory
  order := pairwise_store h.order fun e he => (h.past e he).trans hnow
  past := fun e he => by
    rcases mem_store he with he | rfl
    · exact (h.past e he).trans hnow
    · exact le_rfl

variable {filePath : P}

theorem Within.get (h : Within n m now c) (hnow : now ≤ w.time) :
    Within n m w.time (c.get w filePath).2 := by
  unfold TreeCache.get
  dsimp only
  split
  · exact h.of_sublist hnow rfl rfl (List.Sublist.refl _)
  · rename_i entry hk
    split
    · exact h.served hnow hk
    · exact h.of_sublist hnow rfl rfl List.filter_sublist

/-- `put` keeps an end of what it would store. -/
theorem Within.stored {tree : T} {stat : Stat} (h : Within n m now c) (hnow : now ≤ w.time) :
    Within n m w.time (c.stored w filePath tree stat).enforceLimits := by
  have hcache := (c.stored w filePath tree stat).cache_enforceLimits
  obtain ⟨dropped, hparts, hwithin, -⟩ :=
    evict_spec (c.stored w filePath tree stat).exceeds (c.stored w filePath tree stat).cache
  have hsub := (evict_suffix (c.stored w filePath tree stat).exceeds
    (c.stored w filePath tree stat).cache).sublist
  rw [← hcache] at hwithin hsub
  have hlimits : (c.stored w filePath tree stat).enforceLimits.cache.length ≤ n ∧
      estimatedMemory (c.stored w filePath tree stat).enforceLimits.cache ≤ m := by
    rcases hwithin with hnil | hnot
    · rw [hnil]
      exact ⟨Nat.zero_le _, Nat.zero_le _⟩
    · rw [TreeCache.exceeds, Bool.or_eq_false_iff, decide_eq_false_iff_not,
        decide_eq_false_iff_not, not_lt, not_lt] at hnot
      rw [← h.maxEntries_eq, ← h.maxMemoryBytes_eq]
      exact hnot
  refine ⟨h.maxEntries_eq, h.maxMemoryBytes_eq, (nodup_keys_store h.keys).sublist (hsub.map _),
    hlimits.1, hlimits.2, List.Pairwise.sublist hsub (pairwise_store h.order fun e he =>
      (h.past e he).trans hnow), fun e he => ?_⟩
  rcases mem_store (hsub.subset he) with he | rfl
  · exact (h.past e he).trans hnow
  · exact le_rfl

theorem Within.put {tree : Option T} (h : Within n m now c)
    (hnow : now ≤ w.time) : Within n m w.time (c.put w filePath tree) := by
  unfold TreeCache.put
  split
  · exact h.stored hnow
  · exact h.of_sublist hnow rfl rfl (List.Sublist.refl _)

theorem Within.parseIncremental {parse : P → C → Option T} {w w' w'' : World P K C}
    {sourceCode : Option C} (h : Within n m now c) (hnow : now ≤ w'.time)
    (htime : w'.time ≤ w''.time) :
    Within n m w''.time (parseIncremental parse c w w' w'' filePath sourceCode).2 := by
  have hget : Within n m w'.time (c.get w' filePath).2 := h.get hnow
  unfold SyntaxTrees.parseIncremental
  split
  · exact h.of_sublist (hnow.trans htime) rfl rfl (List.Sublist.refl _)
  · split
    · rename_i heq
      rw [heq] at hget
      exact hget.of_sublist htime rfl rfl (List.Sublist.refl _)
    · rename_i heq
      rw [heq] at hget
      split
      · exact hget.put htime
      · exact hget.of_sublist htime rfl rfl (List.Sublist.refl _)

theorem step_within {parse : P → C → Option T} {s s' : TreeCache P K T × ℚ} {call : Call P K T C}
    (h : Within n m s.2 s.1) (hs : step parse s call = some s') : Within n m s'.2 s'.1 := by
  unfold step at hs
  dsimp only at hs
  split at hs
  · rename_i htimes
    obtain rfl := Option.some.inj hs
    cases call with
    | get w filePath =>
      simp only [Call.worlds, List.map, List.pairwise_cons, List.mem_singleton, forall_eq] at htimes
      exact h.get htimes.1
    | getForComparison w filePath =>
      simp only [Call.worlds, List.map, List.pairwise_cons, List.mem_singleton, forall_eq] at htimes
      show Within n m w.time (s.1.getForComparison w filePath).2
      unfold TreeCache.getForComparison
      split <;> exact h.of_sublist htimes.1 rfl rfl (List.Sublist.refl _)
    | put w filePath tree =>
      simp only [Call.worlds, List.map, List.pairwise_cons, List.mem_singleton, forall_eq] at htimes
      exact h.put htimes.1
    | invalidate w filePath =>
      simp only [Call.worlds, List.map, List.pairwise_cons, List.mem_singleton, forall_eq] at htimes
      show Within n m w.time (s.1.invalidate w filePath).2
      unfold TreeCache.invalidate
      dsimp only
      split
      · exact h.of_sublist htimes.1 rfl rfl (List.Sublist.refl _)
      · exact h.of_sublist htimes.1 rfl rfl List.filter_sublist
    | clear => exact h.of_sublist le_rfl rfl rfl (List.nil_sublist _)
    | cleanup w =>
      simp only [Call.worlds, List.map, List.pairwise_cons, List.mem_singleton, forall_eq] at htimes
      exact h.of_sublist htimes.1 rfl rfl (foldl_erase_sublist _ _)
    | parse w w' w'' filePath sourceCode =>
      simp only [Call.worlds, List.map, List.pairwise_cons, List.mem_cons, List.not_mem_nil,
        or_false, forall_eq_or_imp, forall_eq] at htimes
      exact h.parseIncremental htimes.1.2.1 htimes.2.2.1
  · cases hs

/-- At every point of any run the cache is within its limits, and in the order of the last uses. -/
theorem runs_within {parse : P → C → Option T} {maxEntries maxMemoryMb : ℕ} {time : ℚ}
    {s : TreeCache P K T × ℚ}
    (h : Reach (step parse) (TreeCache.init maxEntries maxMemoryMb, time) s) :
    Within maxEntries (maxMemoryMb * 1024 * 1024) s.2 s.1 := by
  refine ReachWhen.invariant (I := fun s => Within maxEntries (maxMemoryMb * 1024 * 1024) s.2 s.1)
    ?_ (fun s call s' hs _ hstep => step_within hs hstep) h
  exact ⟨rfl, rfl, List.nodup_nil, Nat.zero_le _, Nat.zero_le _, List.Pairwise.nil,
    fun _ he => absurd he List.not_mem_nil⟩

theorem runs_within_usedAndEvicted :
    (usedAndEvicted.1.hits = 1 ∧ usedAndEvicted.1.evictions = 1) ∧
      Within 1 (1 * 1024 * 1024) usedAndEvicted.2 usedAndEvicted.1 :=
  ⟨⟨rfl, rfl⟩, runs_within reach_usedAndEvicted⟩

/-- `put` evicts the entries that were used longest ago, no more of them than it has to, and counts
them. -/
theorem put_evicts {parse : P → C → Option T} {maxEntries maxMemoryMb : ℕ} {time : ℚ}
    {s : TreeCache P K T × ℚ} {w : World P K C} {filePath : P} {tree : T} {stat : Stat}
    (h : Reach (step parse) (TreeCache.init maxEntries maxMemoryMb, time) s) (hnow : s.2 ≤ w.time)
    (hstat : w.stat filePath = some stat) :
    ∃ dropped,
      LongestWithin (TreeCache.exceeds s.1) (s.1.stored w filePath tree stat).cache dropped
        (s.1.put w filePath (some tree)).cache ∧
      (∀ e ∈ dropped, ∀ e' ∈ (s.1.put w filePath (some tree)).cache,
        e.2.accessTime ≤ e'.2.accessTime) ∧
      (s.1.put w filePath (some tree)).evictions = s.1.evictions + dropped.length := by
  have hw := runs_within h
  have hput : s.1.put w filePath (some tree) =
      (s.1.stored w filePath tree stat).enforceLimits := by
    simp only [TreeCache.put, hstat]
  have hcache := (s.1.stored w filePath tree stat).cache_enforceLimits
  obtain ⟨dropped, hspec⟩ := evict_spec (s.1.stored w filePath tree stat).exceeds
    (s.1.stored w filePath tree stat).cache
  rw [← hcache, ← hput] at hspec
  have horder : (s.1.stored w filePath tree stat).cache.Pairwise
      fun e e' => e.2.accessTime ≤ e'.2.accessTime :=
    pairwise_store hw.order fun e he => (hw.past e he).trans hnow
  refine ⟨dropped, hspec, ?_, ?_⟩
  · rw [hspec.parts] at horder
    exact (List.pairwise_append.1 horder).2.2
  · have hlength := congrArg List.length hspec.parts
    rw [List.length_append] at hlength
    rw [hput] at hlength ⊢
    show s.1.evictions + ((s.1.stored w filePath tree stat).cache.length -
      (s.1.stored w filePath tree stat).enforceLimits.cache.length) = _
    rw [hlength, Nat.add_sub_cancel_right]

theorem put_evicts_first : ∃ dropped,
    LongestWithin (TreeCache.exceeds usedOnce.1)
      (usedOnce.1.stored (oneByteFiles 2) 6 6 ⟨0, 1⟩).cache dropped
      (usedOnce.1.put (oneByteFiles 2) 6 (some 6)).cache ∧
    (∀ e ∈ dropped, ∀ e' ∈ (usedOnce.1.put (oneByteFiles 2) 6 (some 6)).cache,
      e.2.accessTime ≤ e'.2.accessTime) ∧
    (usedOnce.1.put (oneByteFiles 2) 6 (some 6)).evictions =
      usedOnce.1.evictions + dropped.length :=
  put_evicts reach_usedOnce (by decide) rfl

end Within

/-! ## With and without a cache -/

/-- What is assumed of a file system : no link is retargeted, paths that lead to the same file have
its times and its content, and the content of a file is told by its modification time and size. -/
structure Steady (resolve : P → K) (content : K → Stat → C) (w : World P K C) : Prop where
  resolve_eq : w.resolve = resolve
  stat_eq : ∀ p p', resolve p = resolve p' → w.stat p = w.stat p'
  read_eq : ∀ p c stat, w.read p = some c → w.stat p = some stat → c = content (resolve p) stat

/-- The call puts only trees of files as they are, and parses a file as it is, while it does not
change. -/
def Call.FromFiles (parse : P → C → Option T) (resolve : P → K) (content : K → Stat → C) :
    Call P K T C → Prop
  | .put w filePath tree => Steady resolve content w ∧
      ∀ t, tree = some t → ∃ c, w.read filePath = some c ∧ parse filePath c = some t
  | .parse w w' w'' filePath sourceCode => sourceCode = none ∧ Steady resolve content w ∧
      Steady resolve content w' ∧ Steady resolve content w'' ∧
      w'.stat filePath = w.stat filePath ∧ w''.stat filePath = w.stat filePath ∧
      w''.read filePath = w.read filePath
  | .get w _ | .getForComparison w _ | .invalidate w _ | .cleanup w => Steady resolve content w
  | .clear => True

/-- Every entry holds the tree of its file as it was. -/
def FromFiles (parse : P → C → Option T) (resolve : P → K) (content : K → Stat → C)
    (c : TreeCache P K T) : Prop :=
  ∀ e ∈ c.cache, resolve e.2.filePath = e.1 ∧
    parse e.2.filePath (content e.1 ⟨e.2.mtime, e.2.size⟩) = some e.2.tree

section FromFiles

variable {parse : P → C → Option T} {resolve : P → K} {content : K → Stat → C}
  {c c' : TreeCache P K T} {w : World P K C} {filePath : P}

theorem FromFiles.of_subset (h : FromFiles parse resolve content c)
    (hcache : c'.cache ⊆ c.cache) : FromFiles parse resolve content c' :=
  fun e he => h e (hcache he)

variable [DecidableEq K]

theorem mem_of_lookup {k : K} {entry : TreeCacheEntry P T} {d : List (K × TreeCacheEntry P T)}
    (h : d.lookup k = some entry) : (k, entry) ∈ d := by
  obtain ⟨front, back, rfl, -⟩ := List.lookup_eq_some_iff.1 h
  exact List.mem_append_right _ List.mem_cons_self

theorem FromFiles.get (h : FromFiles parse resolve content c) :
    FromFiles parse resolve content (c.get w filePath).2 := by
  unfold TreeCache.get
  dsimp only
  split
  · exact h
  · rename_i entry hk
    split
    · intro e he
      rcases mem_store he with he | rfl
      · exact h e he
      · exact h (w.resolve filePath, entry) (mem_of_lookup hk)
    · exact h.of_subset List.filter_sublist.subset

theorem FromFiles.put {tree : Option T} (h : FromFiles parse resolve content c)
    (hw : Steady resolve content w)
    (htree : ∀ t, tree = some t → ∃ c, w.read filePath = some c ∧ parse filePath c = some t) :
    FromFiles parse resolve content (c.put w filePath tree) := by
  unfold TreeCache.put
  split
  · rename_i t stat hstat
    obtain ⟨source, hread, hparse⟩ := htree t rfl
    intro e he
    rw [TreeCache.cache_enforceLimits] at he
    rcases mem_store ((evict_suffix _ _).subset he) with he | rfl
    · exact h e he
    · refine ⟨by rw [hw.resolve_eq], ?_⟩
      rw [hw.resolve_eq, ← hw.read_eq _ _ _ hread hstat]
      exact hparse
  · exact h

/-- A tree that is served is the one of the file as it is. -/
theorem FromFiles.get_eq (h : FromFiles parse resolve content c) (hw : Steady resolve content w)
    (hparse : ∀ p p' c, resolve p = resolve p' → parse p c = parse p' c) {tree : T}
    (hget : (c.get w filePath).1 = some tree) :
    ∃ stat, w.stat filePath = some stat ∧
      parse filePath (content (resolve filePath) stat) = some tree := by
  unfold TreeCache.get at hget
  dsimp only at hget
  split at hget
  · cases hget
  · rename_i entry hk
    split at hget
    · rename_i hvalid
      obtain rfl := Option.some.inj hget
      rw [hw.resolve_eq] at hk
      obtain ⟨hpath, htree⟩ := h _ (mem_of_lookup hk)
      have hstat := hw.stat_eq _ _ hpath ▸ TreeCacheEntry.stat_of_isValid hvalid
      exact ⟨_, hstat, hparse _ _ _ hpath ▸ htree⟩
    · cases hget

/-- A call to the parser : the answer is what parsing gives, and the cache stays true to the
files. -/
theorem parseIncremental_spec {w' w'' : World P K C} (h : FromFiles parse resolve content c)
    (hparse : ∀ p p' c, resolve p = resolve p' → parse p c = parse p' c)
    (hcall : Call.FromFiles parse resolve content (.parse w w' w'' filePath none)) :
    (parseIncremental parse c w w' w'' filePath none).1 = parseDirectly parse w filePath none ∧
      FromFiles parse resolve content (parseIncremental parse c w w' w'' filePath none).2 := by
  obtain ⟨-, hw, hw', hw'', hstat, -, hread⟩ := hcall
  unfold parseIncremental parseDirectly
  rw [Option.none_or]
  cases hsource : w.read filePath with
  | none => exact ⟨rfl, h⟩
  | some source =>
    have hget : FromFiles parse resolve content (c.get w' filePath).2 := h.get
    dsimp only [Option.bind_some]
    split
    · rename_i tree c' heq
      have hserved : (c.get w' filePath).1 = some tree := by rw [heq]
      obtain ⟨stat, hstat', htree⟩ := h.get_eq hw' hparse hserved
      rw [heq] at hget
      rw [hstat] at hstat'
      rw [← hw.read_eq _ _ _ hsource hstat'] at htree
      exact ⟨htree.symm, hget⟩
    · rename_i c' heq
      rw [heq] at hget
      cases htree : parse filePath source with
      | none => exact ⟨rfl, hget⟩
      | some tree =>
        refine ⟨rfl, hget.put hw'' fun t ht => ⟨source, hread.trans hsource, ?_⟩⟩
        rw [htree, ht]

theorem step_fromFiles {s s' : TreeCache P K T × ℚ} {call : Call P K T C}
    (hparse : ∀ p p' c, resolve p = resolve p' → parse p c = parse p' c)
    (h : FromFiles parse resolve content s.1) (hcall : call.FromFiles parse resolve content)
    (hs : step parse s call = some s') : FromFiles parse resolve content s'.1 := by
  unfold step at hs
  dsimp only at hs
  split at hs
  · obtain rfl := Option.some.inj hs
    cases call with
    | get w filePath => exact h.get
    | getForComparison w filePath =>
      show FromFiles parse resolve content (s.1.getForComparison w filePath).2
      unfold TreeCache.getForComparison
      split <;> exact h
    | put w filePath tree => exact h.put hcall.1 hcall.2
    | invalidate w filePath =>
      show FromFiles parse resolve content (s.1.invalidate w filePath).2
      unfold TreeCache.invalidate
      dsimp only
      split
      · exact h
      · exact h.of_subset List.filter_sublist.subset
    | clear => exact fun e he => absurd he List.not_mem_nil
    | cleanup w => exact h.of_subset (foldl_erase_sublist _ _).subset
    | parse w w' w'' filePath sourceCode =>
      obtain rfl := hcall.1
      exact (parseIncremental_spec h hparse hcall).2
  · cases hs

/-- In any run, a parser with a cache returns what one without a cache returns. -/
theorem parseIncremental_eq {maxEntries maxMemoryMb : ℕ} {time : ℚ} {s : TreeCache P K T × ℚ}
    {w' w'' : World P K C} (hparse : ∀ p p' c, resolve p = resolve p' → parse p c = parse p' c)
    (h : ReachWhen (step parse) (fun _ call => call.FromFiles parse resolve content)
      (TreeCache.init maxEntries maxMemoryMb, time) s)
    (hcall : Call.FromFiles parse resolve content (.parse w w' w'' filePath none)) :
    (parseIncremental parse s.1 w w' w'' filePath none).1 =
      parseDirectly parse w filePath none := by
  have hfiles : FromFiles parse resolve content s.1 := by
    refine ReachWhen.invariant (I := fun s => FromFiles parse resolve content s.1) ?_
      (fun s call s' hs hok hstep => step_fromFiles hparse hs hok hstep) h
    exact fun e he => absurd he List.not_mem_nil
  exact (parseIncremental_spec hfiles hparse hcall).1

end FromFiles

theorem steady_oneByteFiles (time : ℚ) :
    Steady id (fun k (_ : Stat) => k) (oneByteFiles time) where
  resolve_eq := rfl
  stat_eq := fun _ _ _ => rfl
  read_eq := fun _ _ _ hread _ => (Option.some.inj hread).symm

theorem reachWhen_usedOnce : ReachWhen (step fun (_ : ℕ) (c : ℕ) => some c)
    (fun _ call => call.FromFiles (fun _ c => some c) id (fun k (_ : Stat) => k))
    (TreeCache.init 1 1, 0) usedOnce := by
  have hput : Call.FromFiles (fun _ c => some c) id (fun k (_ : Stat) => k)
      (.put (oneByteFiles 1) 5 (some 5)) :=
    ⟨steady_oneByteFiles 1, fun _ ht => ⟨5, rfl, ht⟩⟩
  exact .step .init hput rfl

theorem parseIncremental_eq_once :
    (parseIncremental (fun _ c => some c) usedOnce.1 (oneByteFiles 2) (oneByteFiles 2)
      (oneByteFiles 2) 5 none).1 = parseDirectly (fun _ c => some c) (oneByteFiles 2) 5 none :=
  parseIncremental_eq (fun _ _ _ _ => rfl) reachWhen_usedOnce
    ⟨rfl, steady_oneByteFiles 2, steady_oneByteFiles 2, steady_oneByteFiles 2, rfl, rfl, rfl⟩

end ChunkHound.SyntaxTrees
