import Mathlib.Data.List.Nodup
import Mathlib.Data.List.Perm.Basic
import Mathlib.Logic.Function.Basic
import Mathlib.Tactic.Common

/-!
# Pending mutations of the realtime pipeline

The mutations a realtime service has outstanding, and the functions of `pipeline.py` that
move them : a mutation is registered under its operation and path, waits in a debounce or a
retry task or in the file queue, and is released when the worker takes it.

`Queues.Wired` says that the registrations and the waiting mutations agree. Every function
keeps it, and loses no waiting change and no delete that is still wanted (`Queues.Grows`).
Taking one from the queue loses that one only (`Queues.Taken`).
-/

namespace ChunkHound

inductive Operation
  | change | scan | delete | dirDelete | dirIndex | embed
  deriving DecidableEq

/-- `_MUTATION_PRIORITIES`. -/
def Operation.priority : Operation → ℕ
  | .delete | .dirDelete => 0
  | .change | .scan | .dirIndex => 1
  | .embed => 2

/-- `RealtimeMutation`. -/
structure Mutation where
  mutationId : ℕ
  operation : Operation
  path : String
  retryCount : ℕ
  sourceGeneration : Option ℕ
  deriving DecidableEq

/-- `_pending_mutation_key`. -/
def Mutation.key (m : Mutation) : Operation × String := (m.operation, m.path)

/-- A mutation that makes the worker read the path. -/
def Mutation.Reads (m : Mutation) (p : String) : Prop :=
  (m.operation = .change ∨ m.operation = .scan) ∧ m.path = p

/-- The newest generation of every path. -/
abbrev Generations := String → Option ℕ

/-- `_delete_mutation_is_stale`. -/
def Mutation.stale (m : Mutation) (latest : Generations) : Bool :=
  match m.sourceGeneration, latest m.path with
  | some i, some current => i < current
  | _, _ => false

/-- `_delete_mutation_supersedes_existing`. -/
def Mutation.supersedes (m existing : Mutation) : Bool :=
  m.operation = .delete && existing.operation = .delete &&
    match m.sourceGeneration, existing.sourceGeneration with
    | some _, none => true
    | none, _ => false
    | some incoming, some e =>
      e < incoming || incoming = e && m.retryCount < existing.retryCount

/-- `_register_pending_mutation` takes the mutation, with this one registered under its key. -/
def Mutation.registers (m : Mutation) (registered : Option Mutation) : Bool :=
  registered.all m.supersedes

/-- `_owns_pending_mutation`, with this one registered under its key. -/
def Mutation.isCurrent (m : Mutation) (registered : Option Mutation) : Bool :=
  registered.any fun current => current.mutationId = m.mutationId

variable {registered : Option Mutation}

theorem Mutation.isCurrent_iff {m : Mutation} :
    m.isCurrent registered = true ↔
      ∃ current, registered = some current ∧ current.mutationId = m.mutationId := by
  cases registered <;> simp [isCurrent]

/-- What `_refresh_pending_change_generation` registers in place of a change, for the generation
it finds. -/
def Mutation.refreshed (generation : Option ℕ) (registered : Option Mutation) : Option Mutation :=
  match generation, registered with
  | some g, some existing =>
    if existing.sourceGeneration = some g then none
    else some { existing with sourceGeneration := some g }
  | _, _ => none

theorem Mutation.exists_of_refreshed {generation : Option ℕ}
    {m : Mutation} (h : refreshed generation registered = some m) :
    ∃ g existing, registered = some existing ∧
      m = { existing with sourceGeneration := some g } := by
  unfold refreshed at h
  split at h
  · rename_i g existing
    split at h
    · cases h
    · exact ⟨g, existing, rfl, (Option.some.inj h).symm⟩
  · cases h

/-- `_mutation_for_processing`. -/
def Mutation.forProcessing (m : Mutation) (latest : Generations) : Mutation :=
  if m.operation = .change ∨ m.operation = .scan then
    match latest m.path with
    | some g => { m with sourceGeneration := some g }
    | none => m
  else m

/-- `_MAX_RETRY_BUDGET`. -/
def maxRetryBudget : ℕ := 5

/-- `_DELETE_BATCH_SIZE`. -/
def deleteBatchSize : ℕ := 64

/-- Where mutations wait. The file queue is in the order of its sequence numbers. -/
structure Queues where
  nextMutationId : ℕ
  pendingMutations : Operation × String → Option Mutation
  pendingDebounce : String → Bool
  reservedFollowUps : String → Option ℕ
  fileQueue : List Mutation
  debounceTasks : List Mutation
  retryTasks : List Mutation

/-- The operations `add_file` is given. -/
inductive AddPriority
  | change | scan | embed
  deriving DecidableEq

/-- `_normalize_add_priority` : the operation, and whether it is debounced. -/
def AddPriority.normalize : AddPriority → Operation × Bool
  | .change => (.change, true)
  | .scan => (.scan, false)
  | .embed => (.embed, false)

/-- The next mutation of a priority queue : the lowest priority, and of those the first. -/
def popMin : List Mutation → Option (Mutation × List Mutation)
  | [] => none
  | m :: ms =>
    match popMin ms with
    | none => some (m, [])
    | some (n, rest) =>
      if m.operation.priority ≤ n.operation.priority then some (m, ms) else some (n, m :: rest)

namespace Queues

def empty : Queues := ⟨0, fun _ => none, fun _ => false, fun _ => none, [], [], []⟩

/-- `_build_mutation`. -/
def build (q : Queues) (operation : Operation) (path : String) (retryCount : ℕ)
    (generation : Option ℕ) : Mutation × Queues :=
  (⟨q.nextMutationId + 1, operation, path, retryCount, generation⟩,
    { q with nextMutationId := q.nextMutationId + 1 })

/-- `_register_pending_mutation`. -/
def register (q : Queues) (m : Mutation) : Option Queues :=
  if m.registers (q.pendingMutations m.key) then
    some { q with pendingMutations := Function.update q.pendingMutations m.key (some m) }
  else none

/-- `_owns_pending_mutation`. -/
def owns (q : Queues) (m : Mutation) : Bool := m.isCurrent (q.pendingMutations m.key)

/-- `_release_pending_mutation`. -/
def release (q : Queues) (m : Mutation) : Queues :=
  if q.owns m then
    { q with pendingMutations := Function.update q.pendingMutations m.key none }
  else q

def put (q : Queues) (m : Mutation) : Queues := { q with fileQueue := q.fileQueue ++ [m] }

/-- `_enqueue_mutation(self._build_mutation(…))`. -/
def enqueueNew (q : Queues) (operation : Operation) (path : String) (generation : Option ℕ) :
    Queues :=
  let (m, q) := q.build operation path 0 generation
  match q.register m with
  | some q => q.put m
  | none => q

/-- `_refresh_pending_change_generation`. -/
def refreshPendingChange (q : Queues) (path : String) (generation : Option ℕ) : Queues :=
  match Mutation.refreshed generation (q.pendingMutations (.change, path)) with
  | some m =>
    { q with pendingMutations := Function.update q.pendingMutations (.change, path) (some m) }
  | none => q

/-- `_reserve_change_follow_up`. -/
def reserve (q : Queues) (path : String) (generation : Option ℕ) : Queues :=
  match generation, q.reservedFollowUps path with
  | some g, none =>
    { q with reservedFollowUps := Function.update q.reservedFollowUps path (some g) }
  | some g, some existing =>
    if existing < g then
      { q with reservedFollowUps := Function.update q.reservedFollowUps path (some g) }
    else q
  | none, _ => q

/-- `add_file` : whether the mutation was admitted, and the queues after it. `generation` is
the newest one of the path, and `active` says that the worker is reading it. -/
def addFile (q : Queues) (path : String) (priority : AddPriority) (generation : Option ℕ)
    (active : Bool) : Bool × Queues :=
  let (operation, debounced) := priority.normalize
  let (m, q) := q.build operation path 0 (if operation = .change then generation else none)
  if operation = .change ∧ active ∧ (q.pendingMutations (.change, path)).isNone then
    (false, (q.reserve path generation).refreshPendingChange path generation)
  else if debounced ∧ q.pendingDebounce path then
    (false, q.refreshPendingChange path generation)
  else
    match q.register m with
    | none => (false, if debounced then q.refreshPendingChange path generation else q)
    | some q =>
      if debounced then
        (true, { q with
          pendingDebounce := Function.update q.pendingDebounce path true
          debounceTasks := q.debounceTasks ++ [m] })
      else (true, q.put m)

/-- The end of `_debounced_add_file`, for the `i`-th task. -/
def debounceFires (q : Queues) (i : ℕ) : Option Queues :=
  (q.debounceTasks[i]?).map fun m =>
    let q := { q with debounceTasks := q.debounceTasks.eraseIdx i }
    if q.pendingDebounce m.path then
      let q := { q with pendingDebounce := Function.update q.pendingDebounce m.path false }
      let current := (q.pendingMutations m.key).getD m
      if q.owns current then q.put current else q.release current
    else q.release m

/-- The end of `_retry_mutation_after_delay`, for the `i`-th task. -/
def retryFires (q : Queues) (latest : Generations) (i : ℕ) : Option Queues :=
  (q.retryTasks[i]?).map fun m =>
    let q := { q with retryTasks := q.retryTasks.eraseIdx i }
    if !q.owns m then q
    else if m.operation = .delete && m.stale latest then q.release m
    else q.put m

/-- `_retry_mutation_after_delay`, where the path of a delete cannot be normalised : the delete is
released. -/
def retryRaises (q : Queues) (i : ℕ) : Option Queues :=
  (q.retryTasks[i]?).bind fun m =>
    let q := { q with retryTasks := q.retryTasks.eraseIdx i }
    if q.owns m ∧ m.operation = .delete then some (q.release m) else none

/-- `_schedule_compaction_retry`, `none` when the budget is used up. -/
def scheduleRetry (q : Queues) (m : Mutation) : Option Queues :=
  if maxRetryBudget ≤ m.retryCount then none
  else
    let (retry, q) := q.build m.operation m.path (m.retryCount + 1) m.sourceGeneration
    match q.register retry with
    | none => some q
    | some q => some { q with retryTasks := q.retryTasks ++ [retry] }

/-- `_schedule_delete_retry`. -/
def scheduleDeleteRetry (q : Queues) (latest : Generations) (m : Mutation) : Option Queues :=
  if m.stale latest then some q else q.scheduleRetry m

/-- `_queue_follow_up_change`. -/
def queueFollowUp (q : Queues) (path : String) (generation : ℕ) : Queues :=
  let (m, q) := q.build .change path 0 (some generation)
  match q.register m with
  | none => q.refreshPendingChange path (some generation)
  | some q => q.put m

/-- `_drain_reserved_follow_up_change`. -/
def drain (q : Queues) (path : String) : Queues :=
  match q.reservedFollowUps path with
  | none => q
  | some g =>
    queueFollowUp { q with reservedFollowUps := Function.update q.reservedFollowUps path none }
      path g

/-- `file_queue.get` and `_prepare_dequeued_mutation`. -/
def dequeue (q : Queues) (latest : Generations) : Option (Mutation × Bool × Queues) :=
  (popMin q.fileQueue).map fun (m, rest) =>
    let q := { q with fileQueue := rest }
    let m := m.forProcessing latest
    (m, q.owns m, q.release m)

/-- `file_queue.get`, and `_prepare_dequeued_mutation` raises, as the path of a change or of a scan
cannot be normalised : the mutation is out of the queue, and still registered. -/
def dequeueRaises (q : Queues) : Option Queues :=
  (popMin q.fileQueue).bind fun (m, rest) =>
    if m.operation = .change ∨ m.operation = .scan then some { q with fileQueue := rest } else none

/-- `_collect_delete_batch`, `n` more deletes at most : the batch, and the mutation of
another operation taken after it. -/
def collectDeletes (latest : Generations) : ℕ → Queues → List (Mutation × Bool) →
    List (Mutation × Bool) × Option (Mutation × Bool) × Queues
  | 0, q, batch => (batch, none, q)
  | n + 1, q, batch =>
    match q.dequeue latest with
    | none => (batch, none, q)
    | some (m, owned, q) =>
      if m.operation = .delete then collectDeletes latest n q (batch ++ [(m, owned)])
      else (batch, some (m, owned), q)

/-- `_collect_delete_batch`, which raises at the mutation behind the deletes it has taken. -/
def collectRaises (latest : Generations) : ℕ → Queues → Option Queues
  | 0, _ => none
  | n + 1, q =>
    match q.dequeueRaises with
    | some q => some q
    | none =>
      (q.dequeue latest).bind fun (m, _, q) =>
        if m.operation = .delete then collectRaises latest n q else none

/-! ## Registrations and tasks -/

/-- Every mutation that waits. -/
def items (q : Queues) : List Mutation := q.fileQueue ++ q.debounceTasks ++ q.retryTasks

/-- The registrations agree with the mutations that wait. A registered mutation waits
somewhere, and one that waits is registered, but for a delete, which a newer one may have
replaced. -/
structure Wired (q : Queues) : Prop where
  ids : (q.items.map (·.mutationId)).Nodup
  idLe : ∀ m ∈ q.items, m.mutationId ≤ q.nextMutationId
  pending : ∀ key m, q.pendingMutations key = some m → m.key = key ∧
    ∃ x ∈ q.items, x.mutationId = m.mutationId ∧ x.key = key ∧ (key.1 = .delete → x = m)
  owned : ∀ x ∈ q.items, x.operation ≠ .delete →
    ∃ m, q.pendingMutations x.key = some m ∧ m.mutationId = x.mutationId
  debounce : ∀ x ∈ q.debounceTasks, x.operation = .change ∧ q.pendingDebounce x.path = true
  debounced : ∀ p, q.pendingDebounce p = true → ∃ x ∈ q.debounceTasks, x.path = p
  dated : ∀ m ∈ q.items, m.operation = .delete ∨ m.operation = .dirDelete →
    m.sourceGeneration.isSome

theorem wired_empty : empty.Wired := by
  constructor <;> simp [empty, items]

/-- A mutation that will make the worker read the path waits. -/
def HasChange (q : Queues) (p : String) : Prop := ∃ m ∈ q.items, m.Reads p

/-- A delete of the path waits that no newer event has made stale. -/
def HasDelete (q : Queues) (latest : Generations) (p : String) : Prop :=
  ∃ m ∈ q.items, m.key = (.delete, p) ∧ q.pendingMutations (.delete, p) = some m ∧
    m.stale latest = false

/-- Nothing that waits is lost. -/
structure Grows (latest : Generations) (q q' : Queues) : Prop where
  wired : q'.Wired
  change : ∀ p, q.HasChange p → q'.HasChange p
  delete : ∀ p, q.HasDelete latest p → q'.HasDelete latest p
  reserved : ∀ p, q.reservedFollowUps p ≠ none → q'.reservedFollowUps p ≠ none

variable {latest : Generations}

theorem Grows.refl {q : Queues} (h : q.Wired) : Grows latest q q :=
  ⟨h, fun _ => id, fun _ => id, fun _ => id⟩

theorem Grows.trans {q q₁ q' : Queues} (h : Grows latest q q₁)
    (h' : Grows latest q₁ q') : Grows latest q q' :=
  ⟨h'.wired, fun p hp => h'.change p (h.change p hp), fun p hp => h'.delete p (h.delete p hp),
    fun p hp => h'.reserved p (h.reserved p hp)⟩

/-! ## One mutation more, moved or less -/

theorem mem_items {q : Queues} {m : Mutation} :
    m ∈ q.items ↔ m ∈ q.fileQueue ∨ m ∈ q.debounceTasks ∨ m ∈ q.retryTasks := by
  simp [items]

theorem register_pending {q q₁ : Queues} {m : Mutation} (h : q.register m = some q₁) :
    q₁ = { q with pendingMutations := Function.update q.pendingMutations m.key (some m) } ∧
      ∀ existing, q.pendingMutations m.key = some existing → m.supersedes existing = true := by
  unfold register at h
  split at h
  · rename_i hreg
    refine ⟨(Option.some.inj h).symm, fun e he => ?_⟩
    rw [he] at hreg
    exact hreg
  · cases h

variable {m existing : Mutation}

theorem supersedes_delete (h : m.supersedes existing = true) :
    m.operation = .delete ∧ existing.operation = .delete := by
  unfold Mutation.supersedes at h
  rw [Bool.and_eq_true, Bool.and_eq_true, decide_eq_true_eq, decide_eq_true_eq] at h
  exact h.1

/-- A delete that replaces one still wanted is still wanted. -/
theorem not_stale_of_supersedes (h : m.supersedes existing = true) (hpath : m.path = existing.path)
    (hdated : existing.sourceGeneration.isSome) (hfresh : existing.stale latest = false) :
    m.stale latest = false := by
  unfold Mutation.supersedes at h
  unfold Mutation.stale at hfresh ⊢
  rw [hpath]
  cases hm : m.sourceGeneration with
  | none => rfl
  | some i =>
    cases he : existing.sourceGeneration with
    | none => simp [he] at hdated
    | some e =>
      rw [hm, he] at h
      rw [he] at hfresh
      cases hg : latest existing.path with
      | none => rfl
      | some g =>
        rw [hg] at hfresh
        simp only [Bool.and_eq_true, Bool.or_eq_true, decide_eq_true_eq,
          decide_eq_false_iff_not] at h hfresh ⊢
        omega

/-- And the one it does not replace is as new. -/
theorem not_stale_of_not_supersedes
    (h : m.supersedes existing = false) (hop : m.operation = .delete)
    (hop' : existing.operation = .delete) (hpath : m.path = existing.path)
    (hdated : m.sourceGeneration.isSome) (hfresh : m.stale latest = false) :
    existing.stale latest = false := by
  unfold Mutation.supersedes at h
  unfold Mutation.stale at hfresh ⊢
  rw [hop, hop'] at h
  rw [hpath] at hfresh
  cases hm : m.sourceGeneration with
  | none => simp [hm] at hdated
  | some i =>
    cases he : existing.sourceGeneration with
    | none => rfl
    | some e =>
      rw [hm, he] at h
      rw [hm] at hfresh
      cases hg : latest existing.path with
      | none => rfl
      | some g =>
        rw [hg] at hfresh
        simp only [decide_true, Bool.and_self, Bool.true_and, Bool.or_eq_false_iff,
          decide_eq_false_iff_not] at h hfresh ⊢
        omega

section Wired

variable {q q₁ q' : Queues} {m c : Mutation} {latest : Generations}

variable {p : String}

/-- The item of a registered delete is the registration itself. -/
theorem Wired.pending_delete (h : q.Wired)
    (hm : q.pendingMutations (.delete, p) = some m) : m ∈ q.items := by
  obtain ⟨-, x, hx, -, -, heq⟩ := h.pending _ _ hm
  rw [← heq rfl]
  exact hx

variable {operation : Operation}

/-- A registered change or scan waits. -/
theorem Wired.hasChange_of_pending (h : q.Wired) (hop : operation = .change ∨ operation = .scan)
    (hm : q.pendingMutations (operation, p) = some m) : q.HasChange p := by
  obtain ⟨-, x, hx, -, hkey, -⟩ := h.pending _ _ hm
  obtain ⟨rfl, hpath⟩ := Prod.mk.inj hkey
  exact ⟨x, hx, hop, hpath⟩

/-- Registering a new mutation and letting it wait. -/
theorem Wired.adopt (h : q.Wired) (hreg : q.register m = some q₁)
    (hid : ∀ x ∈ q.items, x.mutationId < m.mutationId) (hle : m.mutationId ≤ q'.nextMutationId)
    (hdated : m.operation = .delete ∨ m.operation = .dirDelete → m.sourceGeneration.isSome)
    (hitems : q'.items.Perm (m :: q.items))
    (hpending : q'.pendingMutations = q₁.pendingMutations)
    (hdeb : ∀ x ∈ q'.debounceTasks, x.operation = .change ∧ q'.pendingDebounce x.path = true)
    (hdeb' : ∀ p, q'.pendingDebounce p = true → ∃ x ∈ q'.debounceTasks, x.path = p) :
    q'.Wired := by
  obtain ⟨rfl, hsup⟩ := register_pending hreg
  replace hpending : q'.pendingMutations = Function.update q.pendingMutations m.key (some m) :=
    hpending
  have hmem : ∀ x, x ∈ q'.items ↔ x = m ∨ x ∈ q.items := fun x => by
    rw [hitems.mem_iff, List.mem_cons]
  refine ⟨?_, fun x hx => ?_, fun key e he => ?_, fun x hx hop => ?_, hdeb, hdeb',
    fun x hx hop => ?_⟩
  · rw [(hitems.map _).nodup_iff, List.map_cons, List.nodup_cons]
    refine ⟨fun hdup => ?_, h.ids⟩
    obtain ⟨x, hx, heq⟩ := List.mem_map.1 hdup
    have hlt := hid x hx
    omega
  · rcases (hmem x).1 hx with rfl | hx
    · exact hle
    · have hlt := hid x hx
      omega
  · rw [hpending, Function.update_apply] at he
    split at he
    · rename_i hkey
      obtain rfl := Option.some.inj he
      exact ⟨hkey.symm, m, (hmem m).2 (Or.inl rfl), rfl, hkey.symm, fun _ => rfl⟩
    · obtain ⟨hkey, x, hx, hrest⟩ := h.pending key e he
      exact ⟨hkey, x, (hmem x).2 (Or.inr hx), hrest⟩
  · rw [hpending, Function.update_apply]
    rcases (hmem x).1 hx with rfl | hx
    · exact ⟨x, if_pos rfl, rfl⟩
    · obtain ⟨e, he, hide⟩ := h.owned x hx hop
      split
      · rename_i hkey
        -- only a delete replaces a registration
        rw [hkey] at he
        have hmop := (supersedes_delete (hsup e he)).1
        exact absurd ((congrArg Prod.fst hkey).trans hmop) hop
      · exact ⟨e, he, hide⟩
  · rcases (hmem x).1 hx with rfl | hx
    · exact hdated hop
    · exact h.dated x hx hop

theorem Wired.adopt_grows (h : q.Wired) (hreg : q.register m = some q₁) (hw : q'.Wired)
    (hitems : q'.items.Perm (m :: q.items))
    (hpending : q'.pendingMutations = q₁.pendingMutations)
    (hreserved : q'.reservedFollowUps = q.reservedFollowUps) : Grows latest q q' := by
  obtain ⟨rfl, hsup⟩ := register_pending hreg
  replace hpending : q'.pendingMutations = Function.update q.pendingMutations m.key (some m) :=
    hpending
  have hmem : ∀ x ∈ q.items, x ∈ q'.items := fun x hx =>
    hitems.mem_iff.2 (List.mem_cons_of_mem m hx)
  refine ⟨hw, ?_, ?_, fun p hp => by rwa [hreserved]⟩
  · rintro p ⟨x, hx, hreads⟩
    exact ⟨x, hmem x hx, hreads⟩
  · rintro p ⟨x, hx, hkey, hpend, hfresh⟩
    by_cases hmp : m.key = (.delete, p)
    · have hsupx := hsup x (hmp ▸ hpend)
      refine ⟨m, hitems.mem_iff.2 List.mem_cons_self, hmp, ?_, ?_⟩
      · rw [hpending, Function.update_apply, if_pos hmp.symm]
      · have hpath : m.path = x.path :=
          (congrArg Prod.snd hmp).trans (congrArg Prod.snd hkey).symm
        have hop : x.operation = .delete := congrArg Prod.fst hkey
        exact not_stale_of_supersedes hsupx hpath (h.dated x hx (Or.inl hop)) hfresh
    · refine ⟨x, hmem x hx, hkey, ?_, hfresh⟩
      rw [hpending, Function.update_apply, if_neg (Ne.symm hmp)]
      exact hpend

variable {rest : List Mutation}

/-- A mutation waits elsewhere, under the same id and key. -/
theorem Wired.move (h : q.Wired) (hitems : q.items.Perm (m :: rest))
    (hitems' : q'.items.Perm (c :: rest)) (hid : c.mutationId = m.mutationId)
    (hkey : c.key = m.key) (hsame : m.operation = .delete ∨ m.operation = .dirDelete → c = m)
    (hpending : q'.pendingMutations = q.pendingMutations)
    (hnext : q'.nextMutationId = q.nextMutationId)
    (hdeb : ∀ x ∈ q'.debounceTasks, x.operation = .change ∧ q'.pendingDebounce x.path = true)
    (hdeb' : ∀ p, q'.pendingDebounce p = true → ∃ x ∈ q'.debounceTasks, x.path = p) :
    q'.Wired := by
  have hmem : ∀ x, x ∈ q.items ↔ x = m ∨ x ∈ rest := fun x => by
    rw [hitems.mem_iff, List.mem_cons]
  have hmem' : ∀ x, x ∈ q'.items ↔ x = c ∨ x ∈ rest := fun x => by
    rw [hitems'.mem_iff, List.mem_cons]
  have hop : c.operation = m.operation := congrArg Prod.fst hkey
  refine ⟨?_, fun x hx => ?_, fun key e he => ?_, fun x hx hxop => ?_, hdeb, hdeb',
    fun x hx hxop => ?_⟩
  · have hnd := h.ids
    rw [(hitems.map _).nodup_iff, List.map_cons] at hnd
    rw [(hitems'.map _).nodup_iff, List.map_cons, hid]
    exact hnd
  · rw [hnext]
    rcases (hmem' x).1 hx with rfl | hx
    · rw [hid]
      exact h.idLe m ((hmem m).2 (Or.inl rfl))
    · exact h.idLe x ((hmem x).2 (Or.inr hx))
  · rw [hpending] at he
    obtain ⟨hek, x, hx, hxid, hxk, hxd⟩ := h.pending key e he
    refine ⟨hek, ?_⟩
    rcases (hmem x).1 hx with rfl | hx
    · refine ⟨c, (hmem' c).2 (Or.inl rfl), hid.trans hxid, hkey.trans hxk, fun hd => ?_⟩
      rw [← hxd hd]
      refine hsame (Or.inl ?_)
      rw [← hd, ← hxk]
      rfl
    · exact ⟨x, (hmem' x).2 (Or.inr hx), hxid, hxk, hxd⟩
  · rw [hpending]
    rcases (hmem' x).1 hx with rfl | hx
    · rw [hkey, hid]
      exact h.owned m ((hmem m).2 (Or.inl rfl)) (hop ▸ hxop)
    · exact h.owned x ((hmem x).2 (Or.inr hx)) hxop
  · rcases (hmem' x).1 hx with rfl | hx
    · rw [hop] at hxop
      rw [hsame hxop]
      exact h.dated m ((hmem m).2 (Or.inl rfl)) hxop
    · exact h.dated x ((hmem x).2 (Or.inr hx)) hxop

theorem Wired.move_grows (hw : q'.Wired)
    (hitems : q.items.Perm (m :: rest)) (hitems' : q'.items.Perm (c :: rest))
    (hkey : c.key = m.key) (hsame : m.operation = .delete ∨ m.operation = .dirDelete → c = m)
    (hpending : q'.pendingMutations = q.pendingMutations)
    (hreserved : q'.reservedFollowUps = q.reservedFollowUps) : Grows latest q q' := by
  have hop : c.operation = m.operation := congrArg Prod.fst hkey
  have hpath : c.path = m.path := congrArg Prod.snd hkey
  refine ⟨hw, ?_, ?_, fun p hp => by rwa [hreserved]⟩
  · rintro p ⟨x, hx, hreads⟩
    rcases List.mem_cons.1 (hitems.mem_iff.1 hx) with rfl | hx
    · refine ⟨c, hitems'.mem_iff.2 List.mem_cons_self, ?_, hpath.trans hreads.2⟩
      rw [hop]
      exact hreads.1
    · exact ⟨x, hitems'.mem_iff.2 (List.mem_cons_of_mem c hx), hreads⟩
  · rintro p ⟨x, hx, hxk, hpend, hfresh⟩
    refine ⟨x, ?_, hxk, by rwa [hpending], hfresh⟩
    rcases List.mem_cons.1 (hitems.mem_iff.1 hx) with rfl | hx
    · rw [← hsame (Or.inl (congrArg Prod.fst hxk))]
      exact hitems'.mem_iff.2 List.mem_cons_self
    · exact hitems'.mem_iff.2 (List.mem_cons_of_mem c hx)

/-- The ids of the others differ. -/
theorem Wired.id_ne (h : q.Wired) (hitems : q.items.Perm (m :: rest)) :
    ∀ x ∈ rest, x.mutationId ≠ m.mutationId := by
  have hnd := h.ids
  rw [(hitems.map _).nodup_iff, List.map_cons, List.nodup_cons] at hnd
  exact fun x hx heq => hnd.1 (heq ▸ List.mem_map_of_mem hx)

/-- A registration stays unless it is that of the mutation released. -/
theorem release_pending {key : Operation × String} {e : Mutation} :
    (q.release m).pendingMutations key = some e ↔
      q.pendingMutations key = some e ∧ (key = m.key → e.mutationId ≠ m.mutationId) := by
  unfold release
  split
  · rename_i howns
    by_cases hkey : key = m.key
    · subst hkey
      refine iff_of_false (by simp) fun ⟨he, hne⟩ => hne rfl ?_
      simpa [owns, Mutation.isCurrent, he] using howns
    · simp [hkey]
  · rename_i howns
    refine ⟨fun he => ⟨he, fun hkey hid => howns ?_⟩, And.left⟩
    subst hkey
    simp [owns, Mutation.isCurrent, he, hid]

/-- A mutation stops waiting, and is released. -/
theorem Wired.remove (h : q.Wired) (hitems : q.items.Perm (m :: rest))
    (hitems' : q'.items.Perm rest)
    (hpending : q'.pendingMutations = (q.release m).pendingMutations)
    (hnext : q'.nextMutationId = q.nextMutationId)
    (hdeb : ∀ x ∈ q'.debounceTasks, x.operation = .change ∧ q'.pendingDebounce x.path = true)
    (hdeb' : ∀ p, q'.pendingDebounce p = true → ∃ x ∈ q'.debounceTasks, x.path = p) :
    q'.Wired := by
  have hmem : ∀ x, x ∈ q.items ↔ x = m ∨ x ∈ rest := fun x => by
    rw [hitems.mem_iff, List.mem_cons]
  have hnd := h.ids
  rw [(hitems.map _).nodup_iff, List.map_cons, List.nodup_cons] at hnd
  have hne := h.id_ne hitems
  refine ⟨?_, fun x hx => ?_, fun key e he => ?_, fun x hx hxop => ?_, hdeb, hdeb',
    fun x hx hxop => ?_⟩
  · rw [(hitems'.map _).nodup_iff]
    exact hnd.2
  · rw [hnext]
    exact h.idLe x ((hmem x).2 (Or.inr (hitems'.mem_iff.1 hx)))
  · rw [hpending] at he
    have hold := release_pending.1 he
    obtain ⟨hek, x, hx, hxid, hxk, hxd⟩ := h.pending key e hold.1
    refine ⟨hek, x, ?_, hxid, hxk, hxd⟩
    rcases (hmem x).1 hx with rfl | hx
    · exact absurd hxid.symm (hold.2 hxk.symm)
    · exact hitems'.mem_iff.2 hx
  · have hxrest := hitems'.mem_iff.1 hx
    obtain ⟨e, he, hide⟩ := h.owned x ((hmem x).2 (Or.inr hxrest)) hxop
    -- the released registration would be the one of `x`
    have hother : e.mutationId ≠ m.mutationId := hide ▸ hne x hxrest
    exact ⟨e, hpending ▸ release_pending.2 ⟨he, fun _ => hother⟩, hide⟩
  · exact h.dated x ((hmem x).2 (Or.inr (hitems'.mem_iff.1 hx))) hxop

/-- Only the one removed is lost. -/
theorem hasChange_of_remove (hitems : q.items.Perm (m :: rest))
    (hitems' : q'.items.Perm rest) (hp : q.HasChange p) :
    q'.HasChange p ∨ m.Reads p := by
  obtain ⟨x, hx, hreads⟩ := hp
  rcases List.mem_cons.1 (hitems.mem_iff.1 hx) with rfl | hx
  · exact Or.inr hreads
  · exact Or.inl ⟨x, hitems'.mem_iff.2 hx, hreads⟩

theorem Wired.hasDelete_of_remove (h : q.Wired)
    (hitems : q.items.Perm (m :: rest)) (hitems' : q'.items.Perm rest)
    (hpending : q'.pendingMutations = (q.release m).pendingMutations)
    (hp : q.HasDelete latest p) :
    q'.HasDelete latest p ∨ (m.key = (.delete, p) ∧ q.owns m = true ∧ m.stale latest = false) := by
  obtain ⟨x, hx, hkey, hpend, hfresh⟩ := hp
  rcases List.mem_cons.1 (hitems.mem_iff.1 hx) with rfl | hxrest
  · refine Or.inr ⟨hkey, ?_, hfresh⟩
    simp [owns, Mutation.isCurrent, hkey, hpend]
  · refine Or.inl ⟨x, hitems'.mem_iff.2 hxrest, hkey, ?_, hfresh⟩
    rw [hpending]
    exact release_pending.2 ⟨hpend, fun _ => h.id_ne hitems x hxrest⟩

theorem items_put (q : Queues) (m : Mutation) : (q.put m).items.Perm (m :: q.items) := by
  simp [items, put, List.append_assoc]

theorem items_retry (q : Queues) (m : Mutation) :
    ({ q with retryTasks := q.retryTasks ++ [m] } : Queues).items.Perm (m :: q.items) := by
  unfold items
  rw [← List.append_assoc]
  exact List.perm_append_singleton m _

/-- A fresh id changes nothing. -/
theorem Wired.build (h : q.Wired) (operation : Operation) (path : String) (retryCount : ℕ)
    (generation : Option ℕ) : (q.build operation path retryCount generation).2.Wired :=
  ⟨h.ids, fun m hm => Nat.le_succ_of_le (h.idLe m hm), h.pending, h.owned, h.debounce,
    h.debounced, h.dated⟩

theorem Wired.lt_build (h : q.Wired) : ∀ x ∈ q.items, x.mutationId < q.nextMutationId + 1 :=
  fun x hx => Nat.lt_succ_of_le (h.idLe x hx)

theorem Grows.build (h : q.Wired) (operation : Operation) (path : String) (retryCount : ℕ)
    (generation : Option ℕ) :
    Grows latest q (q.build operation path retryCount generation).2 :=
  ⟨h.build _ _ _ _, fun _ => id, fun _ => id, fun _ => id⟩

/-- A mutation registered and put in the file queue. -/
theorem Wired.register_put (h : q.Wired) (hid : ∀ x ∈ q.items, x.mutationId < m.mutationId)
    (hle : m.mutationId ≤ q.nextMutationId) (hreg : q.register m = some q₁)
    (hdated : m.operation = .delete ∨ m.operation = .dirDelete → m.sourceGeneration.isSome) :
    Grows latest q (q₁.put m) := by
  obtain ⟨hq₁, -⟩ := register_pending hreg
  have hitems : (q₁.put m).items.Perm (m :: q.items) := by
    rw [hq₁]
    exact items_put _ m
  refine h.adopt_grows hreg (h.adopt hreg hid ?_ hdated hitems rfl ?_ ?_) hitems rfl ?_
  · rw [hq₁]
    exact hle
  · rw [hq₁]
    exact h.debounce
  · rw [hq₁]
    exact h.debounced
  · rw [hq₁]
    rfl

/-- And one that waits to be retried. -/
theorem Wired.register_retry (h : q.Wired) (hid : ∀ x ∈ q.items, x.mutationId < m.mutationId)
    (hle : m.mutationId ≤ q.nextMutationId) (hreg : q.register m = some q₁)
    (hdated : m.operation = .delete ∨ m.operation = .dirDelete → m.sourceGeneration.isSome) :
    Grows latest q { q₁ with retryTasks := q₁.retryTasks ++ [m] } := by
  obtain ⟨hq₁, -⟩ := register_pending hreg
  have hitems : ({ q₁ with retryTasks := q₁.retryTasks ++ [m] } : Queues).items.Perm
      (m :: q.items) := by
    rw [hq₁]
    exact items_retry _ m
  refine h.adopt_grows hreg (h.adopt hreg hid ?_ hdated hitems rfl ?_ ?_) hitems rfl ?_
  · rw [hq₁]
    exact hle
  · rw [hq₁]
    exact h.debounce
  · rw [hq₁]
    exact h.debounced
  · rw [hq₁]

/-- The mutation just registered is the one registered. -/
theorem pending_of_register (hreg : q.register m = some q₁) :
    q₁.pendingMutations m.key = some m := by
  obtain ⟨rfl, -⟩ := register_pending hreg
  exact Function.update_self ..

/-- A registration that is refused has one before it, which it does not replace. -/
theorem exists_pending_of_register (hreg : q.register m = none) :
    ∃ existing, q.pendingMutations m.key = some existing ∧ m.supersedes existing = false := by
  unfold register at hreg
  split at hreg
  · cases hreg
  · rename_i hnot
    cases hex : q.pendingMutations m.key with
    | none => simp [Mutation.registers, hex] at hnot
    | some existing => exact ⟨existing, rfl, by simpa [Mutation.registers, hex] using hnot⟩

/-- A refused delete that is still wanted leaves one that is. -/
theorem Wired.hasDelete_of_refused (h : q.Wired) (hreg : q.register m = none)
    (hop : m.operation = .delete) (hdated : m.sourceGeneration.isSome)
    (hfresh : m.stale latest = false) : q.HasDelete latest m.path := by
  obtain ⟨existing, hex, hsup⟩ := exists_pending_of_register hreg
  have hkey : m.key = (.delete, m.path) := by rw [Mutation.key, hop]
  rw [hkey] at hex
  obtain ⟨hek, -⟩ := h.pending _ _ hex
  have hpath : m.path = existing.path := (congrArg Prod.snd hek).symm
  exact ⟨existing, h.pending_delete hex, hek, hex,
    not_stale_of_not_supersedes hsup hop (congrArg Prod.fst hek) hpath hdated hfresh⟩

theorem enqueueNew_grows (h : q.Wired) {path : String} {generation : Option ℕ}
    (hdated : operation = .delete ∨ operation = .dirDelete → generation.isSome) :
    Grows latest q (q.enqueueNew operation path generation) := by
  have hb : Grows latest q (q.build operation path 0 generation).2 := Grows.build h ..
  unfold enqueueNew
  simp only
  split
  · rename_i q₁ hreg
    exact hb.trans (hb.wired.register_put h.lt_build (Nat.le_refl _) hreg hdated)
  · exact hb

/-- An enqueued delete of the newest generation waits, or one as new does. -/
theorem enqueueNew_hasDelete (h : q.Wired) {path : String} (hlatest : (latest path).isSome) :
    (q.enqueueNew .delete path (latest path)).HasDelete latest path := by
  obtain ⟨g, hg⟩ := Option.isSome_iff_exists.1 hlatest
  have hb := h.build .delete path 0 (latest path)
  have hnot : (q.build .delete path 0 (latest path)).1.stale latest = false := by
    simp [Mutation.stale, build, hg]
  unfold enqueueNew
  simp only
  split
  · rename_i q₁ hreg
    refine ⟨_, (items_put q₁ _).mem_iff.2 List.mem_cons_self, rfl, ?_, hnot⟩
    exact pending_of_register hreg
  · rename_i hreg
    exact hb.hasDelete_of_refused hreg rfl hlatest hnot

theorem refreshPendingChange_grows (h : q.Wired) (path : String) (generation : Option ℕ) :
    Grows latest q (q.refreshPendingChange path generation) := by
  unfold refreshPendingChange
  split
  · rename_i m' hm'
    obtain ⟨g, existing, hex, rfl⟩ := Mutation.exists_of_refreshed hm'
    obtain ⟨hek, x, hx, hxid, hxk, -⟩ := h.pending _ _ hex
    refine ⟨⟨h.ids, h.idLe, fun key m hm => ?_, fun x hx hop => ?_, h.debounce, h.debounced,
      h.dated⟩, fun _ => id, ?_, fun _ => id⟩
    · simp only [Function.update_apply] at hm
      split at hm
      · rename_i hkey
        obtain rfl := Option.some.inj hm
        subst hkey
        exact ⟨hek, x, hx, hxid, hxk, nofun⟩
      · exact h.pending key m hm
    · obtain ⟨m, hm, hmid⟩ := h.owned x hx hop
      simp only [Function.update_apply]
      split
      · rename_i hkey
        rw [hkey, hex] at hm
        refine ⟨_, rfl, ?_⟩
        rw [← hmid, ← Option.some.inj hm]
      · exact ⟨m, hm, hmid⟩
    · rintro p ⟨m, hm, hkey, hpend, hfresh⟩
      refine ⟨m, hm, hkey, ?_, hfresh⟩
      have hne : ((.delete, p) : Operation × String) ≠ (.change, path) := by simp
      simp only [Function.update_apply]
      rw [if_neg hne]
      exact hpend
  · exact .refl h

theorem Wired.refresh_change (h : q.Wired) (path : String) (generation : Option ℕ)
    (hp : q.HasChange p) : (q.refreshPendingChange path generation).HasChange p := by
  have hgrows : Grows (fun _ => none) q (q.refreshPendingChange path generation) :=
    refreshPendingChange_grows h path generation
  exact hgrows.change p hp

theorem reserve_grows (h : q.Wired) (path : String) (generation : Option ℕ) :
    Grows latest q (q.reserve path generation) := by
  have hset : ∀ g, Grows latest q
      { q with reservedFollowUps := Function.update q.reservedFollowUps path (some g) } := by
    intro g
    refine ⟨⟨h.ids, h.idLe, h.pending, h.owned, h.debounce, h.debounced, h.dated⟩, fun _ => id,
      fun _ => id, fun p hp => ?_⟩
    simp only [Function.update_apply]
    split
    · exact Option.some_ne_none g
    · exact hp
  unfold reserve
  split
  · exact hset _
  · split
    · exact hset _
    · exact .refl h
  · exact .refl h

theorem reserve_wired (h : q.Wired) (path : String) (generation : Option ℕ) :
    (q.reserve path generation).Wired := by
  have hgrows : Grows (fun _ => none) q (q.reserve path generation) :=
    reserve_grows h path generation
  exact hgrows.wired

theorem reserve_ne_none (q : Queues) (path : String) (g : ℕ) :
    (q.reserve path (some g)).reservedFollowUps path ≠ none := by
  unfold reserve
  cases hr : q.reservedFollowUps path with
  | none => simp
  | some existing =>
    simp only
    split
    · simp
    · simp [hr]

theorem refreshPendingChange_reserved (q : Queues) (path : String) (generation : Option ℕ) :
    (q.refreshPendingChange path generation).reservedFollowUps = q.reservedFollowUps := by
  unfold refreshPendingChange
  split <;> rfl

/-! ## The functions of the pipeline -/

/-- A new change that waits for its debounce. -/
theorem Wired.register_debounce (h : q.Wired) (hid : ∀ x ∈ q.items, x.mutationId < m.mutationId)
    (hle : m.mutationId ≤ q.nextMutationId) (hop : m.operation = .change)
    (hreg : q.register m = some q₁) :
    Grows latest q { q₁ with
      pendingDebounce := Function.update q₁.pendingDebounce m.path true
      debounceTasks := q₁.debounceTasks ++ [m] } := by
  obtain ⟨hq₁, -⟩ := register_pending hreg
  have hitems : ({ q₁ with
      pendingDebounce := Function.update q₁.pendingDebounce m.path true
      debounceTasks := q₁.debounceTasks ++ [m] } : Queues).items.Perm (m :: q.items) := by
    rw [hq₁]
    unfold items
    rw [← List.append_assoc]
    exact (List.perm_append_singleton m _).append_right q.retryTasks
  have hdated : m.operation = .delete ∨ m.operation = .dirDelete →
      m.sourceGeneration.isSome := by
    rw [hop]
    simp
  refine h.adopt_grows hreg (h.adopt hreg hid ?_ hdated hitems rfl ?_ ?_) hitems rfl ?_
  · rw [hq₁]
    exact hle
  · rw [hq₁]
    intro x hx
    simp only [Function.update_apply]
    rcases List.mem_append.1 hx with hx | hx
    · obtain ⟨hxop, hxd⟩ := h.debounce x hx
      refine ⟨hxop, ?_⟩
      split
      · rfl
      · exact hxd
    · rw [List.mem_singleton.1 hx]
      exact ⟨hop, if_pos rfl⟩
  · rw [hq₁]
    intro p hp
    simp only [Function.update_apply] at hp
    split at hp
    · rename_i hpath
      exact ⟨m, List.mem_append_right _ (List.mem_singleton_self m), hpath.symm⟩
    · obtain ⟨x, hx, hxp⟩ := h.debounced p hp
      exact ⟨x, List.mem_append_left _ hx, hxp⟩
  · rw [hq₁]

theorem addFile_grows (h : q.Wired) (path : String) (priority : AddPriority)
    (generation : Option ℕ) (active : Bool) :
    Grows latest q (q.addFile path priority generation active).2 := by
  have hdated : priority.normalize.1 ≠ .delete ∧ priority.normalize.1 ≠ .dirDelete := by
    cases priority <;> simp [AddPriority.normalize]
  unfold addFile
  simp only
  generalize (if priority.normalize.1 = .change then generation else none) = dated
  have hb : Grows latest q (q.build priority.normalize.1 path 0 dated).2 := Grows.build h ..
  split
  · exact (hb.trans (reserve_grows hb.wired path generation)).trans
      (refreshPendingChange_grows (hb.trans (reserve_grows hb.wired path generation)).wired
        path generation)
  · split
    · exact hb.trans (refreshPendingChange_grows hb.wired path generation)
    · split
      · split
        · exact hb.trans (refreshPendingChange_grows hb.wired path generation)
        · exact hb
      · rename_i q₁ hreg
        split
        · rename_i hdeb
          have hop : priority.normalize.1 = .change := by
            cases priority <;> simp [AddPriority.normalize] at hdeb ⊢
          refine hb.trans (hb.wired.register_debounce ?_ (Nat.le_refl _) hop hreg)
          exact h.lt_build
        · refine hb.trans (hb.wired.register_put h.lt_build (Nat.le_refl _) hreg fun hop => ?_)
          rcases hop with hop | hop
          · exact absurd hop hdated.1
          · exact absurd hop hdated.2

/-- A change that is added waits, or is refused and reserved behind the reading of the path. -/
theorem addFile_change (h : q.Wired) (path : String) (generation : Option ℕ) (active : Bool) :
    (q.addFile path .change generation active).2.HasChange path ∨
      active = true ∧ (q.addFile path .change generation active).1 = false ∧
        (generation.isSome →
          (q.addFile path .change generation active).2.reservedFollowUps path ≠ none) := by
  have hw : (q.build .change path 0 generation).2.Wired := h.build ..
  unfold addFile
  simp only [AddPriority.normalize, if_true, true_and]
  split
  · rename_i hactive
    refine Or.inr ⟨hactive.1, rfl, fun hsome => ?_⟩
    obtain ⟨g, rfl⟩ := Option.isSome_iff_exists.1 hsome
    rw [refreshPendingChange_reserved]
    exact reserve_ne_none _ path g
  · refine Or.inl ?_
    split
    · rename_i hdeb
      obtain ⟨x, hx, hxp⟩ := hw.debounced path hdeb
      have hchange : (q.build .change path 0 generation).2.HasChange path :=
        ⟨x, mem_items.2 (Or.inr (Or.inl hx)), Or.inl (hw.debounce x hx).1, hxp⟩
      exact hw.refresh_change path generation hchange
    · split
      · rename_i hreg
        obtain ⟨existing, hex, -⟩ := exists_pending_of_register hreg
        exact hw.refresh_change path generation (hw.hasChange_of_pending (Or.inl rfl) hex)
      · exact ⟨_, mem_items.2 (Or.inr (Or.inl (List.mem_append_right _
          (List.mem_singleton_self _)))), Or.inl rfl, rfl⟩

theorem queueFollowUp_grows (h : q.Wired) (path : String) (g : ℕ) :
    Grows latest q (q.queueFollowUp path g) := by
  have hb : Grows latest q (q.build .change path 0 (some g)).2 := Grows.build h ..
  unfold queueFollowUp
  simp only
  split
  · exact hb.trans (refreshPendingChange_grows hb.wired path (some g))
  · rename_i q₁ hreg
    exact hb.trans (hb.wired.register_put h.lt_build (Nat.le_refl _) hreg fun hop => by
      simp [build] at hop)

theorem queueFollowUp_change (h : q.Wired) (path : String) (g : ℕ) :
    (q.queueFollowUp path g).HasChange path := by
  have hw : (q.build .change path 0 (some g)).2.Wired := h.build ..
  unfold queueFollowUp
  simp only
  split
  · rename_i hreg
    obtain ⟨existing, hex, -⟩ := exists_pending_of_register hreg
    exact hw.refresh_change path (some g) (hw.hasChange_of_pending (Or.inl rfl) hex)
  · exact ⟨_, (items_put _ _).mem_iff.2 List.mem_cons_self, Or.inl rfl, rfl⟩

/-- Draining turns a reserved follow-up into a change that waits. -/
theorem drain_spec (h : q.Wired) (path : String) :
    (q.drain path).Wired ∧ (∀ p, q.HasChange p → (q.drain path).HasChange p) ∧
      (∀ p, q.HasDelete latest p → (q.drain path).HasDelete latest p) ∧
      (q.reservedFollowUps path ≠ none → (q.drain path).HasChange path) := by
  unfold drain
  split
  · rename_i hnone
    exact ⟨h, fun _ => id, fun _ => id, fun hr => absurd hnone hr⟩
  · rename_i g hg
    have hw : ({ q with
        reservedFollowUps := Function.update q.reservedFollowUps path none } : Queues).Wired :=
      ⟨h.ids, h.idLe, h.pending, h.owned, h.debounce, h.debounced, h.dated⟩
    have hgrows : Grows latest _ (queueFollowUp _ path g) := queueFollowUp_grows hw path g
    exact ⟨hgrows.wired, fun p hp => hgrows.change p hp, fun p hp => hgrows.delete p hp,
      fun _ => queueFollowUp_change hw path g⟩

theorem drain_wired (h : q.Wired) (path : String) : (q.drain path).Wired := by
  obtain ⟨hwired, -⟩ : (q.drain path).Wired ∧ (∀ p, q.HasChange p → _) ∧
      (∀ p, q.HasDelete (fun _ => none) p → _) ∧ _ := drain_spec h path
  exact hwired

/-- A retry of a mutation that is given up for now : it waits, or one in its place does. -/
theorem scheduleRetry_spec (h : q.Wired)
    (hdated : m.operation = .delete ∨ m.operation = .dirDelete → m.sourceGeneration.isSome)
    (hs : q.scheduleRetry m = some q') :
    Grows latest q q' ∧ (∀ p, m.Reads p → q'.HasChange p) ∧
      (m.operation = .delete → m.stale latest = false → q'.HasDelete latest m.path) := by
  have hb : Grows latest q (q.build m.operation m.path (m.retryCount + 1)
    m.sourceGeneration).2 := Grows.build h ..
  unfold scheduleRetry at hs
  simp only at hs
  split at hs
  · cases hs
  · split at hs
    · rename_i hreg
      obtain rfl := Option.some.inj hs
      refine ⟨hb, fun p hreads => ?_, fun hop hfresh => ?_⟩
      · obtain ⟨existing, hex, -⟩ := exists_pending_of_register hreg
        obtain ⟨hop, rfl⟩ := hreads
        exact hb.wired.hasChange_of_pending hop hex
      · exact hb.wired.hasDelete_of_refused
          (m := (q.build m.operation m.path (m.retryCount + 1) m.sourceGeneration).1) hreg hop
          (hdated (Or.inl hop)) hfresh
    · rename_i q₁ hreg
      obtain rfl := Option.some.inj hs
      refine ⟨hb.trans (hb.wired.register_retry h.lt_build (Nat.le_refl _) hreg hdated),
        fun p hreads => ?_, fun hop hfresh => ?_⟩
      · exact ⟨_, (items_retry q₁ _).mem_iff.2 List.mem_cons_self, hreads⟩
      · have hpend := pending_of_register hreg
        have hkey : (q.build m.operation m.path (m.retryCount + 1) m.sourceGeneration).1.key =
            (.delete, m.path) := by
          rw [← hop]
          rfl
        rw [hkey] at hpend
        exact ⟨_, (items_retry q₁ _).mem_iff.2 List.mem_cons_self, hkey, hpend, hfresh⟩

variable {i : ℕ}

theorem items_debounce (hi : q.debounceTasks[i]? = some m) : q.items.Perm (m ::
    (q.fileQueue ++ q.debounceTasks.eraseIdx i ++ q.retryTasks)) := by
  obtain ⟨hlt, rfl⟩ := List.getElem?_eq_some_iff.1 hi
  have hperm := (List.getElem_cons_eraseIdx_perm hlt).symm
  unfold items
  refine ((hperm.append_left q.fileQueue).append_right q.retryTasks).trans ?_
  simp [List.append_assoc]

theorem items_retryTask (hi : q.retryTasks[i]? = some m) : q.items.Perm (m ::
    (q.fileQueue ++ q.debounceTasks ++ q.retryTasks.eraseIdx i)) := by
  obtain ⟨hlt, rfl⟩ := List.getElem?_eq_some_iff.1 hi
  have hperm := (List.getElem_cons_eraseIdx_perm hlt).symm
  unfold items
  refine (hperm.append_left (q.fileQueue ++ q.debounceTasks)).trans ?_
  exact List.perm_middle

/-- No other debounce waits for the path of one : both would be the registered change of it. -/
theorem Wired.debounce_other (h : q.Wired) (hi : q.debounceTasks[i]? = some m)
    {x : Mutation} (hx : x ∈ q.debounceTasks.eraseIdx i) : x.path ≠ m.path := by
  intro hpath
  have hmem : m ∈ q.debounceTasks := List.mem_of_getElem? hi
  have hxmem : x ∈ q.debounceTasks := List.mem_of_mem_eraseIdx hx
  have hop := (h.debounce m hmem).1
  have hxop := (h.debounce x hxmem).1
  have hkey : x.key = m.key := by rw [Mutation.key, Mutation.key, hxop, hop, hpath]
  obtain ⟨c, hc, hcid⟩ := h.owned m (mem_items.2 (Or.inr (Or.inl hmem))) (by simp [hop])
  obtain ⟨c', hc', hid⟩ := h.owned x (mem_items.2 (Or.inr (Or.inl hxmem))) (by simp [hxop])
  rw [hkey, hc] at hc'
  have heq : x.mutationId = m.mutationId := by
    rw [← hid, ← Option.some.inj hc', hcid]
  exact h.id_ne (items_debounce hi) x (List.mem_append_left _ (List.mem_append_right _ hx)) heq

theorem debounceFires_grows (h : q.Wired) (hf : q.debounceFires i = some q') :
    Grows latest q q' := by
  obtain ⟨m, hi, hq'⟩ := Option.map_eq_some_iff.1 hf
  have hmem : m ∈ q.debounceTasks := List.mem_of_getElem? hi
  have hitems := items_debounce hi
  obtain ⟨hop, hdeb⟩ := h.debounce m hmem
  obtain ⟨c, hc, hcid⟩ := h.owned m (mem_items.2 (Or.inr (Or.inl hmem))) (by simp [hop])
  obtain ⟨hck, -⟩ := h.pending _ _ hc
  have howns : owns { q with
      debounceTasks := q.debounceTasks.eraseIdx i
      pendingDebounce := Function.update q.pendingDebounce m.path false } c = true := by
    simp [owns, Mutation.isCurrent, hck, hc]
  simp only [hdeb, if_true, hc, Option.getD_some, howns] at hq'
  subst hq'
  have hitems' := items_put { q with
      debounceTasks := q.debounceTasks.eraseIdx i
      pendingDebounce := Function.update q.pendingDebounce m.path false } c
  have hsame : m.operation = .delete ∨ m.operation = .dirDelete → c = m := by
    rw [hop]
    simp
  refine Wired.move_grows (h.move hitems hitems' hcid hck hsame rfl rfl ?_ ?_) hitems hitems' hck
    hsame rfl rfl
  · intro x hx
    obtain ⟨hxop, hxd⟩ := h.debounce x (List.mem_of_mem_eraseIdx hx)
    have hne := h.debounce_other hi hx
    refine ⟨hxop, ?_⟩
    show Function.update q.pendingDebounce m.path false x.path = true
    rw [Function.update_apply, if_neg hne]
    exact hxd
  · intro p hp
    change Function.update q.pendingDebounce m.path false p = true at hp
    rw [Function.update_apply] at hp
    split at hp
    · cases hp
    · rename_i hne
      obtain ⟨x, hx, hxp⟩ := h.debounced p hp
      obtain ⟨hlt, hm⟩ := List.getElem?_eq_some_iff.1 hi
      have hperm := (List.getElem_cons_eraseIdx_perm hlt).symm
      rcases List.mem_cons.1 (hperm.mem_iff.1 hx) with rfl | hx
      · rw [hm] at hxp
        exact absurd hxp.symm hne
      · exact ⟨x, hx, hxp⟩

/-- A retry that no longer owns its path is dropped. -/
theorem dropRetry_grows (h : q.Wired) (hi : q.retryTasks[i]? = some m) (hnot : q.owns m = false) :
    Grows latest q { q with retryTasks := q.retryTasks.eraseIdx i } := by
  have hmem : m ∈ q.items := mem_items.2 (Or.inr (Or.inr (List.mem_of_getElem? hi)))
  have hitems := items_retryTask hi
  have hrelease : q.release m = q := by
    unfold release
    rw [hnot]
    rfl
  have hpending : ({ q with retryTasks := q.retryTasks.eraseIdx i } : Queues).pendingMutations =
      (q.release m).pendingMutations := by rw [hrelease]
  refine ⟨h.remove hitems (.refl _) hpending rfl h.debounce h.debounced, fun p hp => ?_,
    fun p hp => ?_, fun _ => id⟩
  · refine (hasChange_of_remove hitems (.refl _) hp).resolve_right fun hreads => ?_
    have hop : m.operation ≠ .delete := by
      rcases hreads.1 with hop | hop <;> simp [hop]
    obtain ⟨c, hc, hcid⟩ := h.owned m hmem hop
    simp [owns, Mutation.isCurrent, hc, hcid] at hnot
  · refine (h.hasDelete_of_remove hitems (.refl _) hpending hp).resolve_right fun hd => ?_
    rw [hnot] at hd
    exact Bool.noConfusion hd.2.1

/-- `m` waits no longer, and only it is lost. -/
structure Taken (latest : Generations) (q q' : Queues) (m : Mutation) (owned : Bool) : Prop where
  wired : q'.Wired
  change : ∀ p, q.HasChange p → q'.HasChange p ∨ m.Reads p
  delete : ∀ p, q.HasDelete latest p → q'.HasDelete latest p ∨
    (m.key = (.delete, p) ∧ owned = true ∧ m.stale latest = false)
  reserved : q'.reservedFollowUps = q.reservedFollowUps
  dated : m.operation = .delete ∨ m.operation = .dirDelete → m.sourceGeneration.isSome

/-- A retry is given up and released. -/
theorem releaseRetry_taken (h : q.Wired) (hi : q.retryTasks[i]? = some m) :
    Taken latest q (release { q with retryTasks := q.retryTasks.eraseIdx i } m) m (q.owns m) := by
  have hmem : m ∈ q.items := mem_items.2 (Or.inr (Or.inr (List.mem_of_getElem? hi)))
  have hitems := items_retryTask hi
  have howns : owns { q with retryTasks := q.retryTasks.eraseIdx i } m = q.owns m := rfl
  have hpending :
      (release { q with retryTasks := q.retryTasks.eraseIdx i } m).pendingMutations =
      (q.release m).pendingMutations := by
    unfold release
    rw [howns]
    split <;> rfl
  have hrest : (release { q with retryTasks := q.retryTasks.eraseIdx i } m).items.Perm
      (q.fileQueue ++ q.debounceTasks ++ q.retryTasks.eraseIdx i) := by
    unfold release
    split <;> exact .refl _
  have hother : ∀ x : Queues, x = release { q with retryTasks := q.retryTasks.eraseIdx i } m →
      x.nextMutationId = q.nextMutationId ∧ x.debounceTasks = q.debounceTasks ∧
        x.pendingDebounce = q.pendingDebounce ∧ x.reservedFollowUps = q.reservedFollowUps := by
    rintro x rfl
    unfold release
    split <;> exact ⟨rfl, rfl, rfl, rfl⟩
  obtain ⟨hnext, htasks, hdeb, hres⟩ := hother _ rfl
  refine ⟨h.remove hitems hrest hpending hnext ?_ ?_, fun p hp => ?_, fun p hp => ?_, hres,
    h.dated m hmem⟩
  · rw [htasks, hdeb]
    exact h.debounce
  · rw [htasks, hdeb]
    exact h.debounced
  · exact hasChange_of_remove hitems hrest hp
  · exact h.hasDelete_of_remove hitems hrest hpending hp

/-- A stale delete is released. -/
theorem releaseRetry_grows (h : q.Wired) (hi : q.retryTasks[i]? = some m)
    (hop : m.operation = .delete) (hstale : m.stale latest = true) :
    Grows latest q (release { q with retryTasks := q.retryTasks.eraseIdx i } m) := by
  have ht : Taken latest q _ m (q.owns m) := releaseRetry_taken h hi
  refine ⟨ht.wired, fun p hp => ?_, fun p hp => ?_, fun p hp => by rwa [ht.reserved]⟩
  · refine (ht.change p hp).resolve_right fun hreads => ?_
    rcases hreads.1 with hread | hread <;> simp [hread] at hop
  · refine (ht.delete p hp).resolve_right fun hd => ?_
    rw [hstale] at hd
    exact Bool.noConfusion hd.2.2

/-- Where the staleness check raises, a delete is lost. -/
theorem retryRaises_taken (h : q.Wired) (hf : q.retryRaises i = some q') :
    ∃ m, q.retryTasks[i]? = some m ∧ m.operation = .delete ∧ Taken latest q q' m true := by
  obtain ⟨m, hi, hq'⟩ := Option.bind_eq_some_iff.1 hf
  have howns : owns { q with retryTasks := q.retryTasks.eraseIdx i } m = q.owns m := rfl
  simp only [howns] at hq'
  split at hq'
  · rename_i howned
    obtain rfl := Option.some.inj hq'
    have ht : Taken latest q _ m (q.owns m) := releaseRetry_taken h hi
    rw [howned.1] at ht
    exact ⟨m, hi, howned.2, ht⟩
  · cases hq'

theorem retryFires_grows (h : q.Wired) (hf : q.retryFires latest i = some q') :
    Grows latest q q' := by
  obtain ⟨m, hi, hq'⟩ := Option.map_eq_some_iff.1 hf
  have howns : owns { q with retryTasks := q.retryTasks.eraseIdx i } m = q.owns m := rfl
  simp only [howns] at hq'
  split at hq'
  · rename_i hnot
    subst hq'
    exact dropRetry_grows h hi (by simpa using hnot)
  · split at hq'
    · rename_i hstale
      rw [Bool.and_eq_true, decide_eq_true_eq] at hstale
      subst hq'
      exact releaseRetry_grows h hi hstale.1 hstale.2
    · subst hq'
      have hitems := items_retryTask hi
      have hitems' := items_put { q with retryTasks := q.retryTasks.eraseIdx i } m
      exact Wired.move_grows (h.move hitems hitems' rfl rfl (fun _ => rfl) rfl rfl h.debounce
        h.debounced) hitems hitems' rfl (fun _ => rfl) rfl rfl

end Wired

/-! ## Taking mutations from the queue -/

theorem popMin_eq_none : ∀ {ms : List Mutation}, popMin ms = none → ms = []
  | [], _ => rfl
  | m :: ms, h => by
    unfold popMin at h
    split at h
    · cases h
    · split at h <;> cases h

theorem popMin_perm : ∀ {ms rest : List Mutation} {m : Mutation}, popMin ms = some (m, rest) →
    ms.Perm (m :: rest)
  | [], _, _, h => nomatch h
  | x :: xs, rest, m, h => by
    unfold popMin at h
    split at h
    · rename_i hnone
      obtain ⟨rfl, rfl⟩ := Prod.mk.inj (Option.some.inj h)
      rw [popMin_eq_none hnone]
    · rename_i n others hpop
      split at h
      · obtain ⟨rfl, rfl⟩ := Prod.mk.inj (Option.some.inj h)
        exact .refl _
      · obtain ⟨rfl, rfl⟩ := Prod.mk.inj (Option.some.inj h)
        exact ((popMin_perm hpop).cons x).trans (.swap n x others)

theorem forProcessing_spec (m : Mutation) (latest : Generations) :
    (m.forProcessing latest).mutationId = m.mutationId ∧ (m.forProcessing latest).key = m.key ∧
      (m.operation = .delete ∨ m.operation = .dirDelete → m.forProcessing latest = m) := by
  unfold Mutation.forProcessing
  split
  · rename_i hop
    refine ⟨?_, ?_, fun hd => ?_⟩
    · split <;> rfl
    · split <;> rfl
    · rcases hop with hop | hop <;> simp [hop] at hd
  · exact ⟨rfl, rfl, fun _ => rfl⟩

theorem dequeue_taken {q q' : Queues} {m : Mutation} {owned : Bool}
    (h : q.Wired) (hd : q.dequeue latest = some (m, owned, q')) : Taken latest q q' m owned := by
  obtain ⟨⟨x, rest⟩, hpop, heq⟩ := Option.map_eq_some_iff.1 hd
  obtain ⟨rfl, hrest⟩ := Prod.mk.inj heq
  obtain ⟨rfl, rfl⟩ := Prod.mk.inj hrest
  obtain ⟨hid, hkey, hsame⟩ := forProcessing_spec x latest
  have hop : (x.forProcessing latest).operation = x.operation := congrArg Prod.fst hkey
  have hpath : (x.forProcessing latest).path = x.path := congrArg Prod.snd hkey
  have hitems : q.items.Perm (x :: (rest ++ q.debounceTasks ++ q.retryTasks)) :=
    ((popMin_perm hpop).append_right q.debounceTasks).append_right q.retryTasks
  have howns : owns { q with fileQueue := rest } (x.forProcessing latest) = q.owns x := by
    unfold owns Mutation.isCurrent
    rw [hkey, hid]
  have hrelease : ∀ r : Queues,
      r = release { q with fileQueue := rest } (x.forProcessing latest) →
      r.pendingMutations = (q.release x).pendingMutations ∧
        r.items = rest ++ q.debounceTasks ++ q.retryTasks ∧
        r.nextMutationId = q.nextMutationId ∧ r.debounceTasks = q.debounceTasks ∧
        r.pendingDebounce = q.pendingDebounce ∧ r.reservedFollowUps = q.reservedFollowUps := by
    rintro r rfl
    unfold release
    rw [howns, hkey]
    split <;> exact ⟨rfl, rfl, rfl, rfl, rfl, rfl⟩
  obtain ⟨hpending, hleft, hnext, htasks, hdeb, hres⟩ := hrelease _ rfl
  have hitems' := List.Perm.of_eq hleft
  have hmem : x ∈ q.items := hitems.mem_iff.2 List.mem_cons_self
  refine ⟨h.remove hitems hitems' hpending hnext ?_ ?_, fun p hp => ?_, fun p hp => ?_, hres,
    fun hd => ?_⟩
  · rw [htasks, hdeb]
    exact h.debounce
  · rw [htasks, hdeb]
    exact h.debounced
  · refine (hasChange_of_remove hitems hitems' hp).imp_right fun hreads => ?_
    rw [Mutation.Reads, hop, hpath]
    exact hreads
  · refine (h.hasDelete_of_remove hitems hitems' hpending hp).imp_right fun ⟨hxk, hxo, hxs⟩ => ?_
    rw [hsame (Or.inl (congrArg Prod.fst hxk))] at howns ⊢
    exact ⟨hxk, howns.trans hxo, hxs⟩
  · rw [hop] at hd
    rw [hsame hd]
    exact h.dated x hmem hd

/-- What a batch of deletes takes : deletes, and one more mutation that is kept aside. -/
structure Collected (latest : Generations) (q : Queues) (batch : List (Mutation × Bool))
    (r : List (Mutation × Bool) × Option (Mutation × Bool) × Queues) : Prop where
  wired : r.2.2.Wired
  batched : ∀ d ∈ batch, d ∈ r.1
  deletes : ∀ d ∈ r.1, d ∈ batch ∨ d.1.operation = .delete ∧ d.1.sourceGeneration.isSome
  change : ∀ p, q.HasChange p → r.2.2.HasChange p ∨ ∃ d, r.2.1 = some d ∧ d.1.Reads p
  delete : ∀ p, q.HasDelete latest p → r.2.2.HasDelete latest p ∨
    ∃ d ∈ r.1, d.1.key = (.delete, p) ∧ d.2 = true ∧ d.1.stale latest = false
  reserved : r.2.2.reservedFollowUps = q.reservedFollowUps
  buffered : ∀ d, r.2.1 = some d → d.1.operation ≠ .delete ∧
    (d.1.operation = .dirDelete → d.1.sourceGeneration.isSome)

theorem Collected.done {q : Queues} (h : q.Wired)
    (batch : List (Mutation × Bool)) : Collected latest q batch (batch, none, q) :=
  ⟨h, fun _ => id, fun _ => Or.inl, fun _ => Or.inl, fun _ => Or.inl, rfl,
    fun _ hd => nomatch hd⟩

theorem collectDeletes_collected (latest : Generations) : ∀ (n : ℕ) {q : Queues}
    (batch : List (Mutation × Bool)), q.Wired →
    Collected latest q batch (collectDeletes latest n q batch)
  | 0, _, batch, h => .done h batch
  | n + 1, q, batch, h => by
    unfold collectDeletes
    split
    · exact .done h batch
    · rename_i m owned q₁ hd
      have ht := dequeue_taken h hd
      split
      · rename_i hop
        have ih := collectDeletes_collected latest n (batch ++ [(m, owned)]) ht.wired
        refine ⟨ih.wired, fun d hmem => ih.batched d (List.mem_append_left _ hmem),
          fun d hmem => ?_, fun p hp => ?_, fun p hp => ?_, ih.reserved.trans ht.reserved,
          ih.buffered⟩
        · rcases ih.deletes d hmem with hold | hnew
          · rcases List.mem_append.1 hold with hold | hm
            · exact Or.inl hold
            · rw [List.mem_singleton.1 hm]
              exact Or.inr ⟨hop, ht.dated (Or.inl hop)⟩
          · exact Or.inr hnew
        · refine ih.change p ((ht.change p hp).resolve_right fun hreads => ?_)
          rcases hreads.1 with hm | hm <;> simp [hop] at hm
        · rcases ht.delete p hp with hstill | ⟨hkey, howned, hfresh⟩
          · exact ih.delete p hstill
          · exact Or.inr ⟨(m, owned), ih.batched _ (List.mem_append_right _
              (List.mem_singleton_self _)), hkey, howned, hfresh⟩
      · rename_i hop
        refine ⟨ht.wired, fun _ => id, fun _ => Or.inl, fun p hp => ?_, fun p hp => ?_,
          ht.reserved, fun d hd => ?_⟩
        · exact (ht.change p hp).imp_right fun hreads => ⟨_, rfl, hreads⟩
        · refine Or.inl ((ht.delete p hp).resolve_right fun hd => hop ?_)
          exact congrArg Prod.fst hd.1
        · rw [← Option.some.inj hd]
          exact ⟨hop, fun hdir => ht.dated (Or.inr hdir)⟩

end Queues

end ChunkHound
