import ChunkHound.StepSystem
import Mathlib

/-!
# Embedding batches under a semaphore

`_generate_embeddings_in_batches` of `embedding_service.py`. One task a batch calls
`process_batch`, which takes a permit of the semaphore, asks the provider, and on a
token-limit error calls itself on both halves, one after the other, with the permit still
held. `callsOf` is the tree of the calls a batch makes under a pattern of errors.

The semaphore is first come, first served : an `asyncio.Semaphore` with waiters makes a new
one wait its turn.

The tasks can all end up waiting exactly when the depths of the trees sum to the capacity at
least (`neverStuck_iff`).
-/

namespace ChunkHound.BatchSemaphore

open StepSystem

/-! ## The calls of a batch -/

/-- The calls `process_batch` makes : one, and on a token-limit error one for each half. -/
inductive Calls
  | once
  | split (first second : Calls)
  deriving DecidableEq, Repr

/-- How many calls are open at once at most, the outermost apart. -/
def Calls.depth : Calls → ℕ
  | .once => 0
  | .split a b => max a.depth b.depth + 1

/-- A batch of `(chunk_id, text)` pairs. -/
abbrev Batch := List (ℕ × String)

/-- Whether the provider answers a call with a token-limit error. A call is named by the
halves that lead to it, `false` for the first. -/
abbrev Pattern := List Bool → Bool

/-- The calls for a batch with `retries` splits left. -/
def callsFrom (fails : Pattern) : ℕ → List Bool → Batch → Calls
  | 0, _, _ => .once
  | retries + 1, path, batch =>
    if fails path ∧ 1 < batch.length then
      let mid := batch.length / 2
      .split (callsFrom fails retries (path ++ [false]) (batch.take mid))
        (callsFrom fails retries (path ++ [true]) (batch.drop mid))
    else .once

/-- `process_batch(batch, batch_num)` : at most three nested splits. -/
def callsOf (fails : Pattern) (batch : Batch) : Calls := callsFrom fails 3 [] batch

/-! ## The tasks and the semaphore -/

/-- A task. Each frame is a call that holds a permit while one of its halves runs, with the
second half when that is still to come. -/
inductive Task
  | waiting (call : Calls) (frames : List (Option Calls))
  | running (call : Calls) (frames : List (Option Calls))
  | done
  deriving DecidableEq, Repr

/-- The permits a task holds. -/
def Task.held : Task → ℕ
  | .waiting _ frames => frames.length
  | .running _ frames => frames.length + 1
  | .done => 0

structure State where
  free : ℕ
  queue : List ℕ
  tasks : List Task
  deriving DecidableEq, Repr

inductive Action
  | grant
  | answer (i : ℕ)
  deriving DecidableEq, Repr

/-- A call of task `i` has returned and released its permit. -/
def State.finish (s : State) (i : ℕ) : List (Option Calls) → State
  | [] => { s with tasks := s.tasks.set i .done }
  | some second :: frames =>
    { s with
      queue := s.queue ++ [i]
      tasks := s.tasks.set i (.waiting second (none :: frames)) }
  | none :: frames => State.finish { s with free := s.free + 1 } i frames

/-- The next waiter gets a permit, or the provider answers a call. -/
def step (s : State) : Action → Option State
  | .grant =>
    match s.free, s.queue with
    | free + 1, i :: queue =>
      match s.tasks[i]? with
      | some (.waiting call frames) =>
        some ⟨free, queue, s.tasks.set i (.running call frames)⟩
      | _ => none
    | _, _ => none
  | .answer i =>
    match s.tasks[i]? with
    | some (.running (.split first second) frames) =>
      some { s with
        queue := s.queue ++ [i]
        tasks := s.tasks.set i (.waiting first (some second :: frames)) }
    | some (.running .once frames) => some (State.finish { s with free := s.free + 1 } i frames)
    | _ => none

/-- `asyncio.gather` has started every task, and each asks for its first permit. -/
def start (capacity : ℕ) (calls : List Calls) : State :=
  ⟨capacity, List.range calls.length, calls.map fun call => .waiting call []⟩

/-- Some task is not finished, and all that are not wait for a permit. -/
def Stuck (s : State) : Prop :=
  s.free = 0 ∧ (∃ t ∈ s.tasks, t ≠ .done) ∧
    ∀ t ∈ s.tasks, t = .done ∨ ∃ call frames, t = .waiting call frames

/-- The task holds no permit, or finishes without another one. -/
def FinishesAlone (t : Task) : Prop :=
  t.held = 0 ∨ ∃ frames, t = .running .once frames ∧ ∀ frame ∈ frames, frame = none

/-! ## No deadlock below the capacity -/

/-- The second halves to come fit below `depth`. -/
def FramesWithin (depth : ℕ) : List (Option Calls) → Prop
  | [] => True
  | some second :: frames =>
    frames.length + 1 + second.depth ≤ depth ∧ FramesWithin depth frames
  | none :: frames => FramesWithin depth frames

/-- A task has open calls within the depth of its tree. -/
def Within (depth : ℕ) : Task → Prop
  | .waiting call frames => frames.length + call.depth ≤ depth ∧ FramesWithin depth frames
  | .running call frames => frames.length + call.depth ≤ depth ∧ FramesWithin depth frames
  | .done => True

def total (tasks : List Task) : ℕ := (tasks.map Task.held).sum

/-- Every permit is free or held, and every task is within its depth. -/
structure Accounted (capacity : ℕ) (calls : List Calls) (s : State) : Prop where
  permits : s.free + total s.tasks = capacity
  within : List.Forall₂ (fun t call => Within (Calls.depth call) t) s.tasks calls

theorem forall₂_set {α β : Type*} {R : α → β → Prop} {x : α} :
    ∀ {as : List α} {bs : List β} (i : ℕ), List.Forall₂ R as bs →
      (∀ y a, as[i]? = some a → R a y → R x y) → List.Forall₂ R (as.set i x) bs
  | _, _, _, .nil, _ => .nil
  | a :: _, y :: _, 0, .cons h hrest, hx => .cons (hx y a rfl h) hrest
  | _ :: _, _ :: _, i + 1, .cons h hrest, hx => .cons h (forall₂_set i hrest hx)

theorem total_set {t x : Task} : ∀ {tasks : List Task} (i : ℕ), tasks[i]? = some t →
    total (tasks.set i x) + t.held = total tasks + x.held
  | [], _, h => by cases h
  | a :: tasks, 0, h => by
    obtain rfl := Option.some.inj h
    simp only [total, List.set_cons_zero, List.map_cons, List.sum_cons]
    omega
  | a :: tasks, i + 1, h => by
    have ih : total (tasks.set i x) + t.held = total tasks + x.held := total_set i h
    simp only [total, List.set_cons_succ, List.map_cons, List.sum_cons] at *
    omega

theorem finish_total {t : Task} {i : ℕ} : ∀ {s : State} (frames : List (Option Calls)),
    s.tasks[i]? = some t →
    (s.finish i frames).free + total (s.finish i frames).tasks + t.held =
      s.free + total s.tasks + frames.length
  | s, [], h => by
    have hset := total_set (x := .done) i h
    simp only [State.finish, Task.held, List.length_nil] at *
    omega
  | s, some second :: frames, h => by
    have hset := total_set (x := .waiting second (none :: frames)) i h
    simp only [State.finish, Task.held, List.length_cons] at *
    omega
  | s, none :: frames, h => by
    have ih := finish_total (s := { s with free := s.free + 1 }) frames h
    simp only [State.finish, List.length_cons] at *
    omega

variable {calls : List Calls}

theorem finish_within {i : ℕ} : ∀ {s : State} (frames : List (Option Calls)),
    List.Forall₂ (fun t call => Within (Calls.depth call) t) s.tasks calls →
    (∀ t call, s.tasks[i]? = some t → Within (Calls.depth call) t →
      FramesWithin call.depth frames) →
    List.Forall₂ (fun t call => Within (Calls.depth call) t) (s.finish i frames).tasks calls
  | s, [], h, _ => forall₂_set i h fun _ _ _ _ => trivial
  | s, some second :: frames, h, hframes => by
    refine forall₂_set i h fun call t ht hw => ?_
    obtain ⟨hsecond, hrest⟩ := hframes t call ht hw
    exact ⟨by rwa [List.length_cons], hrest⟩
  | s, none :: frames, h, hframes =>
    finish_within (s := { s with free := s.free + 1 }) frames h hframes

theorem accounted_start (capacity : ℕ) (calls : List Calls) :
    Accounted capacity calls (start capacity calls) where
  permits := by
    have hzero : total (calls.map fun call => Task.waiting call []) = 0 := by
      simp [total, Task.held, Function.comp_def]
    rw [start, hzero, Nat.add_zero]
  within := by
    rw [start, List.forall₂_map_left_iff, List.forall₂_same]
    intro call _
    exact ⟨by simp, trivial⟩

variable {capacity : ℕ}

theorem accounted_step {s s' : State} {a : Action}
    (h : Accounted capacity calls s) (hs : step s a = some s') : Accounted capacity calls s' := by
  have hpermits := h.permits
  cases a with
  | grant =>
    simp only [step] at hs
    split at hs
    · rename_i free i queue hfree hqueue
      split at hs
      · rename_i call frames ht
        obtain rfl := Option.some.inj hs
        have hset := total_set (x := .running call frames) i ht
        refine ⟨?_, forall₂_set i h.within fun y t hti hw => ?_⟩
        · simp only [Task.held] at *
          omega
        · obtain rfl := Option.some.inj (ht.symm.trans hti)
          exact hw
      · cases hs
    · cases hs
  | answer i =>
    simp only [step] at hs
    split at hs
    · rename_i first second frames ht
      obtain rfl := Option.some.inj hs
      have hset := total_set (x := .waiting first (some second :: frames)) i ht
      refine ⟨?_, forall₂_set i h.within fun y t hti hw => ?_⟩
      · simp only [Task.held, List.length_cons] at *
        omega
      · obtain rfl := Option.some.inj (ht.symm.trans hti)
        obtain ⟨hdepth, hframes⟩ := hw
        simp only [Calls.depth] at hdepth
        refine ⟨?_, ?_, hframes⟩
        · rw [List.length_cons]
          omega
        · omega
    · rename_i frames ht
      obtain rfl := Option.some.inj hs
      have hfinish := finish_total (s := { s with free := s.free + 1 }) frames ht
      refine ⟨?_, finish_within frames h.within fun t call hti hw => ?_⟩
      · simp only [Task.held] at *
        omega
      · obtain rfl := Option.some.inj (ht.symm.trans hti)
        exact hw.2
    · cases hs

variable {s : State}

theorem accounted_of_reach (h : Reach step (start capacity calls) s) : Accounted capacity calls s :=
  h.invariant (accounted_start capacity calls) fun _ _ _ hs _ hstep => accounted_step hs hstep

/-- Waiting tasks hold no more permits than their depths. -/
theorem total_le_of_stuck : ∀ {tasks : List Task} {calls : List Calls},
    List.Forall₂ (fun t call => Within (Calls.depth call) t) tasks calls →
    (∀ t ∈ tasks, t = .done ∨ ∃ call frames, t = .waiting call frames) →
    total tasks ≤ (calls.map Calls.depth).sum
  | [], [], .nil, _ => Nat.le_refl 0
  | t :: ts, call :: calls, .cons hw h, hwait => by
    have hrest := total_le_of_stuck h fun t ht => hwait t (List.mem_cons_of_mem _ ht)
    have hhead : t.held ≤ call.depth := by
      rcases hwait t List.mem_cons_self with rfl | ⟨c, frames, rfl⟩
      · exact Nat.zero_le _
      · have hle := hw.1
        simp only [Task.held]
        omega
    simp only [total, List.map_cons, List.sum_cons] at *
    omega

theorem not_stuck
    (hlt : (calls.map Calls.depth).sum < capacity) (h : Reach step (start capacity calls) s) :
    ¬Stuck s := by
  rintro ⟨hfree, -, hwait⟩
  have hacc := accounted_of_reach h
  have hpermits := hacc.permits
  have hle := total_le_of_stuck hacc.within hwait
  omega

/-! ## Runs of one task -/

section Runs

variable {s₀ : State} {pre post : List Task} {q : List ℕ} {f : ℕ}

theorem step_grant (call : Calls) (frames : List (Option Calls)) :
    step ⟨f + 1, pre.length :: q, pre ++ .waiting call frames :: post⟩ .grant =
      some ⟨f, q, pre ++ .running call frames :: post⟩ := by
  simp [step]

theorem step_split (first second : Calls) (frames : List (Option Calls)) :
    step ⟨f, q, pre ++ .running (.split first second) frames :: post⟩ (.answer pre.length) =
      some ⟨f, q ++ [pre.length], pre ++ .waiting first (some second :: frames) :: post⟩ := by
  simp [step]

theorem finish_replace (t t' : Task) : ∀ (f : ℕ) (frames : List (Option Calls)),
    State.finish ⟨f, q, pre ++ t :: post⟩ pre.length frames =
      State.finish ⟨f, q, pre ++ t' :: post⟩ pre.length frames
  | f, [] => by simp [State.finish]
  | f, some second :: frames => by simp [State.finish]
  | f, none :: frames => finish_replace t t' (f + 1) frames

theorem step_once (frames : List (Option Calls)) :
    step ⟨f, q, pre ++ .running .once frames :: post⟩ (.answer pre.length) =
      some (State.finish ⟨f + 1, q, pre ++ .done :: post⟩ pre.length frames) := by
  rw [finish_replace .done (.running .once frames)]
  simp [step]

/-- A split call waits for the permit of its first half, and gets it. -/
theorem reach_first {first second : Calls} {frames : List (Option Calls)}
    (h : Reach step s₀ ⟨f + 1, [], pre ++ .running (.split first second) frames :: post⟩) :
    Reach step s₀ ⟨f, [], pre ++ .running first (some second :: frames) :: post⟩ := by
  have hwait := h.step trivial (step_split first second frames)
  exact hwait.step trivial (step_grant first (some second :: frames))

/-- With as many free permits as its depth, a call returns. -/
theorem reach_finish : ∀ (call : Calls) (frames : List (Option Calls)) (f : ℕ), call.depth ≤ f →
    Reach step s₀ ⟨f, [], pre ++ .running call frames :: post⟩ →
    Reach step s₀ (State.finish ⟨f + 1, [], pre ++ .done :: post⟩ pre.length frames)
  | .once, frames, f, _, h => h.step trivial (step_once frames)
  | .split first second, frames, f, hle, h => by
    simp only [Calls.depth] at hle
    obtain ⟨f, rfl⟩ : ∃ n, f = n + 1 := ⟨f - 1, by omega⟩
    have hfirst := reach_finish first (some second :: frames) f (by omega) (reach_first h)
    have hsecond : Reach step s₀
        ⟨f, [], pre ++ .running second (none :: frames) :: post⟩ := by
      simp only [State.finish, List.nil_append, List.set_append_right _ _ (Nat.le_refl _),
        Nat.sub_self, List.set_cons_zero] at hfirst
      exact hfirst.step trivial (step_grant second (none :: frames))
    exact reach_finish second (none :: frames) f (by omega) hsecond

/-- A task opens `n` more calls and is left at one that will be split. -/
theorem reach_open : ∀ (call : Calls) (frames : List (Option Calls)) (f n : ℕ),
    n + 1 ≤ call.depth → n ≤ f →
    Reach step s₀ ⟨f, [], pre ++ .running call frames :: post⟩ →
    ∃ first second frames', Reach step s₀
      ⟨f - n, [], pre ++ .running (.split first second) frames' :: post⟩
  | .once, _, _, n, hle, _, _ => absurd hle (Nat.not_succ_le_zero n)
  | .split first second, frames, f, 0, _, _, h => ⟨first, second, frames, h⟩
  | .split first second, frames, f, n + 1, hle, hf, h => by
    simp only [Calls.depth] at hle
    obtain ⟨f, rfl⟩ : ∃ k, f = k + 1 := ⟨f - 1, by omega⟩
    rw [Nat.add_sub_add_right]
    by_cases hdeep : n + 1 ≤ first.depth
    · exact reach_open first (some second :: frames) f n hdeep (by omega) (reach_first h)
    · -- the first half returns before the deeper second half is opened
      have hfirst := reach_finish first (some second :: frames) f (by omega) (reach_first h)
      simp only [State.finish, List.nil_append, List.set_append_right _ _ (Nat.le_refl _),
        Nat.sub_self, List.set_cons_zero] at hfirst
      exact reach_open second (none :: frames) f n (by omega) (by omega)
        (hfirst.step trivial (step_grant second (none :: frames)))

end Runs

/-! ## Runs of all tasks -/

/-- A task after its first permit : it has returned, or its call will be split. -/
def begun (call : Calls) : Task := if call = .once then .done else .running call []

def splits (calls : List Calls) : ℕ := calls.countP (· ≠ .once)

@[simp] theorem splits_nil : splits [] = 0 := rfl

@[simp] theorem splits_once (calls : List Calls) : splits (.once :: calls) = splits calls := by
  simp [splits]

@[simp] theorem splits_split (first second : Calls) (calls : List Calls) :
    splits (.split first second :: calls) = splits calls + 1 := by
  simp [splits]

theorem splits_le_depth : ∀ calls : List Calls, splits calls ≤ (calls.map Calls.depth).sum
  | [] => Nat.le_refl 0
  | .once :: calls => by
    have ih := splits_le_depth calls
    simpa [Calls.depth] using ih
  | .split first second :: calls => by
    have ih := splits_le_depth calls
    simp only [splits_split, List.map_cons, List.sum_cons, Calls.depth]
    omega

/-- The state once the tasks of `first` have begun, in their order. -/
def begunState (free : ℕ) (first rest : List Calls) : State :=
  ⟨free, List.range' first.length rest.length,
    first.map begun ++ rest.map fun call => .waiting call []⟩

section AllTasks

variable {s₀ : State}

/-- The next task gets its first permit. -/
theorem reach_next {f : ℕ} {first rest : List Calls} {call : Calls}
    (h : Reach step s₀ (begunState (f + 1) first (call :: rest))) :
    Reach step s₀ ⟨f, List.range' (first.length + 1) rest.length,
      first.map begun ++ .running call [] :: rest.map fun call => .waiting call []⟩ := by
  have hqueue : begunState (f + 1) first (call :: rest) =
      ⟨f + 1, (first.map begun).length :: List.range' (first.length + 1) rest.length,
        first.map begun ++ .waiting call [] :: rest.map fun call => .waiting call []⟩ := by
    simp [begunState, List.range'_succ]
  rw [hqueue] at h
  exact h.step trivial (step_grant call [])

/-- The tasks begin in their order. Either a permit is left when all have, or none is left
with some still in the queue. -/
theorem reach_begun : ∀ (rest first : List Calls) (f : ℕ),
    Reach step s₀ (begunState f first rest) →
    (∃ free, free + splits rest = f ∧
      Reach step s₀ ⟨free, [], (first ++ rest).map begun⟩) ∨
      ∃ first' rest', first' ++ rest' = first ++ rest ∧
        Reach step s₀ (begunState 0 first' rest')
  | [], first, f, h => Or.inl ⟨f, rfl, by simpa [begunState] using h⟩
  | call :: rest, first, 0, h => Or.inr ⟨first, call :: rest, rfl, h⟩
  | .once :: rest, first, f + 1, h => by
    have hdone := (reach_next h).step trivial (step_once [])
    have hbegun : Reach step s₀ (begunState (f + 1) (first ++ ([.once] : List Calls)) rest) := by
      simpa [begunState, State.finish, begun] using hdone
    have ih := reach_begun rest (first ++ ([.once] : List Calls)) (f + 1) hbegun
    simp only [List.append_assoc, List.singleton_append] at ih
    rwa [splits_once]
  | .split a b :: rest, first, f + 1, h => by
    have hbegun : Reach step s₀ (begunState f (first ++ ([.split a b] : List Calls)) rest) := by
      simpa [begunState, begun] using reach_next h
    have ih := reach_begun rest (first ++ ([.split a b] : List Calls)) f hbegun
    simp only [List.append_assoc, List.singleton_append] at ih
    refine ih.imp_left ?_
    rintro ⟨free, hfree, hr⟩
    refine ⟨free, ?_, hr⟩
    rw [splits_split]
    omega

/-- The task has returned, or its call will be split. -/
def AtSplit (t : Task) : Prop :=
  t = .done ∨ ∃ first second frames, t = .running (.split first second) frames

/-- The tasks open calls until no permit is left. -/
theorem reach_opened : ∀ (post : List Calls) (pre : List Task) (f : ℕ),
    f + splits post ≤ (post.map Calls.depth).sum → (∀ t ∈ pre, AtSplit t) →
    Reach step s₀ ⟨f, [], pre ++ post.map begun⟩ →
    ∃ tasks, (∀ t ∈ tasks, AtSplit t) ∧ Reach step s₀ ⟨0, [], tasks⟩
  | [], pre, f, hle, hpre, h => by
    obtain rfl : f = 0 := by
      simp only [List.map_nil, List.sum_nil] at hle
      omega
    exact ⟨pre, hpre, by simpa using h⟩
  | .once :: post, pre, f, hle, hpre, h => by
    refine reach_opened post (pre ++ ([.done] : List Task)) f (by simpa [Calls.depth] using hle) ?_
      (by simpa [begun] using h)
    intro t ht
    rcases List.mem_append.1 ht with ht | ht
    · exact hpre t ht
    · exact Or.inl (List.mem_singleton.1 ht)
  | .split first second :: post, pre, f, hle, hpre, h => by
    have hsplits := splits_le_depth post
    simp only [splits_split, List.map_cons, List.sum_cons, Calls.depth] at hle
    -- as many calls as the task can open, or as there are permits
    have hdeep : min f (max first.depth second.depth) + 1 ≤ (Calls.split first second).depth := by
      simp only [Calls.depth]
      omega
    have hrun : Reach step s₀ ⟨f, [],
        pre ++ .running (.split first second) [] :: post.map begun⟩ := by
      simpa [begun] using h
    obtain ⟨a, b, frames, hopen⟩ := reach_open (.split first second) [] f
      (min f (max first.depth second.depth)) hdeep (by omega) hrun
    refine reach_opened post (pre ++ ([.running (.split a b) frames] : List Task)) _ ?_ ?_
      (by simpa using hopen)
    · omega
    · intro t ht
      rcases List.mem_append.1 ht with ht | ht
      · exact hpre t ht
      · exact Or.inr ⟨a, b, frames, List.mem_singleton.1 ht⟩

/-- The task has returned, or waits. -/
def Waits (t : Task) : Prop := t = .done ∨ ∃ call frames, t = .waiting call frames

/-- All the calls are answered with token-limit errors. -/
theorem reach_waiting : ∀ (post pre : List Task) (q : List ℕ), (∀ t ∈ pre, Waits t) →
    (∀ t ∈ post, AtSplit t ∨ Waits t) → Reach step s₀ ⟨0, q, pre ++ post⟩ →
    ∃ q' tasks, (∀ t ∈ tasks, Waits t) ∧ Reach step s₀ ⟨0, q', tasks⟩
  | [], pre, q, hpre, _, h => ⟨q, pre, hpre, by simpa using h⟩
  | t :: post, pre, q, hpre, hpost, h => by
    have hrest : ∀ t ∈ post, AtSplit t ∨ Waits t := fun t ht =>
      hpost t (List.mem_cons_of_mem _ ht)
    have hnext : ∀ t, Waits t → ∀ x ∈ pre ++ [t], Waits x := by
      intro t ht x hx
      rcases List.mem_append.1 hx with hx | hx
      · exact hpre x hx
      · rwa [List.mem_singleton.1 hx]
    by_cases hw : Waits t
    · exact reach_waiting post (pre ++ [t]) q (hnext t hw) hrest (by simpa using h)
    · rcases (hpost t List.mem_cons_self).resolve_right hw with rfl | ⟨first, second, frames, rfl⟩
      · exact absurd (Or.inl rfl) hw
      · have hstep := h.step trivial (step_split first second frames)
        refine reach_waiting post (pre ++ [.waiting first (some second :: frames)])
          (q ++ [pre.length]) (hnext _ (Or.inr ⟨_, _, rfl⟩)) hrest ?_
        simpa using hstep

/-- With no permit left and no call about to return, the tasks can all end up waiting. -/
theorem exists_stuck {capacity : ℕ} {calls : List Calls} (hcap : 1 ≤ capacity) {tasks : List Task}
    {q : List ℕ} (htasks : ∀ t ∈ tasks, AtSplit t ∨ Waits t)
    (h : Reach step (start capacity calls) ⟨0, q, tasks⟩) :
    ∃ s, Reach step (start capacity calls) s ∧ Stuck s := by
  obtain ⟨q', tasks', hwait, hr⟩ := reach_waiting tasks [] q (List.forall_mem_nil _) htasks h
  have hacc := accounted_of_reach hr
  have hpermits := hacc.permits
  refine ⟨_, hr, rfl, ?_, hwait⟩
  by_contra hdone
  have hzero : total tasks' = 0 := by
    refine List.sum_eq_zero fun n hn => ?_
    obtain ⟨t, ht, rfl⟩ := List.mem_map.1 hn
    have hfinished : t = .done := by
      by_contra hne
      exact hdone ⟨t, ht, hne⟩
    rw [hfinished]
    rfl
  simp only [hzero] at hpermits
  omega

end AllTasks

/-! ## When the tasks cannot get stuck -/

theorem start_eq (capacity : ℕ) (calls : List Calls) :
    start capacity calls = begunState capacity [] calls := by
  simp [start, begunState, List.range_eq_range']

theorem atSplit_begun (call : Calls) : AtSplit (begun call) := by
  cases call with
  | once => exact Or.inl rfl
  | split first second => exact Or.inr ⟨first, second, [], rfl⟩

/-- Trees as deep as the capacity, or deeper, get stuck. -/
theorem exists_stuck_of_le (hcap : 1 ≤ capacity) (hle : capacity ≤ (calls.map Calls.depth).sum) :
    ∃ s, Reach step (start capacity calls) s ∧ Stuck s := by
  have hstart : Reach step (start capacity calls) (begunState capacity [] calls) := by
    rw [start_eq]
    exact .init
  rcases reach_begun calls [] capacity hstart with ⟨free, hfree, hr⟩ | ⟨first, rest, -, hr⟩
  · obtain ⟨tasks, htasks, hopen⟩ := reach_opened calls [] free (by omega)
      (List.forall_mem_nil _) (by simpa using hr)
    exact exists_stuck hcap (fun t ht => Or.inl (htasks t ht)) hopen
  · refine exists_stuck hcap (fun t ht => ?_) hr
    rcases List.mem_append.1 ht with ht | ht
    · obtain ⟨call, -, rfl⟩ := List.mem_map.1 ht
      exact Or.inl (atSplit_begun call)
    · obtain ⟨call, -, rfl⟩ := List.mem_map.1 ht
      exact Or.inr (Or.inr ⟨call, [], rfl⟩)

/-- When no batch is split, no task needs a second permit. -/
theorem finishesAlone_of_once (hcalls : ∀ call ∈ calls, call = .once)
    (h : Reach step (start capacity calls) s) : ∀ t ∈ s.tasks, FinishesAlone t := by
  intro t ht
  obtain ⟨call, hcall, hw⟩ := StepSystem.forall₂_mem_left (accounted_of_reach h).within t ht
  rw [hcalls call hcall] at hw
  cases t with
  | done => exact Or.inl rfl
  | waiting c frames =>
    have hlen : frames.length = 0 := by
      have hle := hw.1
      simp only [Calls.depth] at hle
      omega
    exact Or.inl hlen
  | running c frames =>
    have hle := hw.1
    cases c with
    | once =>
      obtain rfl : frames = [] := by
        rw [← List.length_eq_zero_iff]
        simp only [Calls.depth] at hle
        omega
      exact Or.inr ⟨[], rfl, List.forall_mem_nil _⟩
    | split first second =>
      simp only [Calls.depth] at hle
      omega

/-- A task about to be split holds a permit and needs another. -/
theorem not_finishesAlone_begun {call : Calls} (h : call ≠ .once) :
    ¬FinishesAlone (begun call) := by
  rw [begun, if_neg h]
  rintro (hheld | ⟨frames, heq, -⟩)
  · simp [Task.held] at hheld
  · injection heq with hcall
    exact h hcall

theorem exists_not_finishesAlone (hcap : 1 ≤ capacity)
    {call : Calls} (hcall : call ∈ calls) (hsplit : call ≠ .once) :
    ∃ s, Reach step (start capacity calls) s ∧ ∃ t ∈ s.tasks, ¬FinishesAlone t := by
  have hstart : Reach step (start capacity calls) (begunState capacity [] calls) := by
    rw [start_eq]
    exact .init
  rcases reach_begun calls [] capacity hstart with ⟨free, -, hr⟩ | ⟨first, rest, -, hr⟩
  · exact ⟨_, hr, begun call, List.mem_map_of_mem hcall, not_finishesAlone_begun hsplit⟩
  · -- the permits are with tasks that have begun
    have hacc := accounted_of_reach hr
    have hpermits := hacc.permits
    by_contra hnone
    have hfirst : ∀ c ∈ first, c = .once := by
      intro c hc
      by_contra hne
      exact hnone ⟨_, hr, begun c, List.mem_append_left _ (List.mem_map_of_mem hc),
        not_finishesAlone_begun hne⟩
    have hzero : total (begunState 0 first rest).tasks = 0 := by
      refine List.sum_eq_zero fun n hn => ?_
      obtain ⟨t, ht, rfl⟩ := List.mem_map.1 hn
      rcases List.mem_append.1 ht with ht | ht
      · obtain ⟨c, hc, rfl⟩ := List.mem_map.1 ht
        rw [hfirst c hc]
        rfl
      · obtain ⟨c, -, rfl⟩ := List.mem_map.1 ht
        rfl
    rw [hzero] at hpermits
    change 0 + 0 = capacity at hpermits
    omega

/-- The calls of all the batches, each under its own pattern of errors. -/
def batchCalls (fails : ℕ → Pattern) (batches : List Batch) : List Calls :=
  batches.mapIdx fun i batch => callsOf (fails i) batch

/-- The tasks never all wait for a permit exactly when the depths of the calls sum to less
than the capacity. A holder never needs another permit exactly when no batch is split. -/
theorem neverStuck_iff (capacity : ℕ) (fails : ℕ → Pattern) (batches : List Batch)
    (hcap : 1 ≤ capacity) :
    ((∀ s, Reach step (start capacity (batchCalls fails batches)) s → ¬Stuck s) ↔
      ((batchCalls fails batches).map Calls.depth).sum < capacity) ∧
    ((∀ s, Reach step (start capacity (batchCalls fails batches)) s →
        ∀ t ∈ s.tasks, FinishesAlone t) ↔
      ∀ call ∈ batchCalls fails batches, call = .once) := by
  refine ⟨⟨fun h => ?_, fun hlt s hs => not_stuck hlt hs⟩,
    ⟨fun h call hcall => ?_, fun h s hs => finishesAlone_of_once h hs⟩⟩
  · by_contra hle
    obtain ⟨s, hs, hstuck⟩ := exists_stuck_of_le hcap (Nat.not_lt.1 hle)
    exact h s hs hstuck
  · by_contra hsplit
    obtain ⟨s, hs, t, ht, hnot⟩ := exists_not_finishesAlone hcap hcall hsplit
    exact hnot (h s hs t ht)

/-- Two texts in one batch, too long together. -/
def pairBatch : List Batch := [[(1, "aa"), (2, "bb")]]

theorem neverStuck_iff_pair :
    ((∀ s, Reach step (start 2 (batchCalls (fun _ path => path.isEmpty) pairBatch)) s →
        ¬Stuck s) ↔ ((batchCalls (fun _ path => path.isEmpty) pairBatch).map Calls.depth).sum < 2) ∧
    ((∀ s, Reach step (start 2 (batchCalls (fun _ path => path.isEmpty) pairBatch)) s →
        ∀ t ∈ s.tasks, FinishesAlone t) ↔
      ∀ call ∈ batchCalls (fun _ path => path.isEmpty) pairBatch, call = .once) :=
  neverStuck_iff 2 (fun _ path => path.isEmpty) pairBatch (by decide)

/-- One permit and one batch whose call hits the token limit : its first half waits for the
permit the batch holds. -/
theorem pair_gets_stuck :
    ¬ ∀ s, Reach step (start 1 (batchCalls (fun _ path => path.isEmpty) pairBatch)) s →
      ¬Stuck s := by
  intro h
  have hr : Reach step (start 1 (batchCalls (fun _ path => path.isEmpty) pairBatch))
      ⟨0, [0], [.waiting .once [some .once]]⟩ :=
    Reach.of_execute [.grant, .answer 0] (by decide)
  refine h _ hr ⟨rfl, ⟨_, List.mem_singleton_self _, by simp⟩, fun t ht => ?_⟩
  exact Or.inr ⟨.once, [some .once], List.mem_singleton.1 ht⟩

end ChunkHound.BatchSemaphore
