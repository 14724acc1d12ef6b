import Mathlib.Data.List.Basic
import Mathlib.Data.List.Forall2

/-!
# Runs of step functions

A partial step function takes a state and a label to the next state. The label holds
every choice the environment makes : which timer fires, what the disk returns, when the
process is killed. `execute` runs a list of labels. `ReachWhen` is reachability by steps
whose label a guard admits in the state before, and `ReachWhen.invariant` is the
induction over such runs.

`Since a P h` is what a history says of every occurrence of `a` in it : the events after it
satisfy `P`. A history lists the newest event first.

`cutRun` runs a list of steps that commit one by one, and stops after `k` of them or at
the first that fails : the state a process leaves that is killed there.
-/

namespace StepSystem

variable {σ α ε : Type*}

/-- Run the labels in order; `none` once a step is refused. -/
def execute (step : σ → α → Option σ) : σ → List α → Option σ
  | s, [] => some s
  | s, a :: as => (step s a).bind fun s' => execute step s' as

/-- The states reached from `s₀` by steps the guard `ok` admits in the state before. -/
inductive ReachWhen (step : σ → α → Option σ) (ok : σ → α → Prop) (s₀ : σ) : σ → Prop
  | init : ReachWhen step ok s₀ s₀
  | step {s s' : σ} {a : α} : ReachWhen step ok s₀ s → ok s a → step s a = some s' →
      ReachWhen step ok s₀ s'

/-- The states reached by any steps. -/
abbrev Reach (step : σ → α → Option σ) (s₀ s : σ) : Prop :=
  ReachWhen step (fun _ _ => True) s₀ s

section Reach

variable {step : σ → α → Option σ} {ok : σ → α → Prop} {s₀ s s' : σ}

/-- A property of `s₀` that every admitted step keeps holds in every state reached. -/
theorem ReachWhen.invariant {I : σ → Prop} (h0 : I s₀)
    (hstep : ∀ s a s', I s → ok s a → step s a = some s' → I s')
    (h : ReachWhen step ok s₀ s) : I s := by
  induction h with
  | init => exact h0
  | step _ hok hs ih => exact hstep _ _ _ ih hok hs

/-- A guard that admits fewer steps reaches fewer states. -/
theorem ReachWhen.mono {ok' : σ → α → Prop} (hok : ∀ s a, ok s a → ok' s a)
    (h : ReachWhen step ok s₀ s) : ReachWhen step ok' s₀ s := by
  induction h with
  | init => exact .init
  | step _ ha hs ih => exact .step ih (hok _ _ ha) hs

/-- Labels that the guard always admits, run to the end from a reached state, reach their
final state. -/
theorem ReachWhen.execute : ∀ (as : List α) {s : σ}, (∀ a ∈ as, ∀ s, ok s a) →
    ReachWhen step ok s₀ s → StepSystem.execute step s as = some s' → ReachWhen step ok s₀ s'
  | [], _, _, h, he => by
    obtain rfl := Option.some.inj he
    exact h
  | a :: as, _, hok, h, he => by
    obtain ⟨t, ht, he⟩ := Option.bind_eq_some_iff.1 he
    exact ReachWhen.execute as (fun b hb => hok b (List.mem_cons_of_mem a hb))
      (.step h (hok a List.mem_cons_self _) ht) he

theorem Reach.of_execute (as : List α) (h : StepSystem.execute step s₀ as = some s) :
    Reach step s₀ s :=
  ReachWhen.execute as (fun _ _ _ => trivial) .init h

/-- The steps that the guard admits. -/
def guarded (step : σ → α → Option σ) (ok : σ → α → Prop) [∀ s a, Decidable (ok s a)] (s : σ)
    (a : α) : Option σ :=
  if ok s a then step s a else none

theorem ReachWhen.of_guarded [∀ s a, Decidable (ok s a)] (h : Reach (guarded step ok) s₀ s) :
    ReachWhen step ok s₀ s := by
  induction h with
  | init => exact .init
  | step _ _ hs ih =>
    unfold guarded at hs
    split at hs
    · rename_i hok
      exact .step ih hok hs
    · cases hs

end Reach

/-! ## Histories -/

/-- The events after every occurrence of `a` satisfy `P`. -/
def Since (a : α) (P : List α → Prop) (h : List α) : Prop :=
  ∀ after before, h = after ++ a :: before → P after

section Since

variable {a b : α} {P Q : List α → Prop} {h : List α}

theorem since_nil : Since a P [] := by
  intro after before heq
  simp at heq

/-- A new event is one more after each, and may be an occurrence itself. -/
theorem since_cons :
    Since a P (b :: h) ↔ (b = a → P []) ∧ Since a (fun after => P (b :: after)) h := by
  constructor
  · intro hs
    refine ⟨fun hb => hs [] h (by rw [hb]; rfl), fun after before heq => ?_⟩
    exact hs (b :: after) before (by rw [heq]; rfl)
  · rintro ⟨hb, hs⟩ after before heq
    cases after with
    | nil => exact hb (List.cons.inj heq).1
    | cons c after =>
      obtain ⟨rfl, hrest⟩ := List.cons.inj heq
      exact hs after before hrest

theorem Since.cons (hne : b ≠ a) (hs : Since a (fun after => P (b :: after)) h) :
    Since a P (b :: h) :=
  since_cons.2 ⟨fun hb => absurd hb hne, hs⟩

theorem Since.mono (hs : Since a P h) (hPQ : ∀ after, P after → Q after) : Since a Q h :=
  fun after before heq => hPQ after (hs after before heq)

end Since

/-! ## Commits cut short -/

variable {ε β γ : Type*}

variable {x : Except ε β}

/-- A sequence of fallible steps succeeds when each does. -/
theorem bind_eq_ok {f : β → Except ε γ} {b : γ} :
    x.bind f = .ok b ↔ ∃ a, x = .ok a ∧ f a = .ok b := by
  cases x with
  | error e => simp [Except.bind]
  | ok a => simp [Except.bind]

theorem map_eq_ok {f : β → γ} {c : γ} :
    x.map f = .ok c ↔ ∃ b, x = .ok b ∧ f b = c := by
  cases x with
  | error e => simp [Except.map]
  | ok b => simp [Except.map]

theorem forall₂_mem_left {β γ : Type*} {R : β → γ → Prop} : ∀ {xs : List β} {ys : List γ},
    List.Forall₂ R xs ys → ∀ x ∈ xs, ∃ y ∈ ys, R x y
  | _ :: _, y :: _, .cons h hrest, x, hx => by
    rcases List.mem_cons.1 hx with rfl | hx
    · exact ⟨y, List.mem_cons_self, h⟩
    · obtain ⟨z, hz, hr⟩ := forall₂_mem_left hrest x hx
      exact ⟨z, List.mem_cons_of_mem y hz, hr⟩

/-- The results of fallible calls belong to the arguments one by one. -/
theorem forall₂_of_mapM {f : β → Except ε γ} : ∀ {xs : List β} {ys : List γ},
    xs.mapM f = .ok ys → List.Forall₂ (fun x y => f x = .ok y) xs ys
  | [], _, h => by
    obtain rfl := Except.ok.inj h
    exact .nil
  | x :: xs, ys, h => by
    rw [List.mapM_cons] at h
    obtain ⟨y, hy, h⟩ := bind_eq_ok.1 h
    obtain ⟨rest, hrest, h⟩ := bind_eq_ok.1 h
    obtain rfl := Except.ok.inj h
    exact .cons hy (forall₂_of_mapM hrest)

/-- Run at most `k` of the steps `as` and stop at the first that fails. -/
def cutRun (f : σ → α → Except ε σ) : List α → ℕ → σ → σ
  | [], _, s => s
  | _ :: _, 0, s => s
  | a :: as, k + 1, s =>
    match f s a with
    | .ok s' => cutRun f as k s'
    | .error _ => s

section CutRun

variable {f : σ → α → Except ε σ}

@[simp] theorem cutRun_nil (k : ℕ) (s : σ) : cutRun f [] k s = s := by
  cases k <;> rfl

@[simp] theorem cutRun_zero (as : List α) (s : σ) : cutRun f as 0 s = s := by
  cases as <;> rfl

theorem cutRun_cons_ok {a : α} {s s' : σ} (h : f s a = .ok s') (as : List α) (k : ℕ) :
    cutRun f (a :: as) (k + 1) s = cutRun f as k s' := by
  simp [cutRun, h]

/-- A property every step of the list keeps holds wherever the run is cut. -/
theorem cutRun_invariant {I : σ → Prop} :
    ∀ {as : List α} (k : ℕ) {s : σ}, (∀ a ∈ as, ∀ s s', I s → f s a = .ok s' → I s') →
      I s → I (cutRun f as k s)
  | [], _, _, _, hs => by simpa using hs
  | _ :: _, 0, _, _, hs => hs
  | a :: as, k + 1, s, hstep, hs => by
    unfold cutRun
    split
    · rename_i s' hf
      exact cutRun_invariant k (fun b hb => hstep b (List.mem_cons_of_mem a hb))
        (hstep a List.mem_cons_self s s' hs hf)
    · exact hs

/-- A cut falls in the first part, or in the second after the first has committed. -/
theorem cutRun_append (f : σ → α → Except ε σ) (bs : List α) : ∀ (as : List α) (k : ℕ) (s : σ),
    cutRun f (as ++ bs) k s = cutRun f as k s ∨
      ∃ s', as.length ≤ k ∧ as.foldlM f s = .ok s' ∧
        cutRun f (as ++ bs) k s = cutRun f bs (k - as.length) s'
  | [], k, s => Or.inr ⟨s, Nat.zero_le k, rfl, rfl⟩
  | _ :: _, 0, s => Or.inl (by simp)
  | a :: as, k + 1, s => by
    cases ha : f s a with
    | error e => exact Or.inl (by simp [cutRun, ha])
    | ok t =>
      rw [List.cons_append, cutRun_cons_ok ha, cutRun_cons_ok ha]
      rcases cutRun_append f bs as k t with h | ⟨s', hk, hs, h⟩
      · exact Or.inl h
      · refine Or.inr ⟨s', Nat.succ_le_succ hk, ?_, by rw [h, List.length_cons, Nat.succ_sub_succ]⟩
        simpa [List.foldlM_cons, ha, bind, Except.bind] using hs

/-- A property every step of the list keeps holds when the list has committed. -/
theorem foldlM_invariant {I : σ → Prop} : ∀ {as : List α} {s s' : σ},
    (∀ a ∈ as, ∀ s s', I s → f s a = .ok s' → I s') → I s → as.foldlM f s = .ok s' → I s'
  | [], _, _, _, hs, h => Except.ok.inj h ▸ hs
  | a :: _, _, _, hstep, hs, h => by
    rw [List.foldlM_cons] at h
    obtain ⟨t, ht, h⟩ := bind_eq_ok.1 h
    exact foldlM_invariant (fun b hb => hstep b (List.mem_cons_of_mem a hb))
      (hstep a List.mem_cons_self _ _ hs ht) h

/-- A cut past the end is no cut. -/
theorem cutRun_of_foldlM : ∀ {as : List α} {k : ℕ} {s s' : σ}, as.foldlM f s = .ok s' →
    as.length ≤ k → cutRun f as k s = s'
  | [], k, s, s', h, _ => by
    rw [cutRun_nil]
    exact Except.ok.inj h
  | a :: as, k + 1, s, s', h, hk => by
    rw [List.foldlM_cons] at h
    obtain ⟨t, ht, h⟩ := bind_eq_ok.1 h
    rw [cutRun_cons_ok ht]
    exact cutRun_of_foldlM h (Nat.le_of_succ_le_succ hk)

end CutRun

end StepSystem
