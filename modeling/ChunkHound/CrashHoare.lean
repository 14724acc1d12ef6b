import Mathlib.Data.List.Basic

/-!
# Programs that are killed

A logic for programs whose actions fail or never happen because the process is killed. A
`Prog` runs against a list of outcomes, one for each action it attempts : the action takes
effect, it fails, or it takes effect and is reported as failed. When the list ends the
process is killed before the next action, so the lists of all lengths give every state the
program leaves behind.

`Triple P p Q C` : from a state with `P`, the program returns in a state with `Q`, and
whenever it is killed or returns an error the state has the crash condition `C`. Every
action is a possible crash, so `Triple.action` asks for `C` before and after it.
-/

namespace CrashHoare

/-- What becomes of one action. -/
inductive Outcome
  | ok
  | failed
  | failedAfter
  deriving DecidableEq, Repr

/-- How a run ends, with the state it leaves and the outcomes not consumed. -/
inductive Result (σ ε α : Type)
  | done (a : α) (s : σ) (os : List Outcome)
  | error (e : ε) (s : σ) (os : List Outcome)
  | killed (s : σ)

/-- A program on states `σ` with errors `ε`. -/
def Prog (σ ε α : Type) := σ → List Outcome → Result σ ε α

namespace Prog

variable {σ ε α β : Type}

def bind (p : Prog σ ε α) (f : α → Prog σ ε β) : Prog σ ε β := fun s os =>
  match p s os with
  | .done a s os => f a s os
  | .error e s os => .error e s os
  | .killed s => .killed s

instance : Monad (Prog σ ε) where
  pure a := fun s os => .done a s os
  bind := bind

/-- The current state : a look at the disk, which neither fails nor takes time. -/
def get : Prog σ ε σ := fun s os => .done s s os

/-- A change of memory, which neither fails nor takes time. -/
def modify (f : σ → σ) : Prog σ ε Unit := fun s os => .done () (f s) os

/-- An early return with an error. -/
def throw (e : ε) : Prog σ ε α := fun s os => .error e s os

/-- One atomic action. `f` is `none` where the action cannot succeed in the state. -/
def action (e : ε) (f : σ → Option (α × σ)) : Prog σ ε α := fun s os =>
  match os with
  | [] => .killed s
  | .failed :: os => .error e s os
  | .failedAfter :: os =>
    match f s with
    | some (_, s') => .error e s' os
    | none => .error e s os
  | .ok :: os =>
    match f s with
    | some (a, s') => .done a s' os
    | none => .error e s os

/-- An action that returns nothing. -/
def act (e : ε) (f : σ → Option σ) : Prog σ ε Unit := action e fun s => (f s).map ((), ·)

/-- A query, which leaves the state as it is. -/
def query (e : ε) (f : σ → Option α) : Prog σ ε α := action e fun s => (f s).map (·, s)

/-- A best-effort step : its error is dropped. -/
def attempt (p : Prog σ ε Unit) : Prog σ ε Unit := fun s os =>
  match p s os with
  | .error _ s os => .done () s os
  | r => r

/-- An error runs a handler, from the state it left. -/
def tryCatch (p : Prog σ ε α) (handler : ε → Prog σ ε α) : Prog σ ε α := fun s os =>
  match p s os with
  | .error e s os => handler e s os
  | r => r

instance : MonadExceptOf ε (Prog σ ε) where
  throw := throw
  tryCatch := tryCatch

end Prog

/-- The state a run leaves. -/
def Result.state {σ ε α : Type} : Result σ ε α → σ
  | .done _ s _ => s
  | .error _ s _ => s
  | .killed s => s

/-- The run returned. -/
def Result.isDone {σ ε α : Type} : Result σ ε α → Bool
  | .done _ _ _ => true
  | .error _ _ _ => false
  | .killed _ => false

/-- How many actions take effect before the run is cut short. -/
def effects : List Outcome → ℕ
  | .ok :: os => effects os + 1
  | .failedAfter :: _ => 1
  | _ => 0

/-- How many actions return before the run is cut short. -/
def returns : List Outcome → ℕ
  | .ok :: os => returns os + 1
  | _ => 0

/-- At most one action takes effect without returning. -/
theorem effects_le_returns : ∀ os : List Outcome, effects os ≤ returns os + 1
  | [] => Nat.zero_le _
  | .failed :: _ => Nat.zero_le _
  | .failedAfter :: _ => Nat.le_refl _
  | .ok :: os => Nat.succ_le_succ (effects_le_returns os)

theorem returns_le_effects : ∀ os : List Outcome, returns os ≤ effects os
  | [] => Nat.le_refl _
  | .failed :: _ => Nat.le_refl _
  | .failedAfter :: _ => Nat.zero_le _
  | .ok :: os => Nat.succ_le_succ (returns_le_effects os)

variable {σ ε α β : Type} {os : List Outcome}

/-- Nothing runs after a program that did not return. -/
theorem Prog.state_bind {p : Prog σ ε α} (f : α → Prog σ ε β) {s : σ}
    (h : (p s os).isDone = false) :
    ((p >>= f) s os).state = (p s os).state := by
  show (Prog.bind p f s os).state = _
  unfold Prog.bind
  cases hr : p s os with
  | done a s' os' => simp [hr, Result.isDone] at h
  | error e s' os' => rfl
  | killed s' => rfl

theorem Prog.isDone_bind {p : Prog σ ε α} (f : α → Prog σ ε β) {s : σ}
    (h : (p s os).isDone = false) : ((p >>= f) s os).isDone = false := by
  show (Prog.bind p f s os).isDone = false
  unfold Prog.bind
  cases hr : p s os with
  | done a s' os' => simp [hr, Result.isDone] at h
  | error e s' os' => rfl
  | killed s' => rfl

theorem Prog.bind_done {p : Prog σ ε α} (f : α → Prog σ ε β) {s s' : σ}
    {os os' : List Outcome} {a : α} (h : p s os = .done a s' os') :
    (p >>= f) s os = f a s' os' := by
  show Prog.bind p f s os = _
  rw [Prog.bind, h]

theorem Prog.bind_assoc {σ ε α β γ : Type} (p : Prog σ ε α) (f : α → Prog σ ε β)
    (g : β → Prog σ ε γ) : (p >>= f) >>= g = p >>= fun a => f a >>= g := by
  funext s os
  show Prog.bind (Prog.bind p f) g s os = Prog.bind p (fun a => Prog.bind (f a) g) s os
  unfold Prog.bind
  cases p s os <;> rfl

/-- The end of a run meets `Q` when it returned, and `C` when it did not. -/
def Result.Meets {σ ε α : Type} (Q : α → σ → Prop) (C : σ → Prop) : Result σ ε α → Prop
  | .done a s _ => Q a s
  | .error _ s _ => C s
  | .killed s => C s

variable {σ ε α : Type}

variable {C : σ → Prop}

theorem Result.Meets.mono {Q Q' : α → σ → Prop}
    (hQ : ∀ a s, Q a s → Q' a s) : ∀ {r : Result σ ε α}, r.Meets Q C → r.Meets Q' C
  | .done a s _, h => hQ a s h
  | .error _ _ _, h => h
  | .killed _, h => h

theorem Result.Meets.crash {Q : α → σ → Prop} {C C' : σ → Prop}
    (hC : ∀ s, C s → C' s) : ∀ {r : Result σ ε α}, r.Meets Q C → r.Meets Q C'
  | .done _ _ _, h => h
  | .error _ s _, h => hC s h
  | .killed s, h => hC s h

/-- A run that meets one condition however it ends leaves a state with it. -/
theorem Result.Meets.state :
    ∀ {r : Result σ ε α}, r.Meets (fun _ => C) C → C r.state
  | .done _ _ _, h => h
  | .error _ _ _, h => h
  | .killed _, h => h

theorem Result.meets_of_state {Q C : σ → Prop} :
    ∀ {r : Result σ ε α}, Q r.state → C r.state → r.Meets (fun _ => Q) C
  | .done _ _ _, hq, _ => hq
  | .error _ _ _, _, hc => hc
  | .killed _, _, hc => hc

theorem Result.Meets.of_isDone {Q C : σ → Prop} :
    ∀ {r : Result σ ε α}, r.Meets (fun _ => Q) C → r.isDone = true → Q r.state
  | .done _ _ _, h, _ => h

/-- A run that did not return meets what its state meets. -/
theorem Result.meets_of_not_done {Q : α → σ → Prop} :
    ∀ {r : Result σ ε α}, r.isDone = false → C r.state → r.Meets Q C
  | .error _ _ _, _, hc => hc
  | .killed _, _, hc => hc

/-- From a state with `P`, the program returns with `Q`, and a run cut short leaves `C`. -/
def Triple {σ ε α : Type} (P : σ → Prop) (p : Prog σ ε α) (Q : α → σ → Prop)
    (C : σ → Prop) : Prop :=
  ∀ s, P s → ∀ os, (p s os).Meets Q C

/-- A run of two programs, where the second is only looked at if the first returned. -/
theorem Prog.meets_bind {p : Prog σ ε α} {f : α → Prog σ ε β} {s : σ}
    {Q : α → σ → Prop} {R : β → σ → Prop} {C : σ → Prop}
    (hp : (p s os).Meets Q C)
    (hf : ∀ a s' os', p s os = .done a s' os' → Q a s' → (f a s' os').Meets R C) :
    ((p >>= f) s os).Meets R C := by
  show (Prog.bind p f s os).Meets R C
  unfold Prog.bind
  cases hr : p s os with
  | done a s' os' =>
    rw [hr] at hp
    exact hf a s' os' hr hp
  | error e s' os' =>
    rw [hr] at hp
    exact hp
  | killed s' =>
    rw [hr] at hp
    exact hp

namespace Triple

variable {σ ε α β : Type} {P P' : σ → Prop} {Q Q' : α → σ → Prop} {C : σ → Prop}

variable {p : Prog σ ε α}

/-- What a run that returned has reached. -/
theorem of_done (h : Triple P p Q C) {s s' : σ} (hs : P s)
    {os os' : List Outcome} {a : α} (hr : p s os = .done a s' os') : Q a s' := by
  have hm := h s hs os
  rwa [hr] at hm

theorem pure (a : α) (h : ∀ s, P s → Q a s) : Triple P (Pure.pure a : Prog σ ε α) Q C :=
  fun s hs _ => h s hs

variable {R : β → σ → Prop}

theorem bind {f : α → Prog σ ε β}
    (hp : Triple P p Q C) (hf : ∀ a, Triple (Q a) (f a) R C) : Triple P (p >>= f) R C :=
  fun s hs os => Prog.meets_bind (hp s hs os) fun a s' os' _ hq => hf a s' hq os'

variable {M : σ → Prop}

/-- A step that returns nothing, and the rest of the program. -/
theorem seq {p : Prog σ ε Unit} {q : Prog σ ε β}
    (hp : Triple P p (fun _ => M) C) (hq : Triple M q R C) : Triple P (p >>= fun _ => q) R C :=
  hp.bind fun _ => hq

theorem conseq (h : Triple P p Q C) (hP : ∀ s, P' s → P s)
    (hQ : ∀ a s, Q a s → Q' a s) : Triple P' p Q' C :=
  fun s hs os => (h s (hP s hs) os).mono hQ

/-- A weaker crash condition. -/
theorem crash {C' : σ → Prop} (h : Triple P p Q C) (hC : ∀ s, C s → C' s) :
    Triple P p Q C' :=
  fun s hs os => (h s hs os).crash hC

theorem pre (h : Triple P p Q C) (hP : ∀ s, P' s → P s) : Triple P' p Q C :=
  h.conseq hP fun _ _ hq => hq

theorem or_pre (h : Triple P p Q C) (h' : Triple P' p Q C) :
    Triple (fun s => P s ∨ P' s) p Q C := by
  rintro s (hs | hs) os
  · exact h s hs os
  · exact h' s hs os

theorem exists_pre {ι : Type} {F : ι → σ → Prop}
    (h : ∀ i, Triple (F i) p Q C) : Triple (fun s => ∃ i, F i s) p Q C :=
  fun s ⟨i, hi⟩ os => h i s hi os

/-- A precondition that does not speak of the state. -/
theorem and_pre {φ : Prop} (h : φ → Triple P p Q C) :
    Triple (fun s => P s ∧ φ) p Q C :=
  fun s ⟨hs, hφ⟩ os => h hφ s hs os

/-- The value read is the state the rest of the program starts in. -/
theorem get_bind {f : σ → Prog σ ε β}
    (h : ∀ d, P d → Triple (fun s => s = d) (f d) R C) : Triple P (Prog.get >>= f) R C := by
  intro s hs os
  exact h s hs s rfl os

theorem modify {f : σ → σ} (h : ∀ s, P s → M (f s)) :
    Triple P (Prog.modify f : Prog σ ε Unit) (fun _ => M) C :=
  fun s hs _ => h s hs

/-- A branch that no state with `P` takes. -/
theorem vacuous (h : ∀ s, ¬P s) : Triple P p Q C :=
  fun s hs => absurd hs (h s)

theorem action {e : ε} {f : σ → Option (α × σ)} (hP : ∀ s, P s → C s)
    (hf : ∀ s a s', P s → f s = some (a, s') → Q a s' ∧ C s') :
    Triple P (Prog.action e f) Q C := by
  intro s hs os
  unfold Prog.action
  match os with
  | [] => exact hP s hs
  | .failed :: _ => exact hP s hs
  | .failedAfter :: os =>
    cases hfs : f s with
    | none => exact hP s hs
    | some as => exact (hf s as.1 as.2 hs hfs).2
  | .ok :: os =>
    cases hfs : f s with
    | none => exact hP s hs
    | some as => exact (hf s as.1 as.2 hs hfs).1

theorem act {e : ε} {f : σ → Option σ} (hP : ∀ s, P s → C s)
    (hf : ∀ s s', P s → f s = some s' → M s' ∧ C s') :
    Triple P (Prog.act e f) (fun _ => M) C := by
  refine action hP fun s a s' hs h => ?_
  obtain ⟨t, ht, heq⟩ := Option.map_eq_some_iff.1 h
  obtain ⟨-, rfl⟩ := Prod.mk.inj heq
  exact hf s t hs ht

/-- A query leaves the state as it is, and returns what it read there. -/
theorem query {e : ε} {f : σ → Option α} (hP : ∀ s, P s → C s) :
    Triple P (Prog.query e f) (fun a s => P s ∧ f s = some a) C := by
  refine action hP fun s a s' hs h => ?_
  obtain ⟨b, hb, heq⟩ := Option.map_eq_some_iff.1 h
  obtain ⟨rfl, rfl⟩ := Prod.mk.inj heq
  exact ⟨⟨hs, hb⟩, hP s hs⟩

/-- After a best-effort step the state is one a crash of the step could have left. -/
theorem attempt {p : Prog σ ε Unit} (h : Triple P p (fun _ => M) M)
    (hM : ∀ s, M s → C s) : Triple P (Prog.attempt p) (fun _ => M) C := by
  intro s hs os
  have hm := h s hs os
  unfold Prog.attempt
  cases hr : p s os with
  | done a s' os' =>
    rw [hr] at hm
    exact hm
  | error e s' os' =>
    rw [hr] at hm
    exact hm
  | killed s' =>
    rw [hr] at hm
    exact hM s' hm

theorem throw (e : ε) (hP : ∀ s, P s → C s) : Triple P (Prog.throw e : Prog σ ε α) Q C :=
  fun s hs _ => hP s hs

/-- A handler starts in a state a crash could have left. -/
theorem tryCatch {handler : ε → Prog σ ε α} (hp : Triple P p Q C)
    (hh : ∀ e, Triple C (handler e) Q C) : Triple P (Prog.tryCatch p handler) Q C := by
  intro s hs os
  have h := hp s hs os
  unfold Prog.tryCatch
  cases hr : p s os with
  | done a s' os' =>
    rw [hr] at h
    exact h
  | error e s' os' =>
    rw [hr] at h
    exact hh e s' h os'
  | killed s' =>
    rw [hr] at h
    exact h

/-- A loop : `I done rest` holds before the rest of the list is worked through. -/
theorem forM {γ : Type} {f : γ → Prog σ ε PUnit} {I : List γ → List γ → σ → Prop}
    (h : ∀ done x rest, Triple (I done (x :: rest)) (f x) (fun _ => I (done ++ [x]) rest) C) :
    ∀ (rest done : List γ), Triple (I done rest) (rest.forM f) (fun _ => I (done ++ rest) []) C
  | [], done => by
    refine pure _ fun s hs => ?_
    rwa [List.append_nil]
  | x :: rest, done => by
    have hrest := forM h rest (done ++ [x])
    rw [List.append_assoc, List.singleton_append] at hrest
    exact (h done x rest).bind fun _ => hrest

/-- A loop with an accumulator, whose steps keep a condition on the state. -/
theorem foldlM {γ : Type} {f : α → γ → Prog σ ε α}
    (h : ∀ a x, Triple P (f a x) (fun _ => P) C) :
    ∀ (xs : List γ) (a : α), Triple P (xs.foldlM f a) (fun _ => P) C
  | [], _ => pure _ fun _ hs => hs
  | x :: xs, a => (h a x).bind fun b => foldlM h xs b

end Triple

end CrashHoare
