import Mathlib.Logic.Basic

/-!
# Programs that raise

Pre- and postconditions for programs with a state and exceptions. `Triple P p Q E` : from a state
with `P`, the program returns in a state with `Q`, or raises in a state with `E`. A handler starts
in the state in which its program raised, nothing is undone.
-/

namespace Raising

variable {σ ε α β : Type} {P P' M : σ → Prop} {Q Q' : α → σ → Prop} {E E' : ε → σ → Prop}

/-- How a run ended. -/
def Meets (Q : α → σ → Prop) (E : ε → σ → Prop) : EStateM.Result ε σ α → Prop
  | .ok a s => Q a s
  | .error e s => E e s

/-- From a state with `P`, the program returns with `Q` or raises with `E`. -/
def Triple (P : σ → Prop) (p : EStateM ε σ α) (Q : α → σ → Prop) (E : ε → σ → Prop) : Prop :=
  ∀ s, P s → Meets Q E (p s)

/-- The state a run leaves. -/
def state : EStateM.Result ε σ α → σ
  | .ok _ s => s
  | .error _ s => s

/-- The run raised. -/
def raised : EStateM.Result ε σ α → Bool
  | .ok _ _ => false
  | .error _ _ => true

/-- What holds at both ends holds of the state that is left. -/
theorem Meets.state {C : σ → Prop} : ∀ {r : EStateM.Result ε σ α},
    Meets (fun _ => C) (fun _ => C) r → C (Raising.state r)
  | .ok _ _, h => h
  | .error _ _, h => h

namespace Triple

theorem pure (a : α) (h : ∀ s, P s → Q a s) : Triple P (Pure.pure a : EStateM ε σ α) Q E :=
  fun s hs => h s hs

variable {p : EStateM ε σ α}

variable {R : β → σ → Prop}

theorem bind {f : α → EStateM ε σ β}
    (hp : Triple P p Q E) (hf : ∀ a, Triple (Q a) (f a) R E) : Triple P (p >>= f) R E := by
  intro s hs
  have h := hp s hs
  show Meets R E (EStateM.bind p f s)
  unfold EStateM.bind
  cases hr : p s with
  | ok a s' =>
    rw [hr] at h
    exact hf a s' h
  | error e s' =>
    rw [hr] at h
    exact h

/-- A step that returns nothing, and the rest of the program. -/
theorem seq {p : EStateM ε σ Unit} {q : EStateM ε σ β}
    (hp : Triple P p (fun _ => M) E) (hq : Triple M q R E) : Triple P (p >>= fun _ => q) R E :=
  hp.bind fun _ => hq

theorem conseq (h : Triple P p Q E) (hP : ∀ s, P' s → P s)
    (hQ : ∀ a s, Q a s → Q' a s) (hE : ∀ e s, E e s → E' e s) : Triple P' p Q' E' := by
  intro s hs
  have := h s (hP s hs)
  cases hr : p s with
  | ok a s' =>
    rw [hr] at this
    exact hQ a s' this
  | error e s' =>
    rw [hr] at this
    exact hE e s' this

theorem pre (h : Triple P p Q E) (hP : ∀ s, P' s → P s) : Triple P' p Q E :=
  h.conseq hP (fun _ _ hq => hq) fun _ _ he => he

/-- The value read is the state the rest of the program starts in. -/
theorem get_bind {f : σ → EStateM ε σ β}
    (h : ∀ t, P t → Triple (fun s => s = t) (f t) R E) : Triple P (get >>= f) R E :=
  fun s hs => h s hs s rfl

theorem modify {f : σ → σ} {Q : Unit → σ → Prop} (h : ∀ s, P s → Q () (f s)) :
    Triple P (modify f : EStateM ε σ Unit) Q E :=
  fun s hs => h s hs

theorem throw {e : ε} (h : ∀ s, P s → E e s) : Triple P (throw e : EStateM ε σ α) Q E :=
  fun s hs => h s hs

theorem ite {c : Prop} [Decidable c] {p q : EStateM ε σ α} (hp : c → Triple P p Q E)
    (hq : ¬c → Triple P q Q E) : Triple P (if c then p else q) Q E := by
  by_cases hc : c
  · rw [if_pos hc]
    exact hp hc
  · rw [if_neg hc]
    exact hq hc

/-- The handler takes over where the program raised. -/
theorem tryCatch {handler : ε → EStateM ε σ α} (hp : Triple P p Q E)
    (hh : ∀ e, Triple (E e) (handler e) Q E') : Triple P (tryCatch p handler) Q E' := by
  intro s hs
  have h := hp s hs
  show Meets Q E' (EStateM.tryCatch p handler s)
  unfold EStateM.tryCatch
  cases hr : p s with
  | ok a s' =>
    rw [hr] at h
    exact h
  | error e s' =>
    rw [hr] at h
    exact hh e s' h

/-- What runs at the end runs however the program ended. -/
theorem cleanup {fin : EStateM ε σ β} {C : σ → Prop}
    (hp : Triple P p (fun _ => M) fun _ => M) (hf : Triple M fin (fun _ => C) fun _ => C) :
    Triple P (tryFinally p fin) (fun _ => C) fun _ => C := by
  intro s hs
  have h := hp s hs
  simp only [tryFinally, tryFinally', Functor.map, EStateM.map]
  cases hr : p s with
  | ok a s' =>
    rw [hr] at h
    have := hf s' h
    cases hf' : fin s' <;> simp_all [Meets]
  | error e s' =>
    rw [hr] at h
    have := hf s' h
    cases hf' : fin s' <;> simp_all [Meets]

/-- What each step of a loop keeps, the loop keeps. -/
theorem forM {γ : Type} {f : γ → EStateM ε σ PUnit} {E : ε → σ → Prop} : ∀ {l : List γ},
    (∀ a ∈ l, Triple P (f a) (fun _ => P) E) → Triple P (l.forM f) (fun _ => P) E
  | [], _ => fun _ hs => hs
  | a :: _, h => (h a List.mem_cons_self).bind fun _ =>
    forM fun b hb => h b (List.mem_cons_of_mem _ hb)

/-- A loop : `I rest` holds before the rest of the list is worked through. -/
theorem forM_rest {γ : Type} {f : γ → EStateM ε σ PUnit} {I : List γ → σ → Prop}
    (h : ∀ a rest, Triple (I (a :: rest)) (f a) (fun _ => I rest) E) :
    ∀ l : List γ, Triple (I l) (l.forM f) (fun _ => I []) E
  | [] => fun _ hs => hs
  | a :: rest => (h a rest).bind fun _ => forM_rest h rest

end Triple

end Raising
