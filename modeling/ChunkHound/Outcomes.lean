import Mathlib.Init

/-!
# Computations that raise

What a computation with a state that may raise does from every state : `Returns m P`, its
result has `P` whenever it returns one; `Yields m P`, it returns a result with `P`; and
`Raises m`, it never returns. A computation that yields something with `P` does not return
only results without it (`Yields.not_returns`).
-/

namespace Outcomes

variable {σ ε α β : Type}

/-- Every result returned has `P`. -/
def Returns (m : StateT σ (Except ε) α) (P : α → Prop) : Prop :=
  ∀ s a s', m.run s = .ok (a, s') → P a

/-- A result with `P` is returned from every state. -/
def Yields (m : StateT σ (Except ε) α) (P : α → Prop) : Prop :=
  ∀ s, ∃ a s', m.run s = .ok (a, s') ∧ P a

/-- Nothing is returned from any state. -/
def Raises (m : StateT σ (Except ε) α) : Prop :=
  ∀ s, ∃ e, m.run s = .error e

theorem run_bind (m : StateT σ (Except ε) α) (f : α → StateT σ (Except ε) β) (s : σ) :
    (m >>= f).run s = match m.run s with
      | .ok (a, s') => (f a).run s'
      | .error e => .error e := by
  show Except.bind (m.run s) _ = _
  cases m.run s <;> rfl

namespace Returns

variable {m : StateT σ (Except ε) α} {P Q : α → Prop}

theorem pure {a : α} (h : P a) : Returns (Pure.pure a : StateT σ (Except ε) α) P := by
  intro s b s' hb
  cases hb
  exact h

theorem throw (e : ε) : Returns (throw e : StateT σ (Except ε) α) P := by
  intro s a s' h
  cases h

theorem bind {f : α → StateT σ (Except ε) β} {R : β → Prop} (hm : Returns m Q)
    (hf : ∀ a, Q a → Returns (f a) R) : Returns (m >>= f) R := by
  intro s b s' h
  rw [run_bind] at h
  cases hr : m.run s with
  | error e =>
    rw [hr] at h
    cases h
  | ok r =>
    obtain ⟨a, s₁⟩ := r
    rw [hr] at h
    exact hf a (hm s a s₁ hr) s₁ b s' h

theorem mono (hm : Returns m P) (h : ∀ a, P a → Q a) : Returns m Q :=
  fun s a s' hr => h a (hm s a s' hr)

theorem lift {x : Except ε α} (h : ∀ a, x = .ok a → P a) :
    Returns (StateT.lift x : StateT σ (Except ε) α) P := by
  intro s a s' hr
  cases x with
  | error e => cases hr
  | ok b =>
    cases hr
    exact h a rfl

end Returns

namespace Yields

variable {m : StateT σ (Except ε) α} {P Q : α → Prop}

theorem pure {a : α} (h : P a) : Yields (Pure.pure a : StateT σ (Except ε) α) P :=
  fun s => ⟨a, s, rfl, h⟩

theorem bind {f : α → StateT σ (Except ε) β} {R : β → Prop} (hm : Yields m Q)
    (hf : ∀ a, Q a → Yields (f a) R) : Yields (m >>= f) R := by
  intro s
  obtain ⟨a, s₁, hr, ha⟩ := hm s
  obtain ⟨b, s₂, hr₂, hb⟩ := hf a ha s₁
  refine ⟨b, s₂, ?_, hb⟩
  rw [run_bind, hr]
  exact hr₂

theorem lift {x : Except ε α} {a : α} (hx : x = .ok a) (h : P a) :
    Yields (StateT.lift x : StateT σ (Except ε) α) P := by
  intro s
  subst hx
  exact ⟨a, s, rfl, h⟩

theorem mono (hm : Yields m P) (h : ∀ a, P a → Q a) : Yields m Q := by
  intro s
  obtain ⟨a, s', hr, ha⟩ := hm s
  exact ⟨a, s', hr, h a ha⟩

theorem not_returns [Inhabited σ] (hm : Yields m Q) (h : ∀ a, Q a → ¬P a) : ¬Returns m P := by
  intro hr
  obtain ⟨a, s', hrun, ha⟩ := hm default
  exact h a ha (hr _ a s' hrun)

end Yields

namespace Raises

variable {m : StateT σ (Except ε) α}

theorem throw (e : ε) : Raises (throw e : StateT σ (Except ε) α) := fun _ => ⟨e, rfl⟩

theorem lift {x : Except ε α} {e : ε} (hx : x = .error e) :
    Raises (StateT.lift x : StateT σ (Except ε) α) := by
  intro s
  subst hx
  exact ⟨e, rfl⟩

theorem bind (hm : Raises m) (f : α → StateT σ (Except ε) β) : Raises (m >>= f) := by
  intro s
  obtain ⟨e, hr⟩ := hm s
  refine ⟨e, ?_⟩
  rw [run_bind, hr]

/-- What comes after a result may raise as well. -/
theorem bind_of_yields {f : α → StateT σ (Except ε) β} {Q : α → Prop} (hm : Yields m Q)
    (hf : ∀ a, Q a → Raises (f a)) : Raises (m >>= f) := by
  intro s
  obtain ⟨a, s₁, hr, ha⟩ := hm s
  obtain ⟨e, he⟩ := hf a ha s₁
  refine ⟨e, ?_⟩
  rw [run_bind, hr]
  exact he

theorem returns {P : α → Prop} (hm : Raises m) : Returns m P := by
  intro s a s' h
  obtain ⟨e, hr⟩ := hm s
  rw [hr] at h
  cases h

end Raises

end Outcomes
