import Mathlib
import ChunkHound.StepSystem

/-!
# Parties over a shared state

Any number of parties take steps, one at a time. A step of a party changes the state they share and
its own. `Guaranteed.invariant` is the rule of rely and guarantee : what every party keeps over its
own steps, and what the steps of the others cannot end, holds in every state reached.
-/

namespace Interleaving

open StepSystem

variable {ι σ τ ε : Type*}

structure World (ι σ τ : Type*) where
  shared : σ
  locals : ι → τ

/-- A step of one party. -/
def act [DecidableEq ι] (step : ι → σ → τ → ε → Option (σ × τ)) (w : World ι σ τ) (a : ι × ε) :
    Option (World ι σ τ) :=
  (step a.1 w.shared (w.locals a.1) a.2).map fun r =>
    ⟨r.1, Function.update w.locals a.1 r.2⟩

/-- Each party keeps `I` over its own steps and changes the shared state as `G` says, and no party
ends the `I` of another one so. -/
structure Guaranteed (step : ι → σ → τ → ε → Option (σ × τ)) (G : ι → σ → σ → Prop)
    (I : ι → σ → τ → Prop) : Prop where
  keeps : ∀ {i shared l e shared' l'}, I i shared l → step i shared l e = some (shared', l') →
    I i shared' l' ∧ G i shared shared'
  stable : ∀ {i j shared shared' l}, i ≠ j → I i shared l → G j shared shared' → I i shared' l

variable [DecidableEq ι] {step : ι → σ → τ → ε → Option (σ × τ)} {G : ι → σ → σ → Prop}
  {I : ι → σ → τ → Prop} {w w' : World ι σ τ}

/-- A step of one party keeps what all of them hold. -/
theorem Guaranteed.act (h : Guaranteed step G I) (hI : ∀ i, I i w.shared (w.locals i)) {a : ι × ε}
    (hs : act step w a = some w') :
    (∀ i, I i w'.shared (w'.locals i)) ∧ G a.1 w.shared w'.shared := by
  obtain ⟨⟨shared', l'⟩, hstep, rfl⟩ := Option.map_eq_some_iff.1 hs
  obtain ⟨hkeeps, hG⟩ := h.keeps (hI a.1) hstep
  refine ⟨fun i => ?_, hG⟩
  by_cases hi : i = a.1
  · subst hi
    change I a.1 shared' (Function.update w.locals a.1 l' a.1)
    rw [Function.update_self]
    exact hkeeps
  · change I i shared' (Function.update w.locals a.1 l' i)
    rw [Function.update_of_ne hi]
    exact h.stable hi (hI i) hG

/-- Over any run all parties hold what they held at its start, and the shared state only changes as
they say. -/
theorem Guaranteed.invariant (h : Guaranteed step G I) (hI : ∀ i, I i w.shared (w.locals i))
    (hr : Reach (Interleaving.act step) w w') :
    (∀ i, I i w'.shared (w'.locals i)) ∧
      Relation.ReflTransGen (fun s s' => ∃ i, G i s s') w.shared w'.shared := by
  induction hr with
  | init => exact ⟨hI, .refl⟩
  | step _ _ hs ih =>
    obtain ⟨hinv, hG⟩ := h.act ih.1 hs
    exact ⟨hinv, ih.2.tail ⟨_, hG⟩⟩

end Interleaving
