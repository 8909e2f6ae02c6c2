import Scap.Foundations.Transition

/-!
# Components over a shared state

Any number of components take steps in any order; a step changes the stage of one component and the
shared state.  What a component needs of the shared state may be upset by the steps of others: the
rule of this module (`Reachable.forall_component`) asks that a component's own steps keep it and
that the steps of others respect it.
-/

namespace Interleaving

open Transition (Reachable)

variable {ι τ σ : Type*}

/-- Components with their stages, and what they share. -/
structure State (ι τ σ : Type*) where
  stage : ι → τ
  shared : σ

/-- One component takes a step. -/
def Next (step : ι → τ → σ → τ → σ → Prop) (s s' : State ι τ σ) : Prop :=
  ∃ i, step i (s.stage i) s.shared (s'.stage i) s'.shared ∧ ∀ j, j ≠ i → s'.stage j = s.stage j

variable {init : State ι τ σ → Prop} {step : ι → τ → σ → τ → σ → Prop}

/-- What holds of every component at first, is kept by its own steps, and is respected by the steps
of others, holds of every component in every reachable state. -/
lemma forall_component {P : ι → τ → σ → Prop} (hinit : ∀ s, init s → ∀ i, P i (s.stage i) s.shared)
    (hown : ∀ i a x b y, P i a x → step i a x b y → P i b y)
    (hother : ∀ i j, i ≠ j → ∀ a x b y, P i a x → step i a x b y → ∀ c, P j c x → P j c y)
    {s : State ι τ σ} (h : Reachable init (Next step) s) : ∀ i, P i (s.stage i) s.shared := by
  refine h.invariant (P := fun s => ∀ i, P i (s.stage i) s.shared) hinit ?_
  rintro s s' - hs ⟨i, hi, hrest⟩ j
  by_cases hij : j = i
  · subst hij
    exact hown j _ _ _ _ (hs j) hi
  · rw [hrest j hij]
    exact hother i j (Ne.symm hij) _ _ _ _ (hs i) hi _ (hs j)

/-- What holds of the shared state at first and survives every step of a component, in a stage it
can be in, holds in every reachable state. -/
lemma shared_invariant {P : ι → τ → σ → Prop} {Q : σ → Prop}
    (hcomponent : ∀ s, Reachable init (Next step) s → ∀ i, P i (s.stage i) s.shared)
    (hinit : ∀ s, init s → Q s.shared)
    (hstep : ∀ i a x b y, P i a x → step i a x b y → Q x → Q y) {s : State ι τ σ}
    (h : Reachable init (Next step) s) : Q s.shared :=
  h.invariant hinit fun s _ hs hQ ⟨i, hi, _⟩ => hstep i _ _ _ _ (hcomponent s hs i) hi hQ

end Interleaving
