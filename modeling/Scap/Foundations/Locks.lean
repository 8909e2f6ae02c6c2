import Mathlib.Logic.Function.Basic
import Mathlib.Tactic.Common

/-!
# Locks and their holders

A lock has an owner or none, and a thread holds at most one lock of a kind, which its stage says.
`Owned` says that the two accounts agree; then a lock has one holder (`Owned.exclusive`), and they
go on agreeing as a thread goes on, takes a lock or gives it back.
-/

variable {L T σ : Type*}

/-- The owner of a lock is the thread whose stage holds it. -/
def Owned (held : σ → Option L) (owner : L → Option T) (stage : T → σ) : Prop :=
  ∀ l t, owner l = some t ↔ held (stage t) = some l

namespace Owned

variable {held : σ → Option L} {owner : L → Option T} {stage : T → σ}

/-- A lock has at most one holder. -/
lemma exclusive (h : Owned held owner stage) {l : L} {t t' : T} (ht : held (stage t) = some l)
    (ht' : held (stage t') = some l) : t = t' :=
  Option.some.inj (((h l t).mpr ht).symm.trans ((h l t').mpr ht'))

variable [DecidableEq T] {t : T} {new : σ}

/-- A thread goes on with the lock it has, or has not. -/
lemma keep (h : Owned held owner stage) (hsame : held new = held (stage t)) :
    Owned held owner (Function.update stage t new) := by
  intro l t'
  by_cases ht : t' = t
  · subst ht
    rw [Function.update_self, hsame]
    exact h l t'
  · rw [Function.update_of_ne ht]
    exact h l t'

variable [DecidableEq L] {l : L}

/-- A thread without a lock takes a free one. -/
lemma acquire (h : Owned held owner stage) (hfree : owner l = none)
    (hnone : held (stage t) = none) (hnew : held new = some l) :
    Owned held (Function.update owner l (some t)) (Function.update stage t new) := by
  intro l' t'
  by_cases hl : l' = l <;> by_cases ht : t' = t
  · subst hl ht
    simp [hnew]
  · subst hl
    have hother : held (stage t') ≠ some l' := fun hheld => by
      rw [(h l' t').mpr hheld] at hfree
      cases hfree
    simp [Function.update_of_ne ht, hother, Ne.symm ht]
  · subst ht
    have hother : owner l' ≠ some t' := fun howner => by
      rw [(h l' t').mp howner] at hnone
      cases hnone
    simp [Function.update_of_ne hl, hother, hnew, Ne.symm hl]
  · rw [Function.update_of_ne hl, Function.update_of_ne ht]
    exact h l' t'

/-- A thread gives its lock back. -/
lemma release (h : Owned held owner stage) (hheld : held (stage t) = some l)
    (hnew : held new = none) :
    Owned held (Function.update owner l none) (Function.update stage t new) := by
  intro l' t'
  by_cases hl : l' = l <;> by_cases ht : t' = t
  · subst hl ht
    simp [hnew]
  · subst hl
    have hother : held (stage t') ≠ some l' := fun hheld' => ht (h.exclusive hheld' hheld)
    simp [Function.update_of_ne ht, hother]
  · subst ht
    have hother : owner l' ≠ some t' := fun howner => by
      rw [(h l' t').mp howner] at hheld
      exact hl (Option.some.inj hheld)
    simp [Function.update_of_ne hl, hother, hnew]
  · rw [Function.update_of_ne hl, Function.update_of_ne ht]
    exact h l' t'

end Owned
