import Mathlib.Algebra.BigOperators.Fin
import Mathlib.Algebra.BigOperators.Group.Finset.Piecewise
import Mathlib.Algebra.Order.BigOperators.Group.Finset
import Mathlib.Tactic.Linarith

/-!
# Counters that many threads move

What a family of threads holds is a sum over the threads, and a step of one thread changes one
summand (`sum_add_of_ne`, `sum_update`).

A thread that tests a counter against a cap and raises it in a later step is armed in between.  The
cap is then soft: the other threads may pass the test before the armed one raises the counter.
`SoftCap` is the invariant behind the bound: the counter and the armed threads together stay below
the cap and one for each thread but the one that tests.
-/

namespace Counter

open Function (update)

variable {ι α M : Type*} [Fintype ι]

/-- Two families that differ in one place have sums that differ by the two values there. -/
lemma sum_add_of_ne [DecidableEq ι] [AddCommMonoid M] {f g : ι → M} (i : ι)
    (h : ∀ j, j ≠ i → g j = f j) : ∑ j, g j + f i = ∑ j, f j + g i := by
  have hrest : ∑ j ∈ Finset.univ.erase i, g j = ∑ j ∈ Finset.univ.erase i, f j :=
    Finset.sum_congr rfl fun j hj => h j (Finset.ne_of_mem_erase hj)
  rw [← Finset.sum_erase_add _ _ (Finset.mem_univ i),
    ← Finset.sum_erase_add Finset.univ f (Finset.mem_univ i), hrest, add_assoc, add_assoc,
    add_comm (g i)]

/-- Replacing one value of a finite family changes its sum by the difference of the two values. -/
lemma sum_update [DecidableEq ι] [AddCommMonoid M] (f : ι → α) (g : α → M) (i : ι) (x : α) :
    ∑ j, g (update f i x j) + g (f i) = ∑ j, g (f j) + g x := by
  have hsum := sum_add_of_ne (f := fun j => g (f j)) (g := fun j => g (update f i x j)) i
    fun j hj => by rw [Function.update_of_ne hj]
  rwa [Function.update_self] at hsum

/-- The counter and the armed threads together stay within a cap that every thread but one may
overstep by one. -/
structure SoftCap (cap : ℤ) (counter : ℤ) (armed : ι → ℕ) : Prop where
  /-- A thread is armed for one step of the counter at most. -/
  armed_le : ∀ i, armed i ≤ 1
  /-- The bound. -/
  le : counter + ∑ i, (armed i : ℤ) ≤ cap + Fintype.card ι - 1

namespace SoftCap

variable {cap counter counter' : ℤ} {armed : ι → ℕ}

/-- A counter within its cap, with no thread armed. -/
lemma of_le [Nonempty ι] (h : counter ≤ cap) (hnone : ∀ i, armed i = 0) :
    SoftCap cap counter armed where
  armed_le i := by rw [hnone i]; exact zero_le_one
  le := by
    have hcard : 0 < Fintype.card ι := Fintype.card_pos
    simp only [hnone, Nat.cast_zero, Finset.sum_const_zero]
    omega

/-- The counter itself respects the bound. -/
lemma counter_le (h : SoftCap cap counter armed) : counter ≤ cap + Fintype.card ι - 1 := by
  have hnonneg : 0 ≤ ∑ i, (armed i : ℤ) := Finset.sum_nonneg fun i _ => Int.natCast_nonneg _
  linarith [h.le]

variable [DecidableEq ι]

/-- A thread that finds the counter below the cap is armed: whatever the others have done, no more
than all of the threads are. -/
lemma arm (h : SoftCap cap counter armed) (hroom : counter < cap) (i : ι) :
    SoftCap cap counter (update armed i 1) := by
  have hle : ∀ j, update armed i 1 j ≤ 1 := by
    intro j
    by_cases hj : j = i
    · rw [hj, Function.update_self]
    · rw [Function.update_of_ne hj]
      exact h.armed_le j
  refine ⟨hle, ?_⟩
  have hsum : ∑ j, (update armed i 1 j : ℤ) ≤ ∑ _j : ι, 1 :=
    Finset.sum_le_sum fun j _ => by exact_mod_cast hle j
  rw [Finset.sum_const, Finset.card_univ, nsmul_one] at hsum
  linarith [Int.add_one_le_of_lt hroom]

/-- A thread may raise the counter as far as it disarms. -/
lemma spend (h : SoftCap cap counter armed) (i : ι) {a : ℕ} (ha : a ≤ 1)
    (hspend : counter' + a ≤ counter + armed i) : SoftCap cap counter' (update armed i a) := by
  refine ⟨fun j => ?_, ?_⟩
  · by_cases hj : j = i
    · rwa [hj, Function.update_self]
    · rw [Function.update_of_ne hj]
      exact h.armed_le j
  · have hsum := sum_update armed (fun n => (n : ℤ)) i a
    linarith [h.le]

end SoftCap

end Counter
