import Mathlib.Data.List.Sort
import Mathlib.Tactic.Common

/-!
# Sorting

A list sorted by a linear order.  Which sorting algorithm is used cannot be seen in the result: it
is a function of what the list holds, and lists that hold the same are the lists with the same
sorted copy (`sorted_eq_iff`).
-/

namespace Sorting

variable {α : Type*} [LE α] [DecidableLE α]

/-- The list in ascending order. -/
def sorted (xs : List α) : List α := xs.mergeSort fun a b => decide (a ≤ b)

/-- Sorting keeps the elements. -/
lemma sorted_perm (xs : List α) : (sorted xs).Perm xs := List.mergeSort_perm ..

/-- What is sorted has the same elements. -/
@[simp] lemma mem_sorted {xs : List α} {a : α} : a ∈ sorted xs ↔ a ∈ xs :=
  (sorted_perm xs).mem_iff

variable [Std.IsLinearOrder α]

/-- What is sorted is in order. -/
lemma pairwise_sorted (xs : List α) : (sorted xs).Pairwise (· ≤ ·) := by
  have htrans : ∀ a b c : α, decide (a ≤ b) = true → decide (b ≤ c) = true →
      decide (a ≤ c) = true := by
    simp only [decide_eq_true_eq]
    exact fun a b c hab hbc => Std.le_trans hab hbc
  have htotal : ∀ a b : α, (decide (a ≤ b) || decide (b ≤ a)) = true :=
    fun a b => by simpa using Std.le_total
  have hsorted := List.pairwise_mergeSort htrans htotal xs
  simp only [decide_eq_true_eq] at hsorted
  exact hsorted

/-- The sorted copy is the only ascending rearrangement. -/
lemma eq_sorted {xs ys : List α} (hperm : ys.Perm xs) (hsorted : ys.Pairwise (· ≤ ·)) :
    ys = sorted xs :=
  (hperm.trans (sorted_perm xs).symm).eq_of_pairwise (fun _ _ _ _ => Std.le_antisymm) hsorted
    (pairwise_sorted xs)

/-- Lists are sorted alike if and only if they are rearrangements of each other. -/
theorem sorted_eq_iff {xs ys : List α} : sorted xs = sorted ys ↔ xs.Perm ys := by
  constructor
  · intro h
    exact (sorted_perm xs).symm.trans (h ▸ sorted_perm ys)
  · intro h
    exact eq_sorted ((sorted_perm xs).trans h) (pairwise_sorted xs)

end Sorting
