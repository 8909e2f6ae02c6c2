import Mathlib.Data.List.Basic
import Mathlib.Tactic.Common

/-!
# Lists that say something twice

Two lists of which one is the other with some block said twice in a row.  What is computed item by
item stutters where its input does (`flatMap`, `filterMap`); what depends on the first or the last
occurrences, or only on what occurs, does not (`getLast?_eq`, `eraseDups_eq`, `mem_iff`).
-/

variable {α β : Type*}

/-- The second list is the first with a block said twice. -/
def Stutter (xs ys : List α) : Prop := ∃ a b c, xs = a ++ (b ++ c) ∧ ys = a ++ (b ++ (b ++ c))

namespace Stutter

variable {xs ys : List α}

/-- A list stutters to itself, with nothing said twice. -/
lemma refl (xs : List α) : Stutter xs xs := ⟨[], [], xs, rfl, rfl⟩

/-- A list said twice. -/
lemma twice (xs : List α) : Stutter xs (xs ++ xs) := ⟨[], xs, [], by simp, by simp⟩

/-- More can be said before. -/
lemma append_left (h : Stutter xs ys) (zs : List α) : Stutter (zs ++ xs) (zs ++ ys) := by
  obtain ⟨a, b, c, rfl, rfl⟩ := h
  exact ⟨zs ++ a, b, c, by simp, by simp⟩

/-- More can be said after. -/
lemma append_right (h : Stutter xs ys) (zs : List α) : Stutter (xs ++ zs) (ys ++ zs) := by
  obtain ⟨a, b, c, rfl, rfl⟩ := h
  exact ⟨a, b, c ++ zs, by simp, by simp⟩

/-- Mapping to lists and joining them keeps the stutter. -/
lemma flatMap (h : Stutter xs ys) (f : α → List β) : Stutter (xs.flatMap f) (ys.flatMap f) := by
  obtain ⟨a, b, c, rfl, rfl⟩ := h
  exact ⟨a.flatMap f, b.flatMap f, c.flatMap f, by simp, by simp⟩

/-- Filtering keeps the stutter. -/
lemma filterMap (h : Stutter xs ys) (f : α → Option β) :
    Stutter (xs.filterMap f) (ys.filterMap f) := by
  obtain ⟨a, b, c, rfl, rfl⟩ := h
  exact ⟨a.filterMap f, b.filterMap f, c.filterMap f, by simp, by simp⟩

/-- Mapping keeps the stutter. -/
lemma map (h : Stutter xs ys) (f : α → β) : Stutter (xs.map f) (ys.map f) := by
  obtain ⟨a, b, c, rfl, rfl⟩ := h
  exact ⟨a.map f, b.map f, c.map f, by simp, by simp⟩

/-- Reversing keeps the stutter. -/
lemma reverse (h : Stutter xs ys) : Stutter xs.reverse ys.reverse := by
  obtain ⟨a, b, c, rfl, rfl⟩ := h
  exact ⟨c.reverse, b.reverse, a.reverse, by simp, by simp⟩

/-- The same things are said. -/
lemma mem_iff (h : Stutter xs ys) {x : α} : x ∈ xs ↔ x ∈ ys := by
  obtain ⟨a, b, c, rfl, rfl⟩ := h
  simp

/-- Nothing is said twice if nothing is said. -/
lemma eq_nil_iff (h : Stutter xs ys) : xs = [] ↔ ys = [] := by
  simp only [List.eq_nil_iff_forall_not_mem, h.mem_iff]

/-- The same holds of some of what is said. -/
lemma any_eq (h : Stutter xs ys) (p : α → Bool) : xs.any p = ys.any p := by
  obtain ⟨a, b, c, rfl, rfl⟩ := h
  simp

/-- The last item is said last once or twice. -/
lemma getLast?_eq (h : Stutter xs ys) : xs.getLast? = ys.getLast? := by
  obtain ⟨a, b, c, rfl, rfl⟩ := h
  simp only [List.getLast?_append]
  cases c.getLast? <;> cases b.getLast? <;> rfl

/-- The first occurrences are the same. -/
lemma eraseDups_eq [BEq α] [LawfulBEq α] (h : Stutter xs ys) : xs.eraseDups = ys.eraseDups := by
  obtain ⟨a, b, c, rfl, rfl⟩ := h
  have hremoved : b.removeAll (a ++ b) = [] := by
    rw [List.removeAll, List.filter_eq_nil_iff]
    intro x hx
    simp [hx]
  have hagain : (b ++ c).removeAll (a ++ b) = c.removeAll (a ++ b) := by
    rw [List.removeAll, List.filter_append, ← List.removeAll, ← List.removeAll, hremoved,
      List.nil_append]
  calc (a ++ (b ++ c)).eraseDups
      = (a ++ b).eraseDups ++ (c.removeAll (a ++ b)).eraseDups := by
        rw [← List.append_assoc, List.eraseDups_append]
    _ = (a ++ (b ++ (b ++ c))).eraseDups := by
        rw [← hagain, ← List.eraseDups_append, List.append_assoc]

end Stutter
