import Mathlib.Data.List.Basic
import Mathlib.Tactic.Common

/-!
# Pieces of a buffer

Pieces laid one after the other into one buffer, and the spans they take up there.  Spans laid from
another offset are the old ones moved (`map_shift_spans`), a span cuts its own piece out of the
buffer (`map_slice_spans`), and two spans never share a place (`pairwise_spans`).
-/

namespace Spans

variable {α : Type*}

/-- The half-open spans that consecutive pieces take up from an offset on. -/
def spans (offset : ℕ) : List (List α) → List (ℕ × ℕ)
  | [] => []
  | piece :: pieces => (offset, offset + piece.length) :: spans (offset + piece.length) pieces

/-- The span moved by a distance. -/
def shift (distance : ℕ) (span : ℕ × ℕ) : ℕ × ℕ := (span.1 + distance, span.2 + distance)

/-- What a span holds of a buffer. -/
def slice (buffer : List α) (span : ℕ × ℕ) : List α := (buffer.take span.2).drop span.1

/-- No pieces have no spans. -/
@[simp] lemma spans_nil (offset : ℕ) : spans offset ([] : List (List α)) = [] := rfl

/-- The first piece begins at the offset, and the others where it ends. -/
@[simp] lemma spans_cons (offset : ℕ) (piece : List α) (pieces : List (List α)) :
    spans offset (piece :: pieces) =
      (offset, offset + piece.length) :: spans (offset + piece.length) pieces := rfl

/-- There is a span for each piece. -/
@[simp] lemma length_spans (offset : ℕ) (pieces : List (List α)) :
    (spans offset pieces).length = pieces.length := by
  induction pieces generalizing offset with
  | nil => rfl
  | cons piece pieces ih => simp [ih]

/-- The spans of more pieces begin where those of the first end. -/
lemma spans_append (offset : ℕ) (xs ys : List (List α)) :
    spans offset (xs ++ ys) = spans offset xs ++ spans (offset + xs.flatten.length) ys := by
  induction xs generalizing offset with
  | nil => rfl
  | cons x xs ih => simp [ih, Nat.add_assoc]

/-- Moving the spans of some pieces is laying the pieces further along. -/
lemma map_shift_spans (distance offset : ℕ) (pieces : List (List α)) :
    (spans offset pieces).map (shift distance) = spans (offset + distance) pieces := by
  induction pieces generalizing offset with
  | nil => rfl
  | cons piece pieces ih =>
    rw [spans_cons, List.map_cons, ih, spans_cons, shift, Nat.add_right_comm offset]

/-- Every span lies in the stretch the pieces take up together. -/
lemma mem_spans {offset : ℕ} {pieces : List (List α)} {span : ℕ × ℕ}
    (h : span ∈ spans offset pieces) :
    offset ≤ span.1 ∧ span.1 ≤ span.2 ∧ span.2 ≤ offset + pieces.flatten.length := by
  induction pieces generalizing offset with
  | nil => exact absurd h List.not_mem_nil
  | cons piece pieces ih =>
    rw [List.flatten_cons, List.length_append]
    rcases List.mem_cons.mp h with rfl | h
    · exact ⟨Nat.le_refl _, Nat.le_add_right .., by omega⟩
    · obtain ⟨hfrom, hle, hto⟩ := ih h
      exact ⟨by omega, hle, by omega⟩

/-- A span ends before any later one starts. -/
lemma pairwise_spans (offset : ℕ) (pieces : List (List α)) :
    (spans offset pieces).Pairwise fun a b => a.2 ≤ b.1 := by
  induction pieces generalizing offset with
  | nil => exact .nil
  | cons piece pieces ih => exact List.pairwise_cons.mpr ⟨fun span h => (mem_spans h).1, ih _⟩

/-- Every span holds the piece it was laid for. -/
lemma map_slice_spans (before : List α) (pieces : List (List α)) :
    (spans before.length pieces).map (slice (before ++ pieces.flatten)) = pieces := by
  induction pieces generalizing before with
  | nil => rfl
  | cons piece pieces ih =>
    have hrest := ih (before ++ piece)
    rw [List.length_append, List.append_assoc, ← List.flatten_cons] at hrest
    have hfirst : slice (before ++ (piece :: pieces).flatten)
        (before.length, before.length + piece.length) = piece := by
      rw [slice, List.flatten_cons, ← List.append_assoc, ← List.length_append, List.take_left,
        List.drop_left]
    rw [spans_cons, List.map_cons, hrest, hfirst]

end Spans
