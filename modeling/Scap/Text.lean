import Mathlib.Data.List.Basic
import Mathlib.Data.List.DropRight
import Mathlib.Tactic.Common

/-!
# Text

Strings as lists of characters, and the string functions of the standard library that the source
uses.
-/

namespace Scap

/-- A string. -/
abbrev Str := List Char

/-- What holds of the characters of a text, tested one by one. -/
lemma forall_mem_of_all {α : Type} {p : α → Prop} [DecidablePred p] {s : List α}
    (h : s.all fun c => p c) : ∀ c ∈ s, p c := by simpa using h

/-- `str::strip_prefix`. -/
def stripStart (start s : Str) : Option Str :=
  if start <+: s then some (s.drop start.length) else none

/-- The parts before and after the first `c`. -/
def splitFirst {α : Type} [DecidableEq α] (c : α) (s : List α) : Option (List α × List α) :=
  if c ∈ s then some (s.takeWhile (· ≠ c), (s.dropWhile (· ≠ c)).tail) else none

/-- The parts before and after the last `c`. -/
def splitLast {α : Type} [DecidableEq α] (c : α) (s : List α) : Option (List α × List α) :=
  (splitFirst c s.reverse).map fun (after, before) => (before.reverse, after.reverse)

/-- `char::is_whitespace`. -/
def isWhitespace (c : Char) : Bool :=
  let n := c.toNat
  (9 ≤ n && n ≤ 13) || n = 0x20 || n = 0x85 || n = 0xa0 || n = 0x1680 ||
    (0x2000 ≤ n && n ≤ 0x200a) || n = 0x2028 || n = 0x2029 || n = 0x202f || n = 0x205f || n = 0x3000

/-- `str::trim`. -/
def trim (s : Str) : Str := (s.dropWhile isWhitespace).rdropWhile isWhitespace

/-- `str::to_ascii_lowercase`. -/
def toAsciiLowercase (s : Str) : Str := s.map Char.toLower

/-- `char::is_ascii_alphanumeric`. -/
def isAsciiAlphanumeric (c : Char) : Bool := c.isAlphanum

/-- A character is alphanumeric if it is an upper-case or lower-case letter or a digit. -/
lemma isAsciiAlphanumeric_eq (c : Char) :
    isAsciiAlphanumeric c = (c.isUpper || c.isLower || c.isDigit) := rfl

/-- Where a list is cut whose first part satisfies a test and whose second part does not begin
so. -/
lemma takeWhile_dropWhile_append {α : Type} {p : α → Bool} {xs ys : List α}
    (hxs : ∀ x ∈ xs, p x = true) (hys : ∀ y ∈ ys.head?, p y = false) :
    (xs ++ ys).takeWhile p = xs ∧ (xs ++ ys).dropWhile p = ys := by
  rw [List.takeWhile_append_of_pos hxs, List.dropWhile_append_of_pos hxs]
  cases ys with
  | nil => exact ⟨List.append_nil xs, rfl⟩
  | cons y ys =>
    have hy : ¬p y = true := Bool.not_eq_true _ ▸ hys y rfl
    rw [List.takeWhile_cons_of_neg hy, List.dropWhile_cons_of_neg hy, List.append_nil]
    exact ⟨rfl, rfl⟩

/-- A start is stripped from a text that begins with it. -/
lemma stripStart_append (start rest : Str) : stripStart start (start ++ rest) = some rest := by
  unfold stripStart
  rw [if_pos (List.prefix_append ..), List.drop_left]

/-- A start is stripped exactly from what begins with it. -/
lemma stripStart_eq_some_iff {start s rest : Str} :
    stripStart start s = some rest ↔ s = start ++ rest := by
  constructor
  · intro h
    unfold stripStart at h
    split at h
    · rename_i hpre
      obtain ⟨tail, rfl⟩ := hpre
      rw [List.drop_left, Option.some.injEq] at h
      rw [h]
    · cases h
  · rintro rfl
    exact stripStart_append start rest

/-- A list without a separator is not split. -/
lemma splitFirst_of_not_mem {α : Type} [DecidableEq α] {c : α} {s : List α} (h : c ∉ s) :
    splitFirst c s = none := if_neg h

/-- A list is split at the separator that comes first. -/
lemma splitFirst_append {α : Type} [DecidableEq α] {c : α} {a : List α} (h : c ∉ a) (b : List α) :
    splitFirst c (a ++ c :: b) = some (a, b) := by
  have hne : ∀ x ∈ a, decide (x ≠ c) = true := fun x hx => decide_eq_true fun heq => h (heq ▸ hx)
  unfold splitFirst
  rw [if_pos (by simp), List.takeWhile_append_of_pos hne, List.dropWhile_append_of_pos hne]
  simp

/-- What a list is split into are what is before its first separator and what is after. -/
lemma splitFirst_eq_some_iff {α : Type} [DecidableEq α] {c : α} {s a b : List α} :
    splitFirst c s = some (a, b) ↔ s = a ++ c :: b ∧ c ∉ a := by
  constructor
  · intro h
    have hmem : c ∈ s := by
      by_contra hnot
      simp [splitFirst_of_not_mem hnot] at h
    obtain ⟨a', b', rfl, hnot⟩ := List.eq_append_cons_of_mem hmem
    obtain ⟨rfl, rfl⟩ : a' = a ∧ b' = b := by simpa [splitFirst_append hnot] using h
    exact ⟨rfl, hnot⟩
  · rintro ⟨rfl, hnot⟩
    exact splitFirst_append hnot b

/-- A list without a separator is not split at its last one. -/
lemma splitLast_of_not_mem {α : Type} [DecidableEq α] {c : α} {s : List α} (h : c ∉ s) :
    splitLast c s = none := by
  rw [splitLast, splitFirst_of_not_mem (by simpa using h), Option.map_none]

/-- A list is split at the separator that comes last. -/
lemma splitLast_append {α : Type} [DecidableEq α] {c : α} {b : List α} (h : c ∉ b) (a : List α) :
    splitLast c (a ++ c :: b) = some (a, b) := by
  have hreverse : (a ++ c :: b).reverse = b.reverse ++ c :: a.reverse := by simp
  rw [splitLast, hreverse, splitFirst_append (by simpa using h)]
  simp

/-- A chain of fallible steps succeeds when each of them does. -/
lemma bind_eq_ok {ε α β : Type} {x : Except ε α} {f : α → Except ε β} {b : β} :
    x >>= f = .ok b ↔ ∃ a, x = .ok a ∧ f a = .ok b := by
  cases x with
  | error e => exact ⟨fun h => (nomatch h), fun ⟨_, h, _⟩ => (nomatch h)⟩
  | ok a => exact ⟨fun h => ⟨a, rfl, h⟩, fun ⟨_, h, hb⟩ => by cases h; exact hb⟩

end Scap
