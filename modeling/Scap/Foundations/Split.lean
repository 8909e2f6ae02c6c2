import Mathlib.Data.List.Basic
import Mathlib.Data.List.DropRight
import Mathlib.Tactic.Common

/-!
# Pieces of a separated list

A list cut at a separator falls into pieces, of which the empty ones are usually of no interest
(`pieces`).  Trimming separators at either end leaves the pieces as they are, and what happens to
the end of a trimmed list happens to its last piece (`eq_last_or_append`).
-/

variable {α : Type*} [DecidableEq α] {sep : α}

/-- Removes the separator from both ends. -/
def trimSep (sep : α) (l : List α) : List α := (l.dropWhile (· = sep)).rdropWhile (· = sep)

/-- The nonempty pieces between separators. -/
def pieces (sep : α) (l : List α) : List (List α) := (l.splitOn sep).filter (· ≠ [])

/-- A list is its last piece, or ends in a separator and its last piece. -/
lemma eq_last_or_append (sep : α) (l : List α) :
    sep ∉ l ∨ ∃ a last, l = a ++ sep :: last ∧ sep ∉ last := by
  induction l with
  | nil => exact .inl (by simp)
  | cons x l ih =>
    rcases ih with hnot | ⟨a, last, rfl, hlast⟩
    · by_cases hx : x = sep
      · exact .inr ⟨[], l, by simp [hx], hnot⟩
      · exact .inl (by simp [hnot, Ne.symm hx])
    · exact .inr ⟨x :: a, last, rfl, hlast⟩

/-- A piece holds no separator. -/
lemma not_mem_of_mem_splitOn {l piece : List α} (h : piece ∈ l.splitOn sep) : sep ∉ piece := by
  induction l generalizing piece with
  | nil =>
    obtain rfl : piece = [] := by simpa using h
    simp
  | cons x l ih =>
    rw [List.splitOn_cons_eq_if_modifyHead] at h
    split at h
    · rcases List.mem_cons.mp h with rfl | h
      · simp
      · exact ih h
    · rename_i hx
      have hne : sep ≠ x := fun heq => hx (by simp [heq])
      cases hsplit : l.splitOn sep with
      | nil => exact absurd hsplit (List.splitOn_ne_nil _ _)
      | cons first rest =>
        rw [hsplit, List.modifyHead_cons, List.mem_cons] at h
        rcases h with rfl | h
        · have hfirst : first ∈ l.splitOn sep := by simp [hsplit]
          have := ih hfirst
          simp [hne, this]
        · exact ih (by simp [hsplit, h])

/-! ## Joining pieces -/

/-- Two nonempty lists are joined with a separator in between. -/
lemma intercalate_append {β : Type*} {sep : β} {xs ys : List (List β)} (hxs : xs ≠ [])
    (hys : ys ≠ []) :
    [sep].intercalate (xs ++ ys) = [sep].intercalate xs ++ sep :: [sep].intercalate ys := by
  induction xs with
  | nil => exact absurd rfl hxs
  | cons x xs ih =>
    rcases eq_or_ne xs [] with rfl | hne
    · rw [List.singleton_append, List.intercalate_cons_of_ne_nil hys, List.intercalate_singleton,
        List.append_assoc]
      rfl
    · rw [List.cons_append, List.intercalate_cons_of_ne_nil (by simp [hne]),
        List.intercalate_cons_of_ne_nil hne, ih hne]
      simp

/-! ## The nonempty pieces -/

/-- An empty list has no pieces. -/
@[simp] lemma pieces_nil : pieces sep ([] : List α) = [] := by simp [pieces]

/-- A separator in a list separates pieces. -/
@[simp] lemma pieces_append_sep (a b : List α) :
    pieces sep (a ++ sep :: b) = pieces sep a ++ pieces sep b := by
  rw [pieces, List.splitOn_append_cons_self, List.filter_append, pieces, pieces]

/-- A leading separator makes no piece. -/
@[simp] lemma pieces_sep_cons (l : List α) : pieces sep (sep :: l) = pieces sep l := by
  have := @pieces_append_sep _ _ sep [] l
  simpa using this

/-- A nonempty list without a separator is one piece. -/
lemma pieces_of_not_mem {l : List α} (h : sep ∉ l) (hne : l ≠ []) : pieces sep l = [l] := by
  rw [pieces, List.splitOn_eq_singleton h, List.filter_cons_of_pos (by simpa using hne),
    List.filter_nil]

/-- No piece is empty. -/
lemma ne_nil_of_mem_pieces {l piece : List α} (h : piece ∈ pieces sep l) : piece ≠ [] := by
  simpa using (List.mem_filter.mp h).2

/-- No piece has a separator. -/
lemma not_mem_of_mem_pieces {l piece : List α} (h : piece ∈ pieces sep l) : sep ∉ piece :=
  not_mem_of_mem_splitOn (List.mem_filter.mp h).1

/-- Leading separators make no pieces. -/
@[simp] lemma pieces_dropWhile (l : List α) :
    pieces sep (l.dropWhile (· = sep)) = pieces sep l := by
  induction l with
  | nil => rfl
  | cons x l ih =>
    by_cases hx : x = sep
    · subst hx
      rw [List.dropWhile_cons_of_pos (by simp), ih, pieces_sep_cons]
    · rw [List.dropWhile_cons_of_neg (by simpa using hx)]

/-- Trailing separators make no pieces. -/
@[simp] lemma pieces_rdropWhile (l : List α) :
    pieces sep (l.rdropWhile (· = sep)) = pieces sep l := by
  induction l using List.reverseRecOn with
  | nil => rfl
  | append_singleton l x ih =>
    by_cases hx : x = sep
    · subst hx
      rw [List.rdropWhile_concat_pos _ _ _ (by simp), ih, pieces_append_sep, pieces_nil,
        List.append_nil]
    · rw [List.rdropWhile_concat_neg _ _ _ (by simpa using hx)]

/-- Trimming keeps the pieces. -/
@[simp] lemma pieces_trimSep (l : List α) : pieces sep (trimSep sep l) = pieces sep l := by
  rw [trimSep, pieces_rdropWhile, pieces_dropWhile]

/-- A trimmed list does not end in the separator. -/
lemma getLast?_trimSep_ne (l : List α) : (trimSep sep l).getLast? ≠ some sep := by
  rw [trimSep]
  generalize l.dropWhile (fun x => decide (x = sep)) = m
  induction m using List.reverseRecOn with
  | nil => simp [List.rdropWhile]
  | append_singleton m x ih =>
    by_cases hx : x = sep
    · rwa [List.rdropWhile_concat_pos _ _ _ (by simpa using hx)]
    · rw [List.rdropWhile_concat_neg _ _ _ (by simpa using hx)]
      simpa using hx

/-- The last piece of a list that does not end in the separator is not empty. -/
lemma exists_pieces_eq {l : List α} (hne : l ≠ []) (hlast : l.getLast? ≠ some sep) :
    ∃ last, last ≠ [] ∧ (l.splitOn sep).getLast? = some last ∧
      pieces sep l = (l.splitOn sep).dropLast.filter (· ≠ []) ++ [last] := by
  rcases eq_last_or_append sep l with hnot | ⟨a, last, rfl, hnot⟩
  · exact ⟨l, hne, by simp [List.splitOn_eq_singleton hnot],
      by simp [List.splitOn_eq_singleton hnot, pieces_of_not_mem hnot hne]⟩
  · have hlastNe : last ≠ [] := by
      rintro rfl
      simp at hlast
    refine ⟨last, hlastNe, ?_, ?_⟩
    · simp [List.splitOn_append_cons_self, List.splitOn_eq_singleton hnot]
    · rw [pieces_append_sep, pieces_of_not_mem hnot hlastNe, List.splitOn_append_cons_self,
        List.splitOn_eq_singleton hnot, List.dropLast_concat, pieces]

/-! ## Removing a suffix -/

/-- Removes a suffix, if it is there. -/
def stripSuffix (suffix l : List α) : Option (List α) :=
  if suffix <:+ l then some (l.take (l.length - suffix.length)) else none

/-- A suffix is stripped exactly from what ends in it. -/
lemma stripSuffix_eq_some_iff {suffix l rest : List α} :
    stripSuffix suffix l = some rest ↔ rest ++ suffix = l := by
  unfold stripSuffix
  constructor
  · intro h
    split at h
    · rename_i hsuffix
      obtain ⟨a, rfl⟩ := hsuffix
      obtain rfl : a = rest := by simpa using h
      rfl
    · simp at h
  · rintro rfl
    simp

/-- A suffix is not stripped exactly from what does not end in it. -/
lemma stripSuffix_eq_none_iff {suffix l : List α} :
    stripSuffix suffix l = none ↔ ¬suffix <:+ l := by
  simp [stripSuffix]

/-- A suffix without separators lies within the last piece. -/
lemma stripSuffix_append_sep {suffix : List α} (h : sep ∉ suffix) (a last : List α) :
    stripSuffix suffix (a ++ sep :: last) =
      (stripSuffix suffix last).map fun rest => a ++ sep :: rest := by
  cases hstrip : stripSuffix suffix last with
  | some rest =>
    rw [stripSuffix_eq_some_iff] at hstrip
    rw [Option.map_some, stripSuffix_eq_some_iff, ← hstrip]
    simp
  | none =>
    rw [stripSuffix_eq_none_iff] at hstrip
    rw [Option.map_none, stripSuffix_eq_none_iff]
    intro hsuffix
    have hlast : last <:+ a ++ sep :: last := ⟨a ++ [sep], by simp⟩
    rcases List.suffix_or_suffix_of_suffix hsuffix hlast with hle | ⟨b, rfl⟩
    · exact hstrip hle
    · rcases List.eq_nil_or_concat' b with rfl | ⟨b, x, rfl⟩
      · exact hstrip (List.suffix_refl _)
      · obtain ⟨c, hc⟩ := hsuffix
        have hx : (c ++ b ++ [x]) ++ last = (a ++ [sep]) ++ last := by simpa using hc
        obtain rfl : x = sep := by
          have := congrArg List.getLast? (List.append_cancel_right hx)
          simpa using this
        simp at h

/-- The pieces left when a suffix is removed from the last one. -/
def stripPieces (suffix : List α) (ps : List (List α)) : List (List α) :=
  match ps.getLast?.bind (stripSuffix suffix) with
  | none => ps
  | some [] => ps.dropLast
  | some rest => ps.dropLast ++ [rest]

/-- Removing a suffix without separators from a list that does not end in the separator. -/
lemma pieces_stripSuffix {suffix l : List α} (h : sep ∉ suffix) (hlast : l.getLast? ≠ some sep) :
    pieces sep ((stripSuffix suffix l).getD l) = stripPieces suffix (pieces sep l) := by
  -- What becomes of a last piece on its own.
  have hpiece : ∀ last : List α, sep ∉ last → last ≠ [] → ∀ ps : List (List α),
      ps ++ pieces sep ((stripSuffix suffix last).getD last) =
        stripPieces suffix (ps ++ [last]) := by
    intro last hnot hne ps
    cases hstrip : stripSuffix suffix last with
    | none => simp [stripPieces, hstrip, pieces_of_not_mem hnot hne]
    | some rest =>
      have hrest : sep ∉ rest := fun hmem => hnot (by
        rw [← stripSuffix_eq_some_iff.mp hstrip]
        exact List.mem_append_left _ hmem)
      cases rest with
      | nil => simp [stripPieces, hstrip]
      | cons x rest => simp [stripPieces, hstrip, pieces_of_not_mem hrest]
  rcases eq_last_or_append sep l with hnot | ⟨a, last, rfl, hnot⟩
  · rcases eq_or_ne l [] with rfl | hne
    · cases hstrip : stripSuffix suffix ([] : List α) with
      | none => simp [stripPieces]
      | some rest =>
        obtain ⟨rfl, -⟩ := List.append_eq_nil_iff.mp (stripSuffix_eq_some_iff.mp hstrip)
        simp [stripPieces]
    · simpa [pieces_of_not_mem hnot hne] using hpiece l hnot hne []
  · have hne : last ≠ [] := by
      rintro rfl
      simp at hlast
    rw [pieces_append_sep, pieces_of_not_mem hnot hne, ← hpiece last hnot hne,
      stripSuffix_append_sep h]
    cases stripSuffix suffix last <;> simp
