import Mathlib.Logic.Function.Basic
import Mathlib.Tactic.Common

/-!
# Files and their names

A directory of files as a map from names to files, apart from what the files hold: a file that was
opened stays what it is when its name is removed or goes to another file.  The operations are those
of POSIX on plain files: open with `O_CREAT | O_TRUNC`, append, rename and unlink.  `NamedOnly` is
what makes a file private: no other name leads to it, so no one who opens another name gets it.
-/

open Function (update)

/-- A directory: the file each name leads to, what each file holds, and the first file that does not
exist yet. -/
structure FileStore (N α : Type*) where
  names : N → Option ℕ
  data : ℕ → List α
  next : ℕ

namespace FileStore

variable {N α : Type*}

/-! ## Operations -/

/-- What the file of a name holds. -/
def contents (f : FileStore N α) (n : N) : Option (List α) := (f.names n).map f.data

/-- A write at the end of an open file. -/
def append (f : FileStore N α) (i : ℕ) (xs : List α) : FileStore N α :=
  { f with data := update f.data i (f.data i ++ xs) }

/-- The file an open with `O_CREAT` returns. -/
def opened (f : FileStore N α) (n : N) : ℕ := (f.names n).getD f.next

section

variable [DecidableEq N]

/-- Open with `O_CREAT | O_TRUNC`. -/
def create (f : FileStore N α) (n : N) : FileStore N α where
  names := update f.names n (some (f.opened n))
  data := update f.data (f.opened n) []
  next := if f.names n = none then f.next + 1 else f.next

/-- `unlink`. -/
def unlink (f : FileStore N α) (n : N) : FileStore N α := { f with names := update f.names n none }

/-- `rename` of a name that leads to the file `i`. -/
def rename (f : FileStore N α) (i : ℕ) (source target : N) : FileStore N α :=
  { f with names := update (update f.names source none) target (some i) }

end

/-! ## Private files -/

/-- A file that exists and has no name but this one. -/
structure NamedOnly (f : FileStore N α) (i : ℕ) (n : N) : Prop where
  old : i < f.next
  only : ∀ m, f.names m = some i → m = n

/-- Every name leads to a file that exists, and different names to different files. -/
def Tidy (f : FileStore N α) : Prop := ∀ n i, f.names n = some i → f.NamedOnly i n

variable {f : FileStore N α} {i j : ℕ} {n m : N}

/-- Appending to a file appends to its data. -/
@[simp] lemma data_append_self (f : FileStore N α) (i : ℕ) (xs : List α) :
    (f.append i xs).data i = f.data i ++ xs := Function.update_self ..

/-- Appending to a file leaves the data of the others as they are. -/
lemma data_append_of_ne (h : j ≠ i) (xs : List α) : (f.append i xs).data j = f.data j :=
  Function.update_of_ne h ..

/-- Writing to another file leaves what a name holds. -/
lemma contents_append (h : f.names n ≠ some i) (xs : List α) :
    (f.append i xs).contents n = f.contents n := by
  unfold contents
  refine Option.map_congr fun j hj => data_append_of_ne ?_ xs
  rintro rfl
  exact h hj

/-- Appending keeps a file's only name. -/
lemma NamedOnly.append (h : f.NamedOnly j n) (xs : List α) : (f.append i xs).NamedOnly j n :=
  ⟨h.old, h.only⟩

/-- Appending leaves the names in order. -/
lemma Tidy.append (h : f.Tidy) (i : ℕ) (xs : List α) : (f.append i xs).Tidy :=
  fun n j hn => (h n j hn).append xs

/-- A file that is neither new nor led to by the name is not the one that is opened. -/
lemma ne_opened (hold : i < f.next) (hname : f.names n ≠ some i) : i ≠ f.opened n := by
  unfold opened
  cases hn : f.names n with
  | none => exact Nat.ne_of_lt hold
  | some j =>
    rintro rfl
    exact hname hn

/-- A file that has only another name is not the one that opening a name gives. -/
lemma NamedOnly.ne_opened (h : f.NamedOnly i n) (hne : n ≠ m) : i ≠ f.opened m :=
  FileStore.ne_opened h.old fun hname => hne (h.only m hname).symm

variable [DecidableEq N]

/-- Creating never reuses a file. -/
lemma next_le_create (f : FileStore N α) (n : N) : f.next ≤ (f.create n).next := by
  unfold create
  dsimp only
  split <;> omega

/-- What is created has its name. -/
lemma names_create_self (f : FileStore N α) (n : N) : (f.create n).names n = some (f.opened n) :=
  Function.update_self ..

/-- A name of a file after an open is an old one, or the one that was opened. -/
lemma names_create (h : (f.create n).names m = some i) :
    f.names m = some i ∨ m = n ∧ i = f.opened n := by
  have h : update f.names n (some (f.opened n)) m = some i := h
  by_cases hm : m = n
  · subst hm
    rw [Function.update_self, Option.some.injEq] at h
    exact .inr ⟨rfl, h.symm⟩
  · rw [Function.update_of_ne hm] at h
    exact .inl h

/-- A file created or opened for writing is empty. -/
@[simp] lemma data_create_opened (f : FileStore N α) (n : N) :
    (f.create n).data (f.opened n) = [] := Function.update_self ..

/-- Creating leaves the data of the others as they are. -/
lemma data_create_of_ne (h : i ≠ f.opened n) : (f.create n).data i = f.data i :=
  Function.update_of_ne h ..

/-- Opening another file leaves a private file private. -/
lemma NamedOnly.create (h : f.NamedOnly i n) (hne : i ≠ f.opened m) :
    (f.create m).NamedOnly i n where
  old := Nat.lt_of_lt_of_le h.old (next_le_create f m)
  only k hk := by
    rcases names_create hk with hold | ⟨-, heq⟩
    · exact h.only k hold
    · exact absurd heq hne

/-- The file that was opened is private. -/
lemma Tidy.namedOnly_opened (h : f.Tidy) (n : N) : (f.create n).NamedOnly (f.opened n) n := by
  refine ⟨?_, fun m hm => ?_⟩
  · unfold FileStore.create opened
    cases hn : f.names n with
    | none => simp
    | some i => simpa using (h n i hn).old
  · rcases names_create hm with hold | ⟨heq, -⟩
    · cases hn : f.names n with
      | none =>
        rw [opened, hn] at hold
        exact absurd (h m _ hold).old (Nat.lt_irrefl _)
      | some i =>
        rw [opened, hn] at hold
        exact (h n i hn).only m hold
    · exact heq

/-- Creating leaves the names in order. -/
lemma Tidy.create (h : f.Tidy) (n : N) : (f.create n).Tidy := by
  intro m i hm
  rcases eq_or_ne i (f.opened n) with rfl | hne
  · have hopened := h.namedOnly_opened n
    rwa [hopened.only m hm]
  · rcases names_create hm with hold | ⟨-, heq⟩
    · exact (h m i hold).create hne
    · exact absurd heq hne

/-- A name that is left after `unlink` was there before. -/
lemma names_unlink (h : (f.unlink n).names m = some i) : f.names m = some i := by
  have h : update f.names n none m = some i := h
  by_cases hm : m = n
  · subst hm
    rw [Function.update_self] at h
    cases h
  · rwa [Function.update_of_ne hm] at h

/-- A file keeps its only name, or loses it, when a name is removed. -/
lemma NamedOnly.unlink (h : f.NamedOnly i n) (m : N) : (f.unlink m).NamedOnly i n :=
  ⟨h.old, fun k hk => h.only k (names_unlink hk)⟩

/-- `unlink` leaves the names in order. -/
lemma Tidy.unlink (h : f.Tidy) (n : N) : (f.unlink n).Tidy :=
  fun m i hm => (h m i (names_unlink hm)).unlink n

/-- A name of a file after a rename is the target, or an old one that is not the source. -/
lemma names_rename {source target : N} (h : (f.rename i source target).names m = some j) :
    m = target ∧ j = i ∨ m ≠ source ∧ f.names m = some j := by
  have h : update (update f.names source none) target (some i) m = some j := h
  by_cases hm : m = target
  · subst hm
    rw [Function.update_self, Option.some.injEq] at h
    exact .inl ⟨rfl, h.symm⟩
  · rw [Function.update_of_ne hm] at h
    by_cases hs : m = source
    · subst hs
      rw [Function.update_self] at h
      cases h
    · rw [Function.update_of_ne hs] at h
      exact .inr ⟨hs, h⟩

/-- A rename leaves the other private files private. -/
lemma NamedOnly.rename {source target : N} (h : f.NamedOnly j n) (hne : j ≠ i) :
    (f.rename i source target).NamedOnly j n :=
  ⟨h.old, fun m hm => (names_rename hm).elim (fun heq => absurd heq.2 hne) fun hold =>
    h.only m hold.2⟩

/-- `rename` leaves the names in order. -/
lemma Tidy.rename {source target : N} (h : f.Tidy) (hi : f.names source = some i) :
    (f.rename i source target).Tidy := by
  intro m j hm
  rcases eq_or_ne j i with rfl | hne
  · -- The renamed file has the target for its only name.
    have honly : ∀ k, (f.rename j source target).names k = some j → k = target := fun k hk =>
      (names_rename hk).elim And.left fun hold =>
        absurd ((h source j hi).only k hold.2) hold.1
    rw [honly m hm]
    exact ⟨(h source j hi).old, honly⟩
  · exact (names_rename hm).elim (fun heq => absurd heq.2 hne) fun hold =>
      (h m j hold.2).rename hne

/-! ## What names hold -/

/-- Creating under one name leaves the contents of another as they are. -/
lemma Tidy.contents_create (h : f.Tidy) (hne : m ≠ n) : (f.create n).contents m = f.contents m := by
  have hnames : (f.create n).names m = f.names m := Function.update_of_ne hne ..
  unfold contents
  rw [hnames]
  exact Option.map_congr fun i hi => data_create_of_ne ((h m i hi).ne_opened hne)

/-- `unlink` removes the contents of one name. -/
lemma contents_unlink (f : FileStore N α) (n m : N) :
    (f.unlink n).contents m = if m = n then none else f.contents m := by
  have hnames : (f.unlink n).names m = if m = n then none else f.names m :=
    Function.update_apply ..
  rw [contents, hnames]
  split_ifs <;> rfl

/-- `rename` gives one name the contents of the file, and leaves those of the others as they are. -/
lemma contents_rename {source target : N} (hne : m ≠ source) :
    (f.rename i source target).contents m =
      if m = target then some (f.data i) else f.contents m := by
  have hnames : (f.rename i source target).names m = if m = target then some i else f.names m := by
    refine (Function.update_apply ..).trans ?_
    rw [Function.update_of_ne hne]
  rw [contents, hnames]
  split_ifs <;> rfl

end FileStore
