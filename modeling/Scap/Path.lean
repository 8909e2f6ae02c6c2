import Scap.Foundations.Split
import Scap.Text

/-!
# Destination paths

`dest_path` and `rel_path` (`src/path.rs`), over paths as text: `PathBuf::push` and `Path::join` are
functions on strings.  `lexical` resolves a path without looking at the file system.

`Repo.confined_iff` says when a destination is confined: a path of ordinary components, pushed onto
any root, resolves to a path strictly below it.
-/

namespace Scap

/-- What `from_input` makes of a target. -/
structure Repo where
  host : Str
  owner : Str
  name : Str
  vcsHint : Option Str
  httpsUrl : Str
  sshUrl : Str
  originalInput : Str
deriving Repr, DecidableEq

/-- `PathBuf::push`: an absolute path replaces the buffer. -/
def push (path part : Str) : Str :=
  if part.head? = some '/' then part
  else if path = [] ∨ path.getLast? = some '/' then path ++ part
  else path ++ '/' :: part

/-- `rel_path`. -/
def relPath (repo : Repo) (bare : Bool) : Str :=
  let path := push [] repo.host
  let path := ((repo.owner.splitOn '/').filter (· ≠ [])).foldl push path
  if bare then push path (repo.name ++ ".git".toList) else push path repo.name

/-- `dest_path`. -/
def destPath (root : Str) (repo : Repo) (bare : Bool) : Str := push root (relPath repo bare)

/-! ## Lexical resolution -/

/-- One component on top of the components before it, innermost first. -/
def resolvePart (absolute : Bool) (stack : List Str) (part : Str) : List Str :=
  if part = [] ∨ part = ".".toList then stack
  else if part = "..".toList then
    match stack with
    | top :: rest => if top = "..".toList then part :: stack else rest
    | [] => if absolute then [] else [part]
  else part :: stack

/-- The components of a path once `.` and `..` are resolved. -/
def lexical (path : Str) : List Str :=
  ((path.splitOn '/').foldl (resolvePart (path.head? = some '/')) []).reverse

/-! ## Confinement -/

/-- An ordinary name: non-empty, not `.`, not `..`, without `/`. -/
structure Ordinary (name : Str) : Prop where
  nonempty : name ≠ []
  ne_dot : name ≠ ".".toList
  ne_dotDot : name ≠ "..".toList
  noSlash : '/' ∉ name

instance (name : Str) : Decidable (Ordinary name) :=
  decidable_of_iff (name ≠ [] ∧ name ≠ ".".toList ∧ name ≠ "..".toList ∧ '/' ∉ name)
    ⟨fun ⟨h₁, h₂, h₃, h₄⟩ => ⟨h₁, h₂, h₃, h₄⟩, fun ⟨h₁, h₂, h₃, h₄⟩ => ⟨h₁, h₂, h₃, h₄⟩⟩

/-- The repository's own name, as its directory carries it. -/
def Repo.dirName (repo : Repo) (bare : Bool) : Str :=
  if bare then repo.name ++ ".git".toList else repo.name

/-- The destination is confined: every component of the relative path is ordinary, and below every
root the destination resolves to a path strictly below it that ends in the repository's own name. -/
structure Repo.Confined (repo : Repo) (bare : Bool) : Prop where
  ordinary : ∀ part ∈ (relPath repo bare).splitOn '/', Ordinary part
  below : ∀ root, ∃ rest, lexical (destPath root repo bare) = lexical root ++ rest ∧ rest ≠ [] ∧
    rest.getLast? = some (repo.dirName bare)

/-- An ordinary name does not end with a slash. -/
lemma Ordinary.getLast?_ne {name : Str} (h : Ordinary name) :
    name.getLast? ≠ some '/' := fun hlast =>
  h.noSlash (List.mem_of_mem_getLast? hlast)

/-- Ordinary components just pile up. -/
lemma foldl_resolvePart {parts : List Str} (h : ∀ part ∈ parts, Ordinary part) (absolute : Bool)
    (stack : List Str) :
    parts.foldl (resolvePart absolute) stack = parts.reverse ++ stack := by
  induction parts generalizing stack with
  | nil => rfl
  | cons part parts ih =>
    obtain ⟨hpart, hparts⟩ := List.forall_mem_cons.mp h
    have hstep : resolvePart absolute stack part = part :: stack := by
      unfold resolvePart
      rw [if_neg fun h => h.elim hpart.nonempty hpart.ne_dot, if_neg hpart.ne_dotDot]
    rw [List.foldl_cons, hstep, ih hparts, List.reverse_cons, List.append_assoc]
    rfl

/-- A relative path of ordinary components, joined to any root, resolves to what the root resolves
to and these components. -/
lemma lexical_push (root : Str) {rel : Str} (h : ∀ part ∈ rel.splitOn '/', Ordinary part) :
    lexical (push root rel) = lexical root ++ rel.splitOn '/' := by
  have hhead : rel.head? ≠ some '/' := by
    intro hhead
    obtain ⟨rest, rfl⟩ := List.head?_eq_some_iff.mp hhead
    refine (h [] ?_).nonempty rfl
    rw [show '/' :: rest = [] ++ '/' :: rest from rfl, List.splitOn_append_cons_self]
    simp
  have hreverse : ∀ absolute stack, ((rel.splitOn '/').foldl (resolvePart absolute) stack).reverse =
      stack.reverse ++ rel.splitOn '/' := fun absolute stack => by
    rw [foldl_resolvePart h, List.reverse_append, List.reverse_reverse]
  rw [push, if_neg hhead]
  rcases eq_or_ne root [] with rfl | hne
  · rw [if_pos (.inl rfl), List.nil_append, lexical, hreverse]
    rfl
  · have habsolute : ∀ l, (root ++ l).head? = root.head? := fun l => by
      cases root with
      | nil => exact absurd rfl hne
      | cons c root => rfl
    split
    · -- The root ends in a separator, so its last component is empty.
      rename_i hlast
      obtain ⟨root, rfl⟩ := List.getLast?_eq_some_iff.mp (hlast.resolve_left hne)
      have hroot : (root ++ ['/']).splitOn '/' = root.splitOn '/' ++ [[]] := by
        rw [List.splitOn_append_cons_self, List.splitOn_nil]
      rw [lexical, lexical, habsolute, hroot, List.append_assoc, List.singleton_append,
        List.splitOn_append_cons_self, List.foldl_append, List.foldl_append, hreverse]
      simp [resolvePart]
    · rw [lexical, lexical, habsolute, List.splitOn_append_cons_self, List.foldl_append, hreverse]

/-- A destination of ordinary components is confined. -/
lemma Repo.confined_iff (repo : Repo) (bare : Bool)
    (hlast : ((relPath repo bare).splitOn '/').getLast? = some (repo.dirName bare)) :
    repo.Confined bare ↔ ∀ part ∈ (relPath repo bare).splitOn '/', Ordinary part := by
  refine ⟨fun h => h.ordinary, fun h => ⟨h, fun root => ⟨_, lexical_push root h, ?_, hlast⟩⟩⟩
  exact List.splitOn_ne_nil _ _

/-! ## The components of a relative path -/

/-- The components below which a path pushed onto `path` lands. -/
def baseParts (path : Str) : List Str :=
  if path = [] then []
  else if path.getLast? = some '/' then (path.splitOn '/').dropLast
  else path.splitOn '/'

/-- An empty path has no parts. -/
@[simp] lemma baseParts_nil : baseParts [] = [] := rfl

/-- An ordinary name is one part. -/
lemma Ordinary.baseParts_eq {name : Str} (h : Ordinary name) : baseParts name = [name] := by
  rw [baseParts, if_neg h.nonempty, if_neg h.getLast?_ne, List.splitOn_eq_singleton h.noSlash]

/-- A part without separators becomes the last component. -/
lemma splitOn_push (path : Str) {part : Str} (hslash : '/' ∉ part) :
    (push path part).splitOn '/' = baseParts path ++ [part] := by
  have hhead : part.head? ≠ some '/' := fun h => hslash (List.mem_of_mem_head? h)
  have hsplit : part.splitOn '/' = [part] := List.splitOn_eq_singleton hslash
  unfold push baseParts
  rw [if_neg hhead]
  rcases eq_or_ne path [] with rfl | hne
  · simpa using hsplit
  · by_cases hlast : path.getLast? = some '/'
    · obtain ⟨path, rfl⟩ := List.getLast?_eq_some_iff.mp hlast
      rw [if_pos (.inr hlast), if_neg hne, if_pos hlast, List.append_assoc, List.singleton_append,
        List.splitOn_append_cons_self, hsplit, List.splitOn_append_cons_self, List.splitOn_nil,
        List.dropLast_concat]
    · rw [if_neg (by simp [hne, hlast]), if_neg hne, if_neg hlast, List.splitOn_append_cons_self,
        hsplit]

/-- After a push, the next one lands below what was pushed. -/
lemma baseParts_push (path : Str) {part : Str} (hne : part ≠ []) (hslash : '/' ∉ part) :
    baseParts (push path part) = baseParts path ++ [part] := by
  have hhead : part.head? ≠ some '/' := fun h => hslash (List.mem_of_mem_head? h)
  have hlast : part.getLast? ≠ some '/' := fun h => hslash (List.mem_of_mem_getLast? h)
  obtain ⟨init, c, rfl⟩ := (List.eq_nil_or_concat' part).resolve_left hne
  have hend : ∃ start, push path (init ++ [c]) = start ++ [c] := by
    unfold push
    rw [if_neg hhead]
    split
    · exact ⟨path ++ init, by simp⟩
    · exact ⟨path ++ '/' :: init, by simp⟩
  rw [← splitOn_push path hslash]
  obtain ⟨start, hstart⟩ := hend
  rw [hstart, baseParts, if_neg (by simp), if_neg (by simpa using hlast)]

/-- Pushed parts come after those of the path. -/
lemma baseParts_foldl_push {parts : List Str} (h : ∀ part ∈ parts, part ≠ [] ∧ '/' ∉ part)
    (path : Str) : baseParts (parts.foldl push path) = baseParts path ++ parts := by
  induction parts generalizing path with
  | nil => simp
  | cons part parts ih =>
    obtain ⟨⟨hne, hslash⟩, hparts⟩ := List.forall_mem_cons.mp h
    rw [List.foldl_cons, ih hparts, baseParts_push path hne hslash, List.append_assoc]
    rfl

/-- The components of a relative path: the host, the pieces of the owner, and the name. -/
lemma splitOn_relPath (repo : Repo) (bare : Bool) (hslash : '/' ∉ repo.name) :
    (relPath repo bare).splitOn '/' =
      baseParts repo.host ++ pieces '/' repo.owner ++ [repo.dirName bare] := by
  have hhost : push [] repo.host = repo.host := by simp [push]
  have howner : baseParts ((pieces '/' repo.owner).foldl push repo.host) =
      baseParts repo.host ++ pieces '/' repo.owner := by
    apply baseParts_foldl_push
    exact fun part hpart => ⟨ne_nil_of_mem_pieces hpart, not_mem_of_mem_pieces hpart⟩
  have hrel : relPath repo bare =
      push ((pieces '/' repo.owner).foldl push repo.host) (repo.dirName bare) := by
    simp only [relPath, hhost, Repo.dirName, pieces]
    split <;> rfl
  have hdir : '/' ∉ repo.dirName bare := by
    unfold Repo.dirName
    split
    · exact fun h => (List.mem_append.mp h).elim hslash (by decide)
    · exact hslash
  rw [hrel, splitOn_push _ hdir, howner]

end Scap
