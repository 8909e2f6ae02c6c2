import Scap.Walk.RelPath
import Scap.Walk.Root

/-!
# Directory trees

A tree of files, directories and symlinks below one root, and the kernel that answers from it.  A
directory entry says whether `readdir` reports its type; a directory says whether the process may
read and search it.  A symlink is given by what resolving it, and paths below it, yields, so its
target may lie anywhere.  No path the walk opens goes through a symlink, and the kernel of a tree
does not open one.  The empty path is the root: the walk opens the root itself, and never asks for
the empty path below it.
-/

namespace Scap

/-- An object of the file system. -/
inductive Node where
  /-- Anything that is neither a directory nor a symlink. -/
  | file (attr : Attr) (fileType : FileType)
      (plain : fileType ≠ .directory ∧ fileType ≠ .symlink ∧ fileType ≠ .unknown)
  /-- A symlink: `resolve p` is what `stat` finds at the path `p` below its target. -/
  | link (attr : Attr) (resolve : List Bytes → Except Errno Stat)
  /-- A directory, with each entry's name, whether its type is reported, and its object. -/
  | dir (attr : Attr) (readable searchable : Bool) (entries : List (Bytes × Bool × Node))

namespace Node

/-- The attributes of the object. -/
def attr : Node → Attr
  | file attr _ _ | link attr _ | dir attr _ _ _ => attr

/-- The type of the object. -/
def fileType : Node → FileType
  | file _ fileType _ => fileType
  | link _ _ => .symlink
  | dir _ _ _ _ => .directory

/-- What `lstat` finds. -/
def stat (n : Node) : Stat := ⟨n.attr, n.fileType⟩

/-- The entry of a directory with a given name. -/
def lookup (entries : List (Bytes × Bool × Node)) (name : Bytes) : Option Node :=
  (entries.find? fun e => e.1 = name).map fun e => e.2.2

/-- The object at a path, through real directories only. -/
def at? : List Bytes → Node → Option Node
  | [], n => some n
  | name :: p, dir _ _ _ entries => (lookup entries name).bind (at? p)
  | _ :: _, _ => none

/-- What the kernel finds at a path, following a symlink in the last place or not. -/
def find (follow : Bool) : List Bytes → Node → Except Errno Stat
  | [], link attr resolve => if follow then resolve [] else .ok ⟨attr, .symlink⟩
  | [], n => .ok n.stat
  | p@(_ :: _), link _ resolve => resolve p
  | _ :: _, file _ _ _ => .error .NOTDIR
  | name :: p, n@(dir _ _ searchable entries) =>
    if !searchable then .error .ACCESS
    else if name = dot then find follow p n
    else
      match lookup entries name with
      | some m => find follow p m
      | none => .error .NOENT

/-- Opening the directory at a path, without following a symlink in the last place. -/
def openDir : List Bytes → Node → Except Errno Unit
  | [], dir _ readable _ _ => if readable then .ok () else .error .ACCESS
  | _, link _ _ => .error .LOOP
  | _, file _ _ _ => .error .NOTDIR
  | name :: p, dir _ _ searchable entries =>
    if !searchable then .error .ACCESS
    else
      match lookup entries name with
      | some m => openDir p m
      | none => .error .NOENT

/-- The entries a directory stream yields. -/
def stream : Node → List (Bytes × FileType)
  | dir _ _ _ entries => (dot, .directory) :: (dotDot, .directory) ::
      entries.map fun e => (e.1, if e.2.1 then e.2.2.fileType else .unknown)
  | _ => []

end Node

/-- A tree: an object that is not a symlink, whose directories hold distinct, possible names. -/
structure Tree where
  /-- What the root path resolves to. -/
  root : Node
  /-- The root path is resolved. -/
  resolved : ∀ attr resolve, root ≠ .link attr resolve
  /-- The names in a directory are distinct. -/
  distinct : ∀ p attr r x entries, root.at? p = some (.dir attr r x entries) →
    (entries.map Prod.fst).Nodup
  /-- The names in a directory are names. -/
  valid : ∀ p attr r x entries, root.at? p = some (.dir attr r x entries) →
    ∀ e ∈ entries, ValidName e.1

namespace Tree

variable (t : Tree)

/-- The kernel that answers from the tree. -/
def sys : Sys where
  openAt rel := t.root.openDir (components rel)
  openPath rel := t.root.openDir (components rel)
  dirNew rel := t.root.openDir (components rel)
  fstat rel := t.root.find false (components rel)
  readDir rel := (((t.root.at? (components rel)).map Node.stream).getD [], none)
  dirFd _ := .ok ()
  lstat rel := t.root.find false (components rel)
  stat _ rel := t.root.find true (components rel)

/-- The kernel and the root. -/
def host : Host where
  statRoot := .ok t.root.stat
  openBase := t.root.openDir []
  openRead := t.root.openDir []
  openRoot := t.root.openDir []
  fstatRoot := .ok t.root.stat
  sys := t.sys

/-- The process may read and search every directory, and the mode bits say so. -/
def Accessible : Prop :=
  ∀ p attr r x entries, t.root.at? p = some (.dir attr r x entries) →
    r = true ∧ x = true ∧ attr.mode &&& 0o444 ≠ 0

end Tree

/-! ## Paths in a tree -/

namespace Node

/-- At the empty path is the object itself. -/
@[simp] lemma at?_nil (n : Node) : n.at? [] = some n := by cases n <;> rfl

/-- The object at a path is found one part of the path after the other. -/
lemma at?_append (n : Node) (p q : List Bytes) :
    n.at? (p ++ q) = (n.at? p).bind fun m => m.at? q := by
  induction p generalizing n with
  | nil => simp
  | cons name p ih =>
    cases n with
    | dir attr r x entries =>
      simp only [List.cons_append, at?]
      cases lookup entries name with
      | none => rfl
      | some m => exact ih m
    | _ => rfl

/-- An entry is looked up by its name. -/
lemma lookup_eq_some_of_mem {entries : List (Bytes × Bool × Node)}
    (hdistinct : (entries.map Prod.fst).Nodup) {e : Bytes × Bool × Node} (he : e ∈ entries) :
    lookup entries e.1 = some e.2.2 := by
  induction entries with
  | nil => simp at he
  | cons d entries ih =>
    rw [List.map_cons, List.nodup_cons] at hdistinct
    rcases List.mem_cons.mp he with rfl | he
    · simp [lookup]
    · have hne : d.1 ≠ e.1 := fun h => hdistinct.1 (h ▸ List.mem_map_of_mem he)
      have := ih hdistinct.2 he
      simpa [lookup, List.find?_cons, hne] using this

/-- What a lookup gives is an entry. -/
lemma exists_mem_of_lookup {entries : List (Bytes × Bool × Node)} {name : Bytes} {n : Node}
    (h : lookup entries name = some n) : ∃ e ∈ entries, e.1 = name ∧ e.2.2 = n := by
  obtain ⟨e, he, rfl⟩ := Option.map_eq_some_iff.mp h
  exact ⟨e, List.mem_of_find?_eq_some he, by simpa using List.find?_some he, rfl⟩

/-- What holds of a directory and of every directory below its entries holds of every directory the
directory holds. -/
lemma forall_dir {P : Attr → Bool → Bool → List (Bytes × Bool × Node) → Prop} {attr : Attr}
    {r x : Bool} {entries : List (Bytes × Bool × Node)} (hself : P attr r x entries)
    (hbelow : ∀ e ∈ entries, ∀ p attr' r' x' entries',
    e.2.2.at? p = some (dir attr' r' x' entries') →
      P attr' r' x' entries') :
    ∀ p attr' r' x' entries', (dir attr r x entries).at? p = some (dir attr' r' x' entries') →
      P attr' r' x' entries' := by
  intro p attr' r' x' entries' h
  cases p with
  | nil =>
    obtain ⟨rfl, rfl, rfl, rfl⟩ : attr = attr' ∧ r = r' ∧ x = x' ∧ entries = entries' := by
      simpa using h
    exact hself
  | cons name p =>
    obtain ⟨m, hm, h⟩ := Option.bind_eq_some_iff.mp h
    obtain ⟨e, he, -, rfl⟩ := exists_mem_of_lookup hm
    exact hbelow e he p attr' r' x' entries' h

/-- An object in a directory is smaller than the directory. -/
lemma sizeOf_lt_of_lookup {attr : Attr} {r x : Bool} {entries : List (Bytes × Bool × Node)}
    {name : Bytes} {n : Node} (h : lookup entries name = some n) :
    sizeOf n < sizeOf (dir attr r x entries) := by
  obtain ⟨e, he, -, rfl⟩ := exists_mem_of_lookup h
  have hlt := List.sizeOf_lt_of_mem he
  obtain ⟨name, typed, n⟩ := e
  simp at hlt ⊢
  omega

/-- Whether the process may search every directory on the way to a path. -/
def passable : List Bytes → Node → Bool
  | [], _ => true
  | name :: p, dir _ _ searchable entries => searchable && (lookup entries name).any (passable p)
  | _ :: _, _ => false

/-- The way to the object itself is passable. -/
@[simp] lemma passable_nil (n : Node) : n.passable [] = true := by cases n <;> rfl

/-- What lies below a path that exists is found from there, if one gets there. -/
lemma find_append {n m : Node} (follow : Bool) {p : List Bytes} (hp : ValidPath p)
    (hm : n.at? p = some m) (q : List Bytes) :
    n.find follow (p ++ q) = if n.passable p then m.find follow q else .error .ACCESS := by
  induction p generalizing n with
  | nil =>
    obtain rfl : n = m := by simpa using hm
    simp
  | cons name p ih =>
    cases n with
    | dir attr r x entries =>
      obtain ⟨k, hk, hm⟩ := Option.bind_eq_some_iff.mp hm
      have hname : name ≠ dot := (hp name (by simp)).ne_dot
      have hrest := ih (fun n hn => hp n (by simp [hn])) hm
      cases x <;> simp [find, passable, hname, hk, hrest]
    | _ => simp [at?] at hm

/-- What lies below a path that exists is opened from there, if one gets there. -/
lemma openDir_append {n m : Node} {p : List Bytes} (hm : n.at? p = some m) (q : List Bytes) :
    n.openDir (p ++ q) = if n.passable p then m.openDir q else .error .ACCESS := by
  induction p generalizing n with
  | nil =>
    obtain rfl : n = m := by simpa using hm
    simp
  | cons name p ih =>
    cases n with
    | dir attr r x entries =>
      obtain ⟨k, hk, hm⟩ := Option.bind_eq_some_iff.mp hm
      have hrest := ih hm
      cases x <;> simp [openDir, passable, hk, hrest]
    | _ => simp [at?] at hm

/-- A file system object in which every directory can be read and searched. -/
def Open (n : Node) : Prop :=
  ∀ p attr r x entries, n.at? p = some (.dir attr r x entries) → r = true ∧ x = true

/-- An object in an open directory is open. -/
lemma Open.of_lookup {attr : Attr} {r x : Bool} {entries : List (Bytes × Bool × Node)}
    {name : Bytes} {m : Node} (h : (dir attr r x entries).Open)
    (hm : lookup entries name = some m) :
    m.Open := by
  intro p attr' r' x' entries' hp
  exact h (name :: p) attr' r' x' entries' (by simpa [at?, hm] using hp)

/-- One gets everywhere. -/
lemma Open.passable {n m : Node} (h : n.Open) {p : List Bytes} (hm : n.at? p = some m) :
    n.passable p = true := by
  induction p generalizing n with
  | nil => exact passable_nil n
  | cons name p ih =>
    cases n with
    | dir attr r x entries =>
      obtain ⟨k, hk, hm⟩ := Option.bind_eq_some_iff.mp hm
      have hx : x = true := (h [] attr r x entries rfl).2
      simp [Node.passable, hx, hk, ih (h.of_lookup hk) hm]
    | _ => simp [at?] at hm

/-- What lies below a path that exists is found from there. -/
lemma Open.find_append {n m : Node} (h : n.Open) (follow : Bool) {p : List Bytes} (hp : ValidPath p)
    (hm : n.at? p = some m) (q : List Bytes) : n.find follow (p ++ q) = m.find follow q := by
  rw [Node.find_append follow hp hm, h.passable hm, if_pos rfl]

/-- Opening a path succeeds on a directory, and its failure on anything else loses nothing. -/
lemma Open.openDir {n : Node} (h : n.Open) (p : List Bytes) :
    match n.at? p with
    | some (.dir _ _ _ _) => n.openDir p = .ok ()
    | _ => ∃ err ∈ [Errno.NOENT, .NOTDIR, .LOOP], n.openDir p = .error err := by
  induction p generalizing n with
  | nil =>
    cases n with
    | dir attr r x entries => simp [Node.openDir, (h [] attr r x entries rfl).1]
    | _ => simp [Node.openDir]
  | cons name p ih =>
    cases n with
    | dir attr r x entries =>
      have hx : x = true := (h [] attr r x entries rfl).2
      simp only [at?, Node.openDir, hx]
      cases hm : lookup entries name with
      | none => simp
      | some m => simpa using ih (h.of_lookup hm)
    | _ => simp [at?, Node.openDir]

end Node

namespace Tree

variable {t : Tree}

/-- A tree with accessible directories is open. -/
lemma Accessible.isOpen (h : t.Accessible) : t.root.Open :=
  fun p attr r x entries hp => ⟨(h p attr r x entries hp).1, (h p attr r x entries hp).2.1⟩

/-- A path that exists consists of names. -/
lemma validPath {p : List Bytes} {n : Node} (h : t.root.at? p = some n) : ValidPath p := by
  induction p using List.reverseRecOn generalizing n with
  | nil => simp
  | append_singleton p name ih =>
    obtain ⟨m, hm, hn⟩ := Option.bind_eq_some_iff.mp ((Node.at?_append ..).symm.trans h)
    refine validPath_append.mpr ⟨ih hm, validPath_singleton.mpr ?_⟩
    cases m with
    | dir attr r x entries =>
      obtain ⟨k, hk, -⟩ := Option.bind_eq_some_iff.mp hn
      obtain ⟨e, he, rfl, -⟩ := Node.exists_mem_of_lookup hk
      exact t.valid p attr r x entries hm e he
    | _ => simp [Node.at?] at hn

/-- The object at a path is found by the path's text. -/
lemma at?_render {p : List Bytes} {n : Node} (h : t.root.at? p = some n) :
    t.root.at? (components (render p)) = some n := by
  rwa [components_render (validPath h)]

/-- An entry of a directory is the object at the joined path. -/
lemma at?_entry {p : List Bytes} {attr : Attr} {r x : Bool} {entries : List (Bytes × Bool × Node)}
    (h : t.root.at? p = some (.dir attr r x entries)) {e : Bytes × Bool × Node} (he : e ∈ entries) :
    t.root.at? (p ++ [e.1]) = some e.2.2 := by
  rw [Node.at?_append, h]
  simp [Node.at?, Node.lookup_eq_some_of_mem (t.distinct p attr r x entries h) he]

/-- Whatever lies below a directory is an entry of it. -/
lemma exists_entry {p : List Bytes} {attr : Attr} {r x : Bool}
    {entries : List (Bytes × Bool × Node)} (h : t.root.at? p = some (.dir attr r x entries))
    {name : Bytes} {n : Node} (hn : t.root.at? (p ++ [name]) = some n) :
    ∃ e ∈ entries, e.1 = name ∧ e.2.2 = n := by
  rw [Node.at?_append, h, Option.bind_some, Node.at?] at hn
  obtain ⟨m, hm, hn⟩ := Option.bind_eq_some_iff.mp hn
  obtain rfl : m = n := by simpa using hn
  exact Node.exists_mem_of_lookup hm

end Tree

/-! ## Trees from objects -/

namespace Node

/-- The directories of an object hold distinct, possible names. -/
def Named (n : Node) : Prop :=
  ∀ p attr r x entries, n.at? p = some (.dir attr r x entries) →
    (entries.map Prod.fst).Nodup ∧ ∀ e ∈ entries, ValidName e.1

/-- A directory with distinct and valid names is well named. -/
lemma Named.dir {attr : Attr} {r x : Bool} {entries : List (Bytes × Bool × Node)}
    (hdistinct : (entries.map Prod.fst).Nodup)
    (hentries : ∀ e ∈ entries, ValidName e.1 ∧ e.2.2.Named) : (Node.dir attr r x entries).Named :=
  forall_dir (P := fun _ _ _ entries => (entries.map Prod.fst).Nodup ∧ ∀ e ∈ entries, ValidName e.1)
    ⟨hdistinct, fun e he => (hentries e he).1⟩ fun e he => (hentries e he).2

/-- A link has no names. -/
lemma Named.link (attr : Attr) (resolve : List Bytes → Except Errno Stat) :
    (Node.link attr resolve).Named := by
  intro p attr' r x entries h
  cases p <;> simp [at?] at h

/-- An empty directory. -/
def emptyDir (attr : Attr) : Node := .dir attr true true []

/-- An empty directory has no names. -/
lemma Named.emptyDir (attr : Attr) : (Node.emptyDir attr).Named := .dir (by simp) (by simp)

end Node

/-- The tree of a directory. -/
def Tree.ofDir (attr : Attr) (r x : Bool) (entries : List (Bytes × Bool × Node))
    (h : (Node.dir attr r x entries).Named) : Tree where
  root := .dir attr r x entries
  resolved := by simp
  distinct p attr' r' x' entries' hp := (h p attr' r' x' entries' hp).1
  valid p attr' r' x' entries' hp := (h p attr' r' x' entries' hp).2

end Scap
