import Scap.Basic

/-!
# The walker

What one worker does with one directory (`src/walk/sys.rs`): `Walker::run`, `Walker::read_dir`,
`is_repo_dir`, `queue_child`, and the output it fills.

The kernel is the structure `Sys`: the result of every system call the walk can make, for the path
it is made on.  Paths are relative to the walked root; a call on a descriptor and a name is a call
on the joined path.  The walk makes each of these calls at most once, so a `Sys` is any pattern of
answers and failures.  The descriptor budget is a predicate `full`: whether `queue_child` finds it
used up for a child.

An `Out` only ever grows, so a function that appends to the worker's `Out` is given here by what it
appends.  Warnings and debug lines are left out.
-/

namespace Scap

/-! ## The kernel -/

/-- The file types `readdir` and `stat` report. -/
inductive FileType where
  | regularFile | directory | symlink | fifo | socket | characterDevice | blockDevice | unknown
deriving Repr, DecidableEq

/-- The errors the walk tells apart. -/
inductive Errno where
  | MFILE | NFILE | ACCESS | PERM | NOENT | NOTDIR | LOOP | other (code : ℕ)
deriving Repr, DecidableEq

/-- The attributes of an inode the program reads, its type apart. -/
structure Attr where
  /-- `st_dev`. -/
  dev : UInt64
  /-- `st_ino`. -/
  ino : UInt64
  /-- The permission bits of `st_mode`. -/
  mode : ℕ
  /-- `st_mtime`, in seconds. -/
  mtime : Int64
  /-- `st_mtime_nsec`. -/
  mtimeNsec : Int64
deriving Repr, DecidableEq

/-- What `stat` returns. -/
structure Stat extends Attr where
  /-- The file type in `st_mode`. -/
  fileType : FileType
deriving Repr, DecidableEq

/-- The places that stat a path; two of them may stat one path and get different answers. -/
inductive Site where
  /-- `is_repo_dir`. -/
  | inside
  /-- The stat-first strategy. -/
  | statFirst
  /-- `queue_child`, after a refused open. -/
  | refused
  /-- The symlink arm. -/
  | link
  /-- The validation of an index entry. -/
  | probe
deriving Repr, DecidableEq

/-- The answers of the kernel. -/
structure Sys where
  /-- `openat` of a child of an open directory. -/
  openAt : Bytes → Except Errno Unit
  /-- `openat` of a path from the root descriptor. -/
  openPath : Bytes → Except Errno Unit
  /-- `Dir::new` on the opened directory. -/
  dirNew : Bytes → Except Errno Unit
  /-- `fstat` of the opened directory. -/
  fstat : Bytes → Except Errno Stat
  /-- The directory stream: its entries, and the error that cut it short. -/
  readDir : Bytes → List (Bytes × FileType) × Option Errno
  /-- `dirfd` of the stream. -/
  dirFd : Bytes → Except Errno Unit
  /-- `statat` with `SYMLINK_NOFOLLOW`. -/
  lstat : Bytes → Except Errno Stat
  /-- `statat` following symlinks. -/
  stat : Site → Bytes → Except Errno Stat

/-! ## Times -/

/-- The mtime a directory entry carries when the walk could not read one. -/
def NEVER_VALID : Int64 := Int64.minValue

/-- A modification time as nanoseconds since the Unix epoch. -/
def mtimeNs (stat : Stat) : Int64 :=
  saturatingAdd (saturatingMul stat.mtime 1000000000) stat.mtimeNsec

/-! ## Entries -/

/-- The types the walk distinguishes. -/
inductive Kind where
  | dir | symlink | other | unknown
deriving Repr, DecidableEq

/-- `Kind::from_file_type`. -/
def Kind.fromFileType : FileType → Kind
  | .directory => dir
  | .symlink => symlink
  | .unknown => unknown
  | _ => other

/-- One entry of a directory, as `readdir` reported it. -/
structure Ent where
  /-- The entry's name. -/
  name : Bytes
  /-- Its reported type. -/
  kind : Kind
deriving Repr, DecidableEq

/-- `b"."`. -/
def dot : Bytes := ascii ['.']

/-- `b".."`. -/
def dotDot : Bytes := ascii ['.', '.']

/-- The buffer `EntryBuf` after pushing every entry of a stream; `.` and `..` are skipped. -/
def entryBuf (entries : List (Bytes × FileType)) : List Ent :=
  (entries.filter fun e => !(e.1 = dot || e.1 = dotDot)).map
    fun e => ⟨e.1, Kind.fromFileType e.2⟩

/-- Joins `rel` and `name`. -/
def joinRel (rel name : Bytes) : Bytes :=
  if rel.isEmpty then name else rel ++ slash :: name

/-! ## The output -/

/-- One entry the index remembers about a walk. -/
structure Record where
  /-- Root-relative path; empty for the root itself. -/
  rel : Bytes
  /-- The directory's mtime, or `none` for a repository. -/
  mtimeNs : Option Int64
deriving Repr, DecidableEq

/-- A directory entry. -/
def Record.dir (rel : Bytes) (mtimeNs : Int64) : Record := ⟨rel, some mtimeNs⟩

/-- A repository entry. -/
def Record.repo (rel : Bytes) : Record := ⟨rel, none⟩

/-- Whether the entry is a repository the walk emitted. -/
def Record.isRepo (record : Record) : Bool := record.mtimeNs.isNone

/-- Everything one worker produces. -/
structure Out where
  /-- The repositories found. -/
  arena : List Bytes := []
  /-- Directories whose entries were read. -/
  dirsRead : ℕ := 0
  /-- Directories and links an exclusion pruned. -/
  excluded : ℕ := 0
  /-- The index entries. -/
  records : List Record := []
  /-- Whether any directory or subtree was dropped. -/
  incomplete : Bool := false
deriving Repr, DecidableEq

namespace Out

/-- The output of a walk that has found nothing. -/
def new : Out := {}

/-- Folds another output into this one. -/
def merge (out other : Out) : Out where
  arena := out.arena ++ other.arena
  dirsRead := out.dirsRead + other.dirsRead
  excluded := out.excluded + other.excluded
  records := out.records ++ other.records
  incomplete := out.incomplete || other.incomplete

/-- `Out::emit`.  A root that is itself a repository is printed as `.`, and its index entry keeps
the empty path. -/
def emit (record : Bool) (rel : Bytes) : Out where
  arena := [if rel.isEmpty then dot else rel]
  records := if record then [Record.repo rel] else []

/-- `Out::note_dir`. -/
def noteDir (record : Bool) (rel : Bytes) (mtimeNs : Int64) : Out where
  records := if record then [Record.dir rel mtimeNs] else []

/-- `Out::note_incomplete`. -/
def noteIncomplete : Out where
  incomplete := true

/-- `out.excluded += 1`. -/
def noteExcluded : Out where
  excluded := 1

/-- `out.dirs_read += 1`. -/
def noteRead : Out where
  dirsRead := 1

/-- The outputs of several workers or jobs, folded together in order. -/
def mergeAll (outs : List Out) : Out := outs.foldl merge new

/-- An empty output adds nothing in front. -/
@[simp] lemma new_merge (out : Out) : new.merge out = out := by simp [new, merge]

/-- An empty output adds nothing at the end. -/
@[simp] lemma merge_new (out : Out) : out.merge new = out := by simp [new, merge]

/-- Outputs are merged in any grouping. -/
lemma merge_assoc (a b c : Out) : (a.merge b).merge c = a.merge (b.merge c) := by
  simp [merge, Nat.add_assoc, Bool.or_assoc]

/-- No outputs are merged to an empty one. -/
@[simp] lemma mergeAll_nil : mergeAll [] = new := rfl

/-- The first output is merged with the others merged. -/
@[simp] lemma mergeAll_cons (out : Out) (outs : List Out) :
    mergeAll (out :: outs) = out.merge (mergeAll outs) := by
  have hfold : ∀ a b : Out, outs.foldl merge (a.merge b) = a.merge (outs.foldl merge b) := by
    induction outs with
    | nil => exact fun a b => rfl
    | cons c outs ih => exact fun a b => by rw [List.foldl_cons, merge_assoc, ih, List.foldl_cons]
  simpa [mergeAll] using hfold out new

/-- Two lists of outputs are merged one after the other. -/
@[simp] lemma mergeAll_append (xs ys : List Out) :
    mergeAll (xs ++ ys) = (mergeAll xs).merge (mergeAll ys) := by
  induction xs with
  | nil => simp
  | cons x xs ih => simp [ih, merge_assoc]

/-- Folding the outputs of several groups is folding all of them. -/
lemma mergeAll_map_mergeAll (xss : List (List Out)) :
    mergeAll (xss.map mergeAll) = mergeAll xss.flatten := by
  induction xss with
  | nil => rfl
  | cons xs xss ih => simp [ih]

/-- The records of merged outputs are those of each of them. -/
lemma mem_mergeAll_records {outs : List Out} {record : Record} :
    record ∈ (mergeAll outs).records ↔ ∃ out ∈ outs, record ∈ out.records := by
  induction outs with
  | nil => simp [new]
  | cons out outs ih => simp [merge, ih]

/-- The paths listed by merged outputs are those of each of them. -/
lemma mem_mergeAll_arena {outs : List Out} {path : Bytes} :
    path ∈ (mergeAll outs).arena ↔ ∃ out ∈ outs, path ∈ out.arena := by
  induction outs with
  | nil => simp [new]
  | cons out outs ih => simp [merge, ih]

/-- Outputs folded together are short when one of them is. -/
lemma mergeAll_incomplete_iff {outs : List Out} :
    (mergeAll outs).incomplete = true ↔ ∃ out ∈ outs, out.incomplete = true := by
  induction outs with
  | nil => simp [new]
  | cons out outs ih => simp [merge, ih]

/-- The same output, in another order. -/
structure Equiv (a b : Out) : Prop where
  arena : a.arena.Perm b.arena
  dirsRead : a.dirsRead = b.dirsRead
  excluded : a.excluded = b.excluded
  records : a.records.Perm b.records
  incomplete : a.incomplete = b.incomplete

/-- An output is equivalent to itself. -/
lemma Equiv.refl (a : Out) : a.Equiv a := ⟨.rfl, rfl, rfl, .rfl, rfl⟩

/-- Equivalence is transitive. -/
lemma Equiv.trans {a b c : Out} (hab : a.Equiv b) (hbc : b.Equiv c) : a.Equiv c :=
  ⟨hab.arena.trans hbc.arena, hab.dirsRead.trans hbc.dirsRead, hab.excluded.trans hbc.excluded,
    hab.records.trans hbc.records, hab.incomplete.trans hbc.incomplete⟩

/-- Merging respects equivalence. -/
lemma Equiv.merge {a b c d : Out} (hab : a.Equiv b) (hcd : c.Equiv d) :
    (a.merge c).Equiv (b.merge d) where
  arena := hab.arena.append hcd.arena
  dirsRead := by simp [Out.merge, hab.dirsRead, hcd.dirsRead]
  excluded := by simp [Out.merge, hab.excluded, hcd.excluded]
  records := hab.records.append hcd.records
  incomplete := by simp [Out.merge, hab.incomplete, hcd.incomplete]

/-- The order in which outputs are folded together does not matter. -/
lemma Equiv.mergeAll_perm {xs ys : List Out} (h : xs.Perm ys) :
    (mergeAll xs).Equiv (mergeAll ys) := by
  induction h with
  | nil => exact .refl _
  | cons x _ ih => simpa using (Equiv.refl x).merge ih
  | swap x y xs =>
    rw [mergeAll_cons, mergeAll_cons, mergeAll_cons, mergeAll_cons, ← merge_assoc, ← merge_assoc]
    refine Equiv.merge ⟨List.perm_append_comm, Nat.add_comm .., Nat.add_comm ..,
      List.perm_append_comm, Bool.or_comm ..⟩ (.refl _)
  | trans _ _ ih₁ ih₂ => exact ih₁.trans ih₂

end Out

/-! ## Options -/

/-- Which of the two `.git` detection strategies to use. -/
inductive DetectStrategy where
  | openScan | statFirst
deriving Repr, DecidableEq

/-- How one root is to be walked. -/
structure WalkOptions where
  /-- Worker threads. -/
  threads : ℕ
  /-- The exclusion patterns. -/
  exclude : List Bytes
  /-- The detection strategy. -/
  detect : DetectStrategy
  /-- Whether the walk records index entries. -/
  record : Bool
deriving Repr, DecidableEq

/-- A directory the walk has found but not yet read: it carries a descriptor or only its path. -/
structure Job where
  /-- Whether the job carries the descriptor its parent opened. -/
  fd : Bool
  /-- The root-relative path. -/
  rel : Bytes
deriving Repr, DecidableEq

/-! ## The walk of one directory -/

section Walker

variable (wildmatch : Bytes → Bytes → Bool) (sys : Sys) (opts : WalkOptions) (full : Bytes → Bool)

/-- Whether `rel` matches any configured exclusion.  The pattern matcher is a parameter. -/
def isExcluded (patterns : List Bytes) (rel : Bytes) : Bool :=
  patterns.any fun pattern => wildmatch pattern rel

/-- Whether an error that stopped the walk reading a path left the listing short. -/
def dropsASubtree : Errno → Bool
  | .NOENT | .NOTDIR | .LOOP => false
  | _ => true

/-- Nothing was lost exactly if the path was gone, or not a directory, or a symbolic link. -/
lemma dropsASubtree_eq_false_iff {err : Errno} :
    dropsASubtree err = false ↔ err = .NOENT ∨ err = .NOTDIR ∨ err = .LOOP := by
  cases err <;> simp [dropsASubtree]

/-- Whether a system call succeeded. -/
def succeeds {α : Type} (result : Except Errno α) : Bool := result.toBool

/-- `is_repo_dir`: whether a directory's entry list makes it a repository. -/
def isRepoDir (buf : List Ent) (rel : Bytes) : Bool :=
  match buf.find? fun ent => ent.name = dotGit with
  | none => false
  | some ent =>
    match ent.kind with
    | .symlink | .unknown => succeeds (sys.stat .inside (joinRel rel dotGit))
    | _ => true

/-- The output of an error that may have left the listing short. -/
def noteError (err : Errno) : Out :=
  if dropsASubtree err then Out.noteIncomplete else Out.new

/-- `queue_child`, with what its caller does with the outcome. -/
def queueChild (rel : Bytes) : Out × List Job :=
  if full rel then (Out.new, [⟨false, rel⟩])
  else
    match sys.openAt rel with
    | .ok () => (Out.new, [⟨true, rel⟩])
    | .error .MFILE | .error .NFILE => (Out.new, [⟨false, rel⟩])
    | .error .ACCESS | .error .PERM =>
      if succeeds (sys.stat .refused (joinRel rel dotGit)) then (Out.emit opts.record rel, [])
      else (Out.noteIncomplete, [])
    | .error err => (noteError err, [])

/-- The entry's type, by a `statat` where `readdir` reported none; `none` when that fails. -/
def entryKind (rel : Bytes) (ent : Ent) : Option Kind :=
  if ent.kind = .unknown then
    (sys.lstat (joinRel rel ent.name)).toOption.map fun stat => Kind.fromFileType stat.fileType
  else some ent.kind

/-- The directory arm of the entry loop. -/
def readDirectory (rel name : Bytes) : Out × List Job :=
  if isExcluded wildmatch opts.exclude rel then (Out.noteExcluded, [])
  else if dotGit <:+ name then (Out.emit opts.record rel, [])
  else if opts.detect = .statFirst ∧ succeeds (sys.stat .statFirst (joinRel rel dotGit)) then
    (Out.emit opts.record rel, [])
  else queueChild sys opts full rel

/-- The symlink arm of the entry loop; a symlink is never descended. -/
def readSymlink (rel name : Bytes) : Out :=
  if isExcluded wildmatch opts.exclude rel then Out.noteExcluded
  else
    match sys.stat .link rel with
    | .error _ => Out.new
    | .ok stat =>
      if stat.fileType ≠ .directory then Out.new
      else if dotGit <:+ name then Out.emit opts.record rel
      else if succeeds (sys.stat .link (joinRel rel dotGit)) then Out.emit opts.record rel
      else Out.new

/-- One turn of the entry loop of `read_dir`, in the directory `rel`. -/
def readEnt (rel : Bytes) (ent : Ent) : Out × List Job :=
  match entryKind sys rel ent with
  | some .dir => readDirectory wildmatch sys opts full (joinRel rel ent.name) ent.name
  | some .symlink => (readSymlink wildmatch sys opts (joinRel rel ent.name) ent.name, [])
  | _ => (Out.new, [])

/-- The mtime the walk records for the directory, read before its entries. -/
def recordedMtime (rel : Bytes) : Int64 :=
  if opts.record then
    match sys.fstat rel with
    | .ok stat => mtimeNs stat
    | .error _ => NEVER_VALID
  else NEVER_VALID

/-- `Walker::read_dir`: reads one directory, returning what it adds to the worker's output and the
children it queues. -/
def readDir (rel : Bytes) : Out × List Job :=
  match sys.dirNew rel with
  | .error err => (noteError err, [])
  | .ok () =>
    match sys.readDir rel with
    | (_, some _) => (Out.noteIncomplete, [])
    | (entries, none) =>
      match sys.dirFd rel with
      | .error _ => (Out.noteIncomplete, [])
      | .ok () =>
        let buf := entryBuf entries
        if isRepoDir sys buf rel then (Out.noteRead.merge (Out.emit opts.record rel), [])
        else
          let found := buf.map (readEnt wildmatch sys opts full rel)
          (Out.mergeAll (Out.noteRead :: Out.noteDir opts.record rel (recordedMtime sys opts rel) ::
            found.map Prod.fst), found.flatMap Prod.snd)

/-- `Walker::run`: reads the directory a job names, opening it by path when the job carries no
descriptor. -/
def run (job : Job) : Out × List Job :=
  if job.fd then readDir wildmatch sys opts full job.rel
  else
    match sys.openPath job.rel with
    | .ok () => readDir wildmatch sys opts full job.rel
    | .error .MFILE | .error .NFILE => (Out.noteIncomplete, [])
    | .error err => (noteError err, [])

end Walker

end Scap
