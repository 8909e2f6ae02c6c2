import Scap.Foundations.Transition
import Scap.Index.Validate
import Scap.Walk.Tree

/-!
# Listing through the index

`Cache::list_root` and what it calls (`src/index.rs`): load the index of a root, validate it, walk
what did not validate, and write the index back.

A `World` is the tree under one root together with the root's index file.  Its steps are arbitrary
mutations of the tree, losses of the file, and runs of `list_root`.  The only thing a mutation may
not do is bring back a settled mtime an index recorded for a directory once that directory's entry
list has changed (`Evidence`).
-/

namespace Scap

/-! ## One run -/

/-- `RootListing::from_records`. -/
def RootListing.fromRecords (records : List Record) (dirsRead excluded : ℕ) (incomplete : Bool) :
    RootListing where
  arena := (records.filter Record.isRepo).map fun record =>
    if record.rel.isEmpty then dot else record.rel
  dirsRead := dirsRead
  excluded := excluded
  records := records
  incomplete := incomplete

/-- Whether `index` was written for exactly this root, under exactly these exclusions. -/
def describes (index : Index) (root : Bytes) (stat : Stat) (exclude : List Bytes) : Bool :=
  index.root = root && index.dev = stat.dev && index.ino = stat.ino && index.exclude = exclude

/-- `load`: reads and decodes one index file; `none` is a file that could not be read. -/
def load (file : Option Bytes) : Option Index := file.bind Index.decode

section

variable (wildmatch : Bytes → Bytes → Bool) (host : Host) (root : Bytes) (opts : WalkOptions)

/-- `cached_listing` returns `result`; `none` means to walk the whole root. -/
def CachedListing (file : Option Bytes) (result : Except WalkError (Option RootListing)) : Prop :=
  match load file, host.openRoot, host.fstatRoot with
  | some index, .ok (), .ok stat =>
    if !describes index root stat opts.exclude then result = .ok none
    else
      let rootName := (fileName root).getD []
      let probes := probeAll host.sys rootName index opts.threads
      ∃ outcome, walkIndex index probes = some outcome ∧
        -- A stale root entry leaves no parent to re-walk from.
        if [] ∈ outcome.stale then result = .ok none
        else ∃ rewalked, WalkSubtrees wildmatch host root outcome.stale opts rewalked ∧
          result = rewalked.map fun listing => some (RootListing.fromRecords
            (outcome.fresh ++ listing.records) listing.dirsRead listing.excluded listing.incomplete)
  | _, _, _ => result = .ok none

/-- `store_if_complete` replaces the index file by the encoding of `stored`, or leaves it as it is:
because the listing is short, because its records make no tree, or because writing failed. -/
def StoreIfComplete (now : Int64) (listing : RootListing) (stored : Option Index) : Prop :=
  if listing.incomplete then stored = none
  else stored = none ∨ stored = build host.statRoot now root opts listing.records

/-- `list_root` returns `result`, having read `file` as the index file and stored `stored`. -/
def ListRoot (now : Int64) (file : Option Bytes) (result : Except WalkError RootListing)
    (stored : Option Index) : Prop :=
  let opts := { opts with record := true }
  ∃ cached, CachedListing wildmatch host root opts file cached ∧
    match cached with
    | .error err => result = .error err ∧ stored = none
    | .ok (some listing) => result = .ok listing ∧ StoreIfComplete host root opts now listing stored
    | .ok none => WalkRoot wildmatch host root opts result ∧
      match result with
      | .error _ => stored = none
      | .ok listing => StoreIfComplete host root opts now listing stored

end

/-! ## Runs and mutations -/

/-- The kernel where the root path names nothing. -/
def Host.missing : Host where
  statRoot := .error .NOENT
  openBase := .error .NOENT
  openRead := .error .NOENT
  openRoot := .error .NOENT
  fstatRoot := .error .NOENT
  sys := {
    openAt _ := .error .NOENT
    openPath _ := .error .NOENT
    dirNew _ := .error .NOENT
    fstat _ := .error .NOENT
    readDir _ := ([], some .NOENT)
    dirFd _ := .error .NOENT
    lstat _ := .error .NOENT
    stat _ _ := .error .NOENT }

/-- The kernel of what the root path names. -/
def hostOf (tree : Option Tree) : Host := tree.elim Host.missing Tree.host

namespace Tree

/-- Only files and directories, each directory readable and searchable. -/
structure Plain (t : Tree) : Prop where
  accessible : t.Accessible
  noLinks : ∀ p attr resolve, t.root.at? p ≠ some (.link attr resolve)

/-- Fewer than 2^32 objects, at paths shorter than 2^32 bytes. -/
def Fits (t : Tree) : Prop :=
  ∃ paths : List (List Bytes), paths.length < 2 ^ 32 ∧
    ∀ p n, t.root.at? p = some n → p ∈ paths ∧ (render p).length < 2 ^ 32

end Tree

/-- What makes an object the object it is: its device, its inode and its type. -/
def Node.identity (n : Node) : UInt64 × UInt64 × FileType := (n.attr.dev, n.attr.ino, n.fileType)

/-- The entry list of the directory at `p`: from names to objects. -/
def Tree.entryList (t : Tree) (p : List Bytes) (name : Bytes) :
    Option (UInt64 × UInt64 × FileType) := (t.root.at? (p ++ [name])).map Node.identity

/-- Mtimes are evidence: where `index`, written from the tree `before`, recorded a directory and the
same directory object now shows the recorded mtime, which is at least two seconds older than the
index, there its entry list has not changed. -/
def Evidence (before : Tree) (index : Index) (now : Tree) : Prop :=
  ∀ p d d', before.root.at? p = some d → now.root.at? p = some d' → d.identity = d'.identity →
    d'.fileType = .directory → ∀ entry ∈ index.entries, entry.rel = render p →
    entry.mtimeNs = some (mtimeNs d'.stat) → isRacy (mtimeNs d'.stat) index.writtenNs = false →
    before.entryList p = now.entryList p

/-- The tree under one root, and the root's index file. -/
structure World where
  /-- What the root path names. -/
  tree : Option Tree
  /-- The index file. -/
  file : Option Bytes
  /-- Every index written so far, with the tree at that moment. -/
  written : List (Tree × Index)

namespace World

variable (wildmatch : Bytes → Bytes → Bool) (root : Bytes)

/-- The trees a world may hold. -/
def Admits (tree : Option Tree) : Prop := ∀ t ∈ tree, t.Plain ∧ t.Fits

/-- A file that holds no index of this root. -/
def Foreign (file : Option Bytes) : Prop := ∀ index, load file = some index → index.root ≠ root

/-- Any tree, and no index of it yet. -/
def Initial (w : World) : Prop := Admits w.tree ∧ Foreign root w.file ∧ w.written = []

/-- Stores an index, if there is one to store. -/
def store (w : World) (stored : Option Index) : World where
  tree := w.tree
  file := (stored.map Index.encode).or w.file
  written := (w.tree.bind fun t => stored.map fun index => (t, index)).toList ++ w.written

/-- One step: the tree changes, the index file is lost, or a run of `list_root` ends. -/
inductive Step : World → World → Prop
  /-- An arbitrary mutation; also the root itself may go, come or be replaced. -/
  | mutate {w : World} (tree : Option Tree) (hadmits : Admits tree)
      (hevidence : ∀ t ∈ tree, ∀ s ∈ w.written, Evidence s.1 s.2 t) : Step w { w with tree := tree }
  /-- The index file is removed, or replaced by one that holds no index of this root. -/
  | lose {w : World} (file : Option Bytes) (hforeign : Foreign root file) :
      Step w { w with file := file }
  /-- One run, with its own options; the index file may be unreadable to it. -/
  | list {w : World} (opts : WalkOptions) (now : Int64) (file : Option Bytes)
      (result : Except WalkError RootListing) (stored : Option Index)
      (hcount : opts.exclude.length < 2 ^ 32)
      (hpattern : ∀ pattern ∈ opts.exclude, pattern.length < 2 ^ 32)
      (hfile : file = w.file ∨ file = none)
      (hlist : ListRoot wildmatch (hostOf w.tree) root opts now file result stored) :
      Step w (w.store stored)

/-- The worlds that some sequence of steps leads to. -/
def Reachable : World → Prop := Transition.Reachable (Initial root) (Step wildmatch root)

end World

end Scap
