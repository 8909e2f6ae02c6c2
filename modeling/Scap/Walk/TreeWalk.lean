import Scap.Walk.Tree

/-!
# Walking a tree

What the walker does in a tree all of whose directories can be read and searched.  The first part is
one directory (`run_tree`): the result depends on its path alone, not on the descriptor budget or on
how the job was opened.  The second adds up a whole pool run (`PoolReturns.tree`): the outputs of
the workers are, up to order, those of the sequential traversal.
-/

namespace Scap

variable (wildmatch : Bytes → Bytes → Bool) (t : Tree) (opts : WalkOptions)

/-! ## One directory -/

namespace Tree

/-- Whether `.git` stats below a path. -/
def hasGit (rel : Bytes) : Bool :=
  succeeds (t.root.find true (components (joinRel rel dotGit)))

/-- Whether a path resolves to a directory. -/
def leadsToDir (rel : Bytes) : Bool :=
  match t.root.find true (components rel) with
  | .ok stat => decide (stat.fileType = .directory)
  | .error _ => false

/-- What the walk does with an entry. -/
inductive Fate where
  | ignored | pruned | emitted | queued
deriving DecidableEq

/-- What the walk does with an entry of the directory `rel`. -/
def fate (rel : Bytes) (e : Bytes × Bool × Node) : Fate :=
  match e.2.2 with
  | .file _ _ _ => .ignored
  | .link _ _ =>
    if isExcluded wildmatch opts.exclude (joinRel rel e.1) then .pruned
    else if t.leadsToDir (joinRel rel e.1) ∧ (dotGit <:+ e.1 ∨ t.hasGit (joinRel rel e.1)) then
      .emitted
    else .ignored
  | .dir _ _ _ _ =>
    if isExcluded wildmatch opts.exclude (joinRel rel e.1) then .pruned
    else if dotGit <:+ e.1 ∨ opts.detect = .statFirst ∧ t.hasGit (joinRel rel e.1) then .emitted
    else .queued

/-- What an entry of the directory `rel` adds to the output. -/
def entOut (rel : Bytes) (e : Bytes × Bool × Node) : Out :=
  match t.fate wildmatch opts rel e with
  | .pruned => Out.noteExcluded
  | .emitted => Out.emit opts.record (joinRel rel e.1)
  | _ => Out.new

/-- What reading the directory `rel` adds to the output. -/
def dirOut (rel : Bytes) : Out :=
  match t.root.at? (components rel) with
  | some (.dir attr _ _ entries) =>
    if t.hasGit rel then Out.noteRead.merge (Out.emit opts.record rel)
    else Out.mergeAll (Out.noteRead :: Out.noteDir opts.record rel
      (if opts.record then mtimeNs ⟨attr, .directory⟩ else NEVER_VALID) ::
        entries.map (t.entOut wildmatch opts rel))
  | _ => Out.new

/-- The children the directory `rel` queues. -/
def queued (rel : Bytes) : List Bytes :=
  match t.root.at? (components rel) with
  | some (.dir _ _ _ entries) =>
    if t.hasGit rel then []
    else (entries.filter fun e => t.fate wildmatch opts rel e = .queued).map fun e => joinRel rel
      e.1
  | _ => []

end Tree

variable {t opts}

/-- The stream of a tree's directory, once `.` and `..` are skipped. -/
lemma entryBuf_stream {attr : Attr} {r x : Bool} {entries : List (Bytes × Bool × Node)}
    (h : ∀ e ∈ entries, ValidName e.1) :
    entryBuf (Node.dir attr r x entries).stream = entries.map fun e =>
      ⟨e.1, Kind.fromFileType (if e.2.1 then e.2.2.fileType else .unknown)⟩ := by
  have hdots : ∀ e ∈ entries, ¬(e.1 = dot ∨ e.1 = dotDot) := fun e he hd =>
    hd.elim (h e he).ne_dot (h e he).ne_dotDot
  simp only [Node.stream, entryBuf]
  rw [List.filter_cons_of_neg (by simp), List.filter_cons_of_neg (by simp), List.filter_eq_self.mpr,
    List.map_map]
  · rfl
  · intro e he
    obtain ⟨d, hd, rfl⟩ := List.mem_map.mp he
    simpa using hdots d hd

/-- The type of an object is always known. -/
lemma Node.kind_ne_unknown (n : Node) : Kind.fromFileType n.fileType ≠ .unknown := by
  cases n with
  | file attr fileType plain =>
    have hne := plain.2.2
    change Kind.fromFileType fileType ≠ .unknown
    cases fileType <;> first | exact absurd rfl hne | simp [Kind.fromFileType]
  | _ => simp [Node.fileType, Kind.fromFileType]

section

variable {rel : Bytes} {attr : Attr} {r x : Bool} {entries : List (Bytes × Bool × Node)}

/-- A type `readdir` did not report is found by a `statat`. -/
lemma entryKind_tree (h : t.Accessible)
    (hrel : t.root.at? (components rel) = some (.dir attr r x entries)) {e : Bytes × Bool × Node}
    (he : e ∈ entries) :
    entryKind t.sys rel ⟨e.1, Kind.fromFileType (if e.2.1 then e.2.2.fileType else .unknown)⟩ =
      some (Kind.fromFileType e.2.2.fileType) := by
  obtain ⟨name, typed, n⟩ := e
  have hname : ValidName name := t.valid _ attr r x entries hrel _ he
  have hn : t.root.at? (components rel ++ [name]) = some n := Tree.at?_entry hrel he
  have hstat : t.sys.lstat (joinRel rel name) = .ok n.stat := by
    have hfind := h.isOpen.find_append false (Tree.validPath hn) hn []
    rw [List.append_nil] at hfind
    simp only [Tree.sys, components_joinRel hname, hfind]
    cases n <;> rfl
  cases typed
  · simp [entryKind, hstat, Kind.fromFileType, Except.toOption, Node.stat]
  · simp [entryKind, Node.kind_ne_unknown]

/-- The entry list makes a directory a repository exactly when its `.git` stats. -/
lemma isRepoDir_tree (h : t.Accessible)
    (hrel : t.root.at? (components rel) = some (.dir attr r x entries)) :
    isRepoDir t.sys (entryBuf (Node.dir attr r x entries).stream) rel = t.hasGit rel := by
  have hgit : t.hasGit rel =
      succeeds (Node.find true [dotGit] (.dir attr r x entries)) := by
    rw [Tree.hasGit, components_joinRel validName_dotGit,
      h.isOpen.find_append true (Tree.validPath hrel) hrel]
  have hx : x = true := (h _ _ _ _ _ hrel).2.1
  have hdotGit : dotGit ≠ dot := by decide
  have hstat : succeeds (t.sys.stat .inside (joinRel rel dotGit)) = t.hasGit rel := rfl
  rw [entryBuf_stream (t.valid _ _ _ _ _ hrel), isRepoDir, List.find?_map, hstat, hgit]
  simp only [Node.find, hx, Bool.not_true, Bool.false_eq_true, if_false, hdotGit, Node.lookup,
    Function.comp_def]
  cases hfind : entries.find? fun e => e.1 = dotGit with
  | none => rfl
  | some e =>
    obtain ⟨name, typed, n⟩ := e
    -- Only a symlink's `.git` can fail to stat, and a symlink or an untyped entry is statted.
    cases typed with
    | false => rfl
    | true =>
      cases n with
      | file attr fileType plain =>
        cases fileType <;> rfl
      | link attr resolve => rfl
      | dir attr r x entries => rfl

/-- `queue_child` on a directory of an accessible tree. -/
lemma queueChild_tree (h : t.Accessible) (full : Bytes → Bool) {attr : Attr} {r x : Bool}
    {entries : List (Bytes × Bool × Node)}
    (hrel : t.root.at? (components rel) = some (.dir attr r x entries)) :
    queueChild t.sys opts full rel = (Out.new, [⟨!full rel, rel⟩]) := by
  have hopen := h.isOpen.openDir (components rel)
  rw [hrel] at hopen
  have hopenAt : t.sys.openAt rel = .ok () := hopen
  cases hfull : full rel <;> simp [queueChild, hfull, hopenAt]

/-- The symlink arm, in terms of where the link leads. -/
lemma readSymlink_tree (name : Bytes) :
    readSymlink wildmatch t.sys opts rel name =
      if isExcluded wildmatch opts.exclude rel then Out.noteExcluded
      else if t.leadsToDir rel ∧ (dotGit <:+ name ∨ t.hasGit rel) then Out.emit opts.record rel
      else Out.new := by
  have hgit : succeeds (t.sys.stat .link (joinRel rel dotGit)) = t.hasGit rel := rfl
  have hstat : t.sys.stat .link rel = t.root.find true (components rel) := rfl
  rw [readSymlink, hstat, Tree.leadsToDir, hgit]
  refine if_congr Iff.rfl rfl ?_
  cases t.root.find true (components rel) with
  | error err => simp
  | ok stat =>
    by_cases hdir : stat.fileType = .directory
    · by_cases hsuffix : dotGit <:+ name <;> simp [hdir, hsuffix]
    · simp [hdir]

/-- One turn of the entry loop, in an accessible tree. -/
lemma readEnt_tree (h : t.Accessible) (full : Bytes → Bool)
    (hrel : t.root.at? (components rel) = some (.dir attr r x entries)) {e : Bytes × Bool × Node}
    (he : e ∈ entries) :
    readEnt wildmatch t.sys opts full rel
        ⟨e.1, Kind.fromFileType (if e.2.1 then e.2.2.fileType else .unknown)⟩ =
      (t.entOut wildmatch opts rel e,
        if t.fate wildmatch opts rel e = .queued then
          [⟨!full (joinRel rel e.1), joinRel rel e.1⟩] else []) := by
  have hkind := entryKind_tree h hrel he
  obtain ⟨name, typed, n⟩ := e
  have hname : ValidName name := t.valid _ attr r x entries hrel _ he
  have hn : t.root.at? (components (joinRel rel name)) = some n := by
    rw [components_joinRel hname]
    exact Tree.at?_entry hrel he
  have hgit : ∀ site, succeeds (t.sys.stat site (joinRel (joinRel rel name) dotGit)) =
      t.hasGit (joinRel rel name) := fun _ => rfl
  rw [readEnt, hkind]
  cases n with
  | file attr fileType plain =>
    have hplain := plain
    cases fileType <;> simp_all [Kind.fromFileType, Node.fileType, Tree.entOut, Tree.fate]
  | link attr resolve =>
    simp only [Node.fileType, Kind.fromFileType, readSymlink_tree, Tree.entOut, Tree.fate]
    by_cases hexcluded : isExcluded wildmatch opts.exclude (joinRel rel name) = true
    · simp [hexcluded]
    · by_cases hrepo : t.leadsToDir (joinRel rel name) = true ∧
          (dotGit <:+ name ∨ t.hasGit (joinRel rel name) = true)
      · simp [hexcluded, hrepo]
      · simp [hexcluded, hrepo]
  | dir attr r x entries =>
    simp only [Node.fileType, Kind.fromFileType, readDirectory, hgit, queueChild_tree h full hn,
      Tree.entOut, Tree.fate]
    by_cases hexcluded : isExcluded wildmatch opts.exclude (joinRel rel name) = true
    · simp [hexcluded]
    · by_cases hsuffix : dotGit <:+ name
      · simp [hexcluded, hsuffix]
      · by_cases hfirst : opts.detect = .statFirst ∧ t.hasGit (joinRel rel name) = true
        · simp [hexcluded, hsuffix, hfirst]
        · simp [hexcluded, hsuffix, hfirst]

/-- Flattening the jobs of the queued entries keeps just these entries. -/
lemma flatMap_queued {p : Bytes × Bool × Node → Prop} [DecidablePred p]
    (job : Bytes × Bool × Node → Job) (entries : List (Bytes × Bool × Node)) :
    (entries.flatMap fun e => if p e then [job e] else []) =
      (entries.filter fun e => p e).map job := by
  induction entries with
  | nil => rfl
  | cons e entries ih => by_cases he : p e <;> simp [he, ih]

/-- `read_dir` in an accessible tree. -/
lemma readDir_tree (h : t.Accessible) (full : Bytes → Bool) (rel : Bytes) :
    readDir wildmatch t.sys opts full rel = (t.dirOut wildmatch opts rel,
      (t.queued wildmatch opts rel).map fun child => ⟨!full child, child⟩) := by
  have hopen := h.isOpen.openDir (components rel)
  cases hat : t.root.at? (components rel) with
  | none =>
    rw [hat] at hopen
    obtain ⟨err, herr, hopen⟩ := hopen
    have hdirNew : t.sys.dirNew rel = .error err := hopen
    simp only [List.mem_cons, List.not_mem_nil, or_false] at herr
    rcases herr with rfl | rfl | rfl <;>
      simp [readDir, hdirNew, noteError, dropsASubtree, Tree.dirOut, Tree.queued, hat]
  | some n =>
    rw [hat] at hopen
    cases n with
    | dir attr r x entries =>
      have hdirNew : t.sys.dirNew rel = .ok () := hopen
      have hstream : t.sys.readDir rel = ((Node.dir attr r x entries).stream, none) := by
        simp [Tree.sys, hat]
      have hdirFd : t.sys.dirFd rel = .ok () := rfl
      have hfstat : t.sys.fstat rel = .ok ⟨attr, .directory⟩ := by
        have hfind := h.isOpen.find_append false (Tree.validPath hat) hat []
        rw [List.append_nil] at hfind
        exact hfind
      have hmtime : recordedMtime t.sys opts rel =
          if opts.record then mtimeNs ⟨attr, .directory⟩ else NEVER_VALID := by
        rw [recordedMtime, hfstat]
      simp only [readDir, hdirNew, hstream, hdirFd, isRepoDir_tree h hat, Tree.dirOut, Tree.queued,
        hat, hmtime]
      by_cases hgit : t.hasGit rel = true
      · simp [hgit]
      · have hents : (entries.map fun e => (⟨e.1, Kind.fromFileType
            (if e.2.1 then e.2.2.fileType else .unknown)⟩ : Ent)).map
              (readEnt wildmatch t.sys opts full rel) =
            entries.map fun e => (t.entOut wildmatch opts rel e,
              if t.fate wildmatch opts rel e = .queued then
                [⟨!full (joinRel rel e.1), joinRel rel e.1⟩] else []) := by
          rw [List.map_map]
          exact List.map_congr_left fun e he => readEnt_tree wildmatch h full hat he
        simp only [hgit, Bool.false_eq_true, if_false]
        rw [entryBuf_stream (t.valid _ _ _ _ _ hat), hents]
        simp only [List.map_map, List.flatMap_map, Function.comp_def, flatMap_queued]
    | _ =>
      obtain ⟨err, herr, hopen⟩ := hopen
      have hdirNew : t.sys.dirNew rel = .error err := hopen
      simp only [List.mem_cons, List.not_mem_nil, or_false] at herr
      rcases herr with rfl | rfl | rfl <;>
        simp [readDir, hdirNew, noteError, dropsASubtree, Tree.dirOut, Tree.queued, hat]

/-- `run` in an accessible tree: it does not matter whether the job carries a descriptor. -/
lemma run_tree (h : t.Accessible) (full : Bytes → Bool) (job : Job) :
    run wildmatch t.sys opts full job = (t.dirOut wildmatch opts job.rel,
      (t.queued wildmatch opts job.rel).map fun child => ⟨!full child, child⟩) := by
  have hread : readDir wildmatch t.sys opts full job.rel = _ :=
      readDir_tree wildmatch h full job.rel
  cases hfd : job.fd with
  | true => rw [run, hfd, if_pos rfl, hread]
  | false =>
    have hsame : t.sys.openPath job.rel = t.sys.dirNew job.rel := rfl
    rw [run, hfd, hsame]
    cases hnew : t.sys.dirNew job.rel with
    | ok u => simpa using hread
    | error err =>
      rw [readDir, hnew] at hread
      rw [← hread]
      cases err <;> simp [noteError, dropsASubtree]

end

/-! ## A pool run -/

/-- How large the object at a path is; the ranks of queued children decrease. -/
noncomputable def Tree.rank (t : Tree) (rel : Bytes) : ℕ :=
  match t.root.at? (components rel) with
  | some n => sizeOf n
  | none => 0

/-- A queued child is a directory entry whose fate is to be queued. -/
lemma Tree.mem_queued {rel child : Bytes} : child ∈ t.queued wildmatch opts rel ↔
    ∃ attr r x entries, t.root.at? (components rel) = some (.dir attr r x entries) ∧
      t.hasGit rel = false ∧
      ∃ e ∈ entries, t.fate wildmatch opts rel e = .queued ∧ child = joinRel rel e.1 := by
  unfold Tree.queued
  split
  · rename_i attr r x entries hat
    cases hgit : t.hasGit rel with
    | true => simp [hat]
    | false => simp [hat, eq_comm, and_assoc]
  · rename_i hat
    simp only [List.not_mem_nil, false_iff, not_exists, not_and]
    exact fun attr r x entries h => absurd h (hat attr r x entries)

/-- An entry has a lower rank than its directory. -/
lemma Tree.rank_joinRel_lt {rel : Bytes} {attr : Attr} {r x : Bool}
    {entries : List (Bytes × Bool × Node)}
    (hat : t.root.at? (components rel) = some (.dir attr r x entries)) {e : Bytes × Bool × Node}
    (he : e ∈ entries) : t.rank (joinRel rel e.1) < t.rank rel := by
  have hname : ValidName e.1 := t.valid _ attr r x entries hat e he
  have hlookup := Node.lookup_eq_some_of_mem (t.distinct _ attr r x entries hat) he
  rw [Tree.rank, Tree.rank, components_joinRel hname, Tree.at?_entry hat he, hat]
  exact Node.sizeOf_lt_of_lookup hlookup

/-- A child that is queued has a lower rank than its parent. -/
lemma Tree.rank_lt_of_mem_queued {rel child : Bytes} (h : child ∈ t.queued wildmatch opts rel) :
    t.rank child < t.rank rel := by
  obtain ⟨attr, r, x, entries, hat, -, e, he, -, rfl⟩ := (Tree.mem_queued wildmatch).mp h
  exact Tree.rank_joinRel_lt hat he

/-- The walk of a tree ends. -/
lemma Tree.exists_unfolds (t : Tree) (opts : WalkOptions) (rels : List Bytes) :
    ∃ visited, Unfolds (t.queued wildmatch opts) rels visited :=
  Unfolds.exists_of_rank t.rank (fun _ _ h => Tree.rank_lt_of_mem_queued wildmatch h) rels

/-- A job of an accessible tree queues the children of its path. -/
lemma JobRuns.tree (h : t.Accessible) {job : Job} {children : List Job} {out : Out}
    (hrun : JobRuns wildmatch t.sys opts job children out) :
    children.map Job.rel = t.queued wildmatch opts job.rel := by
  obtain ⟨full, hrun⟩ := hrun
  rw [run_tree wildmatch h full job, Prod.mk.injEq] at hrun
  rw [← hrun.2, List.map_map]
  exact List.map_id _

/-- The workers' outputs together are those of the sequential traversal, up to order. -/
lemma PoolReturns.tree (h : t.Accessible) {queue : List Job} {parts : List Out}
    (hpool : PoolReturns wildmatch t.sys opts queue parts) :
    ∃ visited, Unfolds (t.queued wildmatch opts) (queue.map Job.rel) visited ∧
      (Out.mergeAll parts).Equiv (Out.mergeAll (visited.map (t.dirOut wildmatch opts))) := by
  obtain ⟨p, hreach, hfinished, rfl⟩ := hpool
  obtain ⟨visited, hvisited⟩ := t.exists_unfolds wildmatch opts (queue.map Job.rel)
  have hruns : ∀ {job children out}, JobRuns wildmatch t.sys opts job children out →
      children.map Job.rel = t.queued wildmatch opts job.rel := JobRuns.tree wildmatch h
  have hcomplete := hreach.complete hruns hvisited (poolThreads_pos _) hfinished
  have hgenuine := (hreach.tracks hruns hvisited).1
  have hmerged : (p.merged : Multiset Out) =
      (visited.map (t.dirOut wildmatch opts) : List Out) := by
    rw [Pool.coe_merged, ← Multiset.map_coe, ← hcomplete, Multiset.map_map]
    refine Multiset.map_congr rfl fun e he => ?_
    obtain ⟨children, full, hrun⟩ := hgenuine e he
    rw [run_tree wildmatch h full e.1, Prod.mk.injEq] at hrun
    exact hrun.1.symm
  refine ⟨visited, hvisited, ?_⟩
  rw [Pool.mergeAll_parts]
  exact Out.Equiv.mergeAll_perm (Multiset.coe_eq_coe.mp hmerged)

/-- The pool can always finish. -/
lemma PoolReturns.exists_tree (opts : WalkOptions) (h : t.Accessible) (queue : List Job) :
    ∃ parts, PoolReturns wildmatch t.sys opts queue parts := by
  obtain ⟨visited, hvisited⟩ := t.exists_unfolds wildmatch opts (queue.map Job.rel)
  have hruns : ∀ {job children out}, JobRuns wildmatch t.sys opts job children out →
      children.map Job.rel = t.queued wildmatch opts job.rel := JobRuns.tree wildmatch h
  have hstart : Pool.Reachable (JobRuns wildmatch t.sys opts) queue
      (Pool.start queue : Pool Job Out (poolThreads opts.threads)) :=
        Transition.Reachable.initial rfl
  obtain ⟨p, hrun, hfinished⟩ := hstart.can_finish
    (fun job => ⟨_, _, fun _ => false, rfl⟩) hruns hvisited
    fun w => by simp [Pool.start, Phase.failed]
  exact ⟨_, p, ⟨_, rfl, hrun⟩, hfinished, rfl⟩

section Root

variable {attr : Attr} {r x : Bool} {entries : List (Bytes × Bool × Node)} {root : Bytes}

/-- What `walk_root` comes down to for an accessible tree whose root is a directory. -/
lemma walkRoot_tree_iff (h : t.Accessible) (hdir : t.root = .dir attr r x entries)
    (hnul : 0 ∉ root) {result : Except WalkError RootListing} :
    WalkRoot wildmatch t.host root opts result ↔
      if isBareRoot root then result = .ok (Out.emit opts.record [])
      else if t.queued wildmatch opts [] = [] then result = .ok (t.dirOut wildmatch opts [])
      else ∃ (full : Bytes → Bool) (parts : List Out), PoolReturns wildmatch t.sys opts
          ((t.queued wildmatch opts []).map fun child => ⟨!full child, child⟩) parts ∧
        result = .ok (Out.mergeAll (t.dirOut wildmatch opts [] :: parts)) := by
  have hacc := h [] attr r x entries (by simp [hdir])
  have hwalkable : rootIsWalkable t.host = true := by
    simp [rootIsWalkable, Tree.host, hdir, Node.stat, Node.fileType, Node.attr, hacc.2.2]
  have hopen : t.root.openDir [] = .ok () := by simp [hdir, Node.openDir, hacc.1]
  have hbase : t.host.openBase = .ok () := hopen
  have hread : t.host.openRead = .ok () := hopen
  have hsys : t.host.sys = t.sys := rfl
  rw [WalkRoot, if_neg hnul, hwalkable, hbase, hread, hsys]
  simp only [readDir_tree wildmatch h, Bool.not_true, Bool.false_eq_true, if_false,
    List.map_eq_nil_iff]
  by_cases hbare : isBareRoot root = true
  · simp [hbare]
  · by_cases hqueue : t.queued wildmatch opts [] = []
    · simp [hbare, hqueue]
    · simp [hbare, hqueue]

/-- `walk_root` can always return. -/
lemma WalkRoot.exists_tree (h : t.Accessible) (hdir : t.root = .dir attr r x entries)
    (hnul : 0 ∉ root) : ∃ result, WalkRoot wildmatch t.host root opts result := by
  simp only [walkRoot_tree_iff wildmatch h hdir hnul]
  split
  · exact ⟨_, rfl⟩
  · split
    · exact ⟨_, rfl⟩
    · obtain ⟨parts, hparts⟩ := PoolReturns.exists_tree wildmatch opts h
        ((t.queued wildmatch opts []).map fun child => ⟨!false, child⟩)
      exact ⟨_, fun _ => false, parts, hparts, rfl⟩

/-- `walk_root` of an accessible tree whose root is a directory and is not named `*.git`. -/
lemma WalkRoot.tree (h : t.Accessible) (hdir : t.root = .dir attr r x entries)
    (hnul : 0 ∉ root) (hbare : isBareRoot root = false)
    {result : Except WalkError RootListing} (hwalk : WalkRoot wildmatch t.host root opts result) :
    ∃ listing visited, result = .ok listing ∧
      Unfolds (t.queued wildmatch opts) [[]] visited ∧
      listing.Equiv (Out.mergeAll (visited.map (t.dirOut wildmatch opts))) := by
  rw [walkRoot_tree_iff wildmatch h hdir hnul, hbare, if_neg Bool.false_ne_true] at hwalk
  have hstart : ∀ {visited}, Unfolds (t.queued wildmatch opts)
      (t.queued wildmatch opts []) visited →
      Unfolds (t.queued wildmatch opts) [[]] ([] :: visited) :=
    fun hvisited => .cons (by rwa [List.append_nil])
  split at hwalk
  · rename_i hqueue
    refine ⟨_, [[]], hwalk, hstart (by rw [hqueue]; exact .nil), ?_⟩
    simpa using Out.Equiv.refl _
  · obtain ⟨full, parts, hpool, hresult⟩ := hwalk
    obtain ⟨visited, hvisited, hequiv⟩ := hpool.tree wildmatch h
    rw [List.map_map] at hvisited
    refine ⟨_, [] :: visited, hresult, hstart (by simpa [Function.comp_def] using hvisited), ?_⟩
    simpa using (Out.Equiv.refl _).merge hequiv

/-- `walk_subtrees` can always return. -/
lemma WalkSubtrees.exists_tree (opts : WalkOptions) (h : t.Accessible)
    (hdir : t.root = .dir attr r x entries) (hnul : 0 ∉ root) (rels : List Bytes) :
    ∃ result, WalkSubtrees wildmatch t.host root rels opts result := by
  have hacc := h [] attr r x entries (by simp [hdir])
  have hbase : t.host.openBase = .ok () := by simp [Tree.host, hdir, Node.openDir, hacc.1]
  obtain ⟨parts, hparts⟩ := PoolReturns.exists_tree wildmatch opts h
    (rels.map fun rel => ⟨false, rel⟩)
  by_cases hrels : rels = []
  · exact ⟨_, if_pos hrels |>.mpr rfl⟩
  · refine ⟨.ok (Out.mergeAll parts), ?_⟩
    rw [WalkSubtrees, if_neg hrels, if_neg hnul, hbase]
    exact ⟨parts, hparts, rfl⟩

/-- `walk_subtrees` of an accessible tree whose root is a directory. -/
lemma WalkSubtrees.tree (h : t.Accessible) (hdir : t.root = .dir attr r x entries)
    (hnul : 0 ∉ root) {rels : List Bytes} {result : Except WalkError RootListing}
    (hwalk : WalkSubtrees wildmatch t.host root rels opts result) :
    ∃ listing visited, result = .ok listing ∧ Unfolds (t.queued wildmatch opts) rels visited ∧
      listing.Equiv (Out.mergeAll (visited.map (t.dirOut wildmatch opts))) := by
  have hacc := h [] attr r x entries (by simp [hdir])
  have hbase : t.host.openBase = .ok () := by simp [Tree.host, hdir, Node.openDir, hacc.1]
  rw [WalkSubtrees, if_neg hnul, hbase] at hwalk
  split at hwalk
  · rename_i hrels
    subst hrels
    exact ⟨_, [], hwalk, .nil, .refl _⟩
  · obtain ⟨parts, hpool, hresult⟩ := hwalk
    obtain ⟨visited, hvisited, hequiv⟩ := PoolReturns.tree wildmatch h hpool
    rw [List.map_map] at hvisited
    exact ⟨_, visited, hresult, by simpa [Function.comp_def] using hvisited, hequiv⟩

end Root

end Scap
