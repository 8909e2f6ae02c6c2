import Scap.Walk.Tree

/-!
# The incomplete flag

What a walk that ends without its `incomplete` flag has accounted for, over any pattern of answers
and failures of the kernel.  `readDir_cases` and `run_cases` say once what reading a directory and
running a job can come to.  From them `flag_covers_iff` follows a directory the walk has recorded to
each of its entries: an entry that really is a directory is in the listing, or one of the three
harmless errors took it out, except where the `lstat` that was to classify it failed in another way.
-/

namespace Scap

variable (wildmatch : Bytes → Bytes → Bool) (sys : Sys) (opts : WalkOptions) (full : Bytes → Bool)

/-! ## What a job can come to -/

/-- What reading a directory can come to: an error, a repository, or a directory whose entries were
all looked at. -/
lemma readDir_cases (rel : Bytes) :
    (∃ err, sys.dirNew rel = .error err ∧
      readDir wildmatch sys opts full rel = (noteError err, [])) ∨
    readDir wildmatch sys opts full rel = (Out.noteIncomplete, []) ∨
    readDir wildmatch sys opts full rel = (Out.noteRead.merge (Out.emit opts.record rel), []) ∨
    readDir wildmatch sys opts full rel =
      (Out.mergeAll (Out.noteRead :: Out.noteDir opts.record rel (recordedMtime sys opts rel) ::
        (entryBuf (sys.readDir rel).1).map fun ent => (readEnt wildmatch sys opts full rel ent).1),
      (entryBuf (sys.readDir rel).1).flatMap fun ent =>
        (readEnt wildmatch sys opts full rel ent).2) := by
  unfold readDir
  split
  · rename_i err hnew
    exact .inl ⟨err, hnew, rfl⟩
  · split
    · exact .inr (.inl rfl)
    · rename_i entries hstream
      split
      · exact .inr (.inl rfl)
      · rw [hstream]
        dsimp only
        split_ifs
        · exact .inr (.inr (.inl rfl))
        · refine .inr (.inr (.inr ?_))
          simp [List.flatMap_map, Function.comp_def]

/-- Running a job reads its directory, unless the directory cannot be opened by its path. -/
lemma run_cases (job : Job) :
    run wildmatch sys opts full job = readDir wildmatch sys opts full job.rel ∨
    ∃ err, sys.openPath job.rel = .error err ∧
      run wildmatch sys opts full job = (noteError err, []) := by
  unfold run
  split_ifs
  · exact .inl rfl
  · split
    · exact .inl rfl
    · rename_i hopen
      exact .inr ⟨_, hopen, rfl⟩
    · rename_i hopen
      exact .inr ⟨_, hopen, rfl⟩
    · rename_i err _ _ hopen
      exact .inr ⟨err, hopen, rfl⟩

/-- What queueing a child can come to. -/
lemma queueChild_cases (rel : Bytes) :
    (∃ fd, queueChild sys opts full rel = (Out.new, [⟨fd, rel⟩])) ∨
    queueChild sys opts full rel = (Out.emit opts.record rel, []) ∨
    queueChild sys opts full rel = (Out.noteIncomplete, []) ∨
    ∃ err, sys.openAt rel = .error err ∧ queueChild sys opts full rel = (noteError err, []) := by
  unfold queueChild
  split_ifs with hfull hgit
  · exact .inl ⟨false, rfl⟩
  all_goals
    split
    · exact .inl ⟨true, rfl⟩
    · exact .inl ⟨false, rfl⟩
    · exact .inl ⟨false, rfl⟩
  · exact .inr (.inl rfl)
  · exact .inr (.inl rfl)
  · exact .inr (.inr (.inr ⟨_, ‹_›, rfl⟩))
  · exact .inr (.inr (.inl rfl))
  · exact .inr (.inr (.inl rfl))
  · exact .inr (.inr (.inr ⟨_, ‹_›, rfl⟩))

/-- What the directory arm does with a path that is not excluded. -/
lemma readDirectory_cases {rel : Bytes} (name : Bytes)
    (hkept : isExcluded wildmatch opts.exclude rel = false) :
    readDirectory wildmatch sys opts full rel name = (Out.emit opts.record rel, []) ∨
    readDirectory wildmatch sys opts full rel name = queueChild sys opts full rel := by
  unfold readDirectory
  rw [hkept, if_neg Bool.false_ne_true]
  split_ifs
  · exact .inl rfl
  · exact .inl rfl
  · exact .inr rfl

/-! ## Entries -/

/-- A name a directory stream yields, `.` and `..` apart. -/
def Sys.Lists (sys : Sys) (rel : Bytes) (e : Bytes × FileType) : Prop :=
  e ∈ (sys.readDir rel).1 ∧ ¬(e.1 = dot ∨ e.1 = dotDot)

/-- What the kernel says about entries is true, whenever it says something: `real` gives the type of
the object at each path. -/
structure Sys.Truthful (sys : Sys) (real : Bytes → FileType) : Prop where
  /-- A directory holds a name once. -/
  distinct : ∀ rel, ((sys.readDir rel).1.map Prod.fst).Nodup
  /-- Entries have names. -/
  valid : ∀ {rel e}, sys.Lists rel e → ValidName e.1
  /-- `readdir` reports an entry's type or none. -/
  reported : ∀ {rel e}, sys.Lists rel e → e.2 = .unknown ∨ e.2 = real (joinRel rel e.1)
  /-- `lstat` reports an entry's type or fails. -/
  lstat : ∀ {rel e stat}, sys.Lists rel e → sys.lstat (joinRel rel e.1) = .ok stat →
    stat.fileType = real (joinRel rel e.1)

/-- The listing has a path: as a repository, emitted and recorded, or as a directory that was read
and recorded. -/
def Out.Has (listing : Out) (path : Bytes) : Prop :=
  path ∈ listing.arena ∧ Record.repo path ∈ listing.records ∨
    ∃ mtime, Record.dir path mtime ∈ listing.records

/-- What the walk takes an entry's type to be, or the error of the `lstat` that was to tell. -/
def classified (rel : Bytes) (e : Bytes × FileType) : Except Errno FileType :=
  if e.2 = .unknown then (sys.lstat (joinRel rel e.1)).map Stat.fileType else .ok e.2

/-- An entry that was gone, or no directory any more, when the walk got to it: the call that
classifies it or one of those that open it failed with `ENOENT`, `ENOTDIR` or `ELOOP`
(`dropsASubtree_eq_false_iff`). -/
def Gone (rel : Bytes) (e : Bytes × FileType) : Prop :=
  ∃ err, dropsASubtree err = false ∧
    match classified sys rel e with
    | .error err' => err' = err
    | .ok _ => sys.openAt (joinRel rel e.1) = .error err ∨
        sys.openPath (joinRel rel e.1) = .error err ∨ sys.dirNew (joinRel rel e.1) = .error err

/-- The `lstat` of an entry that `readdir` did not type fails, and with none of these errors. -/
def Unclassified (rel : Bytes) (e : Bytes × FileType) : Prop :=
  ∃ err, classified sys rel e = .error err ∧ dropsASubtree err = true

variable {wildmatch sys opts full} {real : Bytes → FileType} {rel : Bytes} {e : Bytes × FileType}

/-- The entry as the walk's buffer holds it. -/
def entOf (e : Bytes × FileType) : Ent := ⟨e.1, Kind.fromFileType e.2⟩

/-- The entries read are those of the directory stream, `.` and `..` apart. -/
lemma mem_entryBuf {entries : List (Bytes × FileType)} {ent : Ent} :
    ent ∈ entryBuf entries ↔ ∃ e ∈ entries, ¬(e.1 = dot ∨ e.1 = dotDot) ∧ entOf e = ent := by
  simp [entryBuf, entOf, and_assoc]

/-- A name a directory stream yields is an entry read. -/
lemma Sys.Lists.mem_entryBuf (h : sys.Lists rel e) : entOf e ∈ entryBuf (sys.readDir rel).1 :=
  Scap.mem_entryBuf.mpr ⟨e, h.1, h.2, rfl⟩

/-- An entry has no known kind exactly if its type is not reported. -/
lemma Kind.fromFileType_eq_unknown {fileType : FileType} :
    Kind.fromFileType fileType = .unknown ↔ fileType = .unknown := by
  cases fileType <;> simp [Kind.fromFileType]

/-- The walk sees the kind of the classified type. -/
lemma entryKind_entOf :
    entryKind sys rel (entOf e) = (classified sys rel e).toOption.map Kind.fromFileType := by
  unfold entryKind classified entOf
  simp only [Kind.fromFileType_eq_unknown]
  split_ifs
  · cases sys.lstat (joinRel rel e.1) <;> rfl
  · rfl

/-- A directory that can be classified is classified as one. -/
lemma Sys.Truthful.classified_eq (h : sys.Truthful real) (he : sys.Lists rel e)
    {fileType : FileType}
    (hclassified : classified sys rel e = .ok fileType) : fileType = real (joinRel rel e.1) := by
  unfold classified at hclassified
  split_ifs at hclassified with htyped
  · cases hstat : sys.lstat (joinRel rel e.1) with
    | error err => simp [hstat, Except.map] at hclassified
    | ok stat =>
      obtain rfl : stat.fileType = fileType := by simpa [hstat, Except.map] using hclassified
      exact h.lstat he hstat
  · obtain rfl : e.2 = fileType := by simpa using hclassified
    exact (h.reported he).resolve_left htyped

/-! ## What a complete job accounts for -/

/-- A repository that is listed is had. -/
lemma Out.emit_has (hne : rel ≠ []) : (Out.emit true rel).Has rel := by
  simp [Out.Has, Out.emit, hne]

/-- An error that does not make a listing incomplete drops no subtree. -/
lemma Out.noteError_incomplete {err : Errno} (h : (noteError err).incomplete = false) :
    dropsASubtree err = false := by
  cases herr : dropsASubtree err with
  | false => rfl
  | true => simp [noteError, herr, Out.noteIncomplete] at h

/-- What one of several outputs has, all of them together have. -/
lemma Out.Has.mergeAll {out : Out} {outs : List Out} (h : out.Has rel) (hout : out ∈ outs) :
    (Out.mergeAll outs).Has rel := by
  rcases h with ⟨harena, hrecord⟩ | ⟨mtime, hrecord⟩
  · exact .inl ⟨Out.mem_mergeAll_arena.mpr ⟨out, hout, harena⟩,
      Out.mem_mergeAll_records.mpr ⟨out, hout, hrecord⟩⟩
  · exact .inr ⟨mtime, Out.mem_mergeAll_records.mpr ⟨out, hout, hrecord⟩⟩

/-- What a listing has does not depend on the order of its records. -/
lemma Out.Equiv.has {a b : Out} (h : a.Equiv b) (hb : b.Has rel) : a.Has rel := by
  rcases hb with ⟨harena, hrecord⟩ | ⟨mtime, hrecord⟩
  · exact .inl ⟨h.arena.mem_iff.mpr harena, h.records.mem_iff.mpr hrecord⟩
  · exact .inr ⟨mtime, h.records.mem_iff.mpr hrecord⟩

/-- A complete job has its own directory, unless that is gone. -/
lemma run_has (hrecord : opts.record = true) {job : Job} (hne : job.rel ≠ [])
    (hcomplete : (run wildmatch sys opts full job).1.incomplete = false) :
    (run wildmatch sys opts full job).1.Has job.rel ∨
      ∃ err, dropsASubtree err = false ∧
        (sys.openPath job.rel = .error err ∨ sys.dirNew job.rel = .error err) := by
  rcases run_cases wildmatch sys opts full job with hread | ⟨err, hopen, hrun⟩
  · rw [hread] at hcomplete ⊢
    rcases readDir_cases wildmatch sys opts full job.rel with
      ⟨err, hnew, hdir⟩ | hdir | hdir | hdir
    · rw [hdir] at hcomplete
      exact .inr ⟨err, Out.noteError_incomplete hcomplete, .inr hnew⟩
    · rw [hdir] at hcomplete
      exact absurd hcomplete (by simp [Out.noteIncomplete])
    · rw [hdir, hrecord]
      have hmem : Out.emit true job.rel ∈ [Out.noteRead, Out.emit true job.rel] := by simp
      exact .inl ((Out.emit_has hne).mergeAll hmem)
    · rw [hdir, hrecord]
      have hdir : (Out.noteDir true job.rel (recordedMtime sys opts job.rel)).Has job.rel :=
        .inr ⟨_, List.mem_singleton_self _⟩
      exact .inl (hdir.mergeAll (List.mem_cons_of_mem _ List.mem_cons_self))
  · rw [hrun] at hcomplete
    exact .inr ⟨err, Out.noteError_incomplete hcomplete, .inl hopen⟩

/-- The directory arm, when it notes no loss, has emitted or queued the entry, unless that is
gone. -/
lemma readDirectory_has (hrecord : opts.record = true) {path name : Bytes} (hne : path ≠ [])
    (hkept : isExcluded wildmatch opts.exclude path = false)
    (hcomplete : (readDirectory wildmatch sys opts full path name).1.incomplete = false) :
    (readDirectory wildmatch sys opts full path name).1.Has path ∨
      (∃ fd, ⟨fd, path⟩ ∈ (readDirectory wildmatch sys opts full path name).2) ∨
      ∃ err, dropsASubtree err = false ∧ sys.openAt path = .error err := by
  rcases readDirectory_cases wildmatch sys opts full name hkept with hdir | hdir
  · rw [hdir, hrecord]
    exact .inl (Out.emit_has hne)
  · rcases queueChild_cases sys opts full path with ⟨fd, hqueue⟩ | hqueue | hqueue |
        ⟨err, hopen, hqueue⟩
    · rw [hdir, hqueue]
      exact .inr (.inl ⟨fd, List.mem_singleton_self _⟩)
    · rw [hdir, hqueue, hrecord]
      exact .inl (Out.emit_has hne)
    · rw [hdir, hqueue] at hcomplete
      exact absurd hcomplete (by simp [Out.noteIncomplete])
    · rw [hdir, hqueue] at hcomplete
      exact .inr (.inr ⟨err, Out.noteError_incomplete hcomplete, hopen⟩)

/-! ## Where a path comes from -/

/-- An entry of a directory that the walk could classify. -/
def Known (sys : Sys) (rel path : Bytes) : Prop :=
  ∃ e fileType, sys.Lists rel e ∧ classified sys rel e = .ok fileType ∧ path = joinRel rel e.1

/-- What looking at an entry adds is about one path: a repository or a job. -/
def OnlyAt (rel : Bytes) (found : Out × List Job) : Prop :=
  (∀ record ∈ found.1.records, record = .repo rel) ∧ ∀ child ∈ found.2, child.rel = rel

/-- What records nothing and leaves no job is about any path. -/
lemma onlyAt_of_no_records {out : Out} (h : out.records = []) : OnlyAt rel (out, []) := by
  simp [OnlyAt, h]

/-- Listing a repository is about its path. -/
lemma onlyAt_emit (record : Bool) : OnlyAt rel (Out.emit record rel, []) := by
  cases record <;> simp [OnlyAt, Out.emit]

/-- Noting an error records nothing. -/
lemma noteError_records (err : Errno) : (noteError err).records = [] := by
  unfold noteError
  split_ifs <;> rfl

/-- Queueing a child is about the path of the child. -/
lemma queueChild_onlyAt : OnlyAt rel (queueChild sys opts full rel) := by
  rcases queueChild_cases sys opts full rel with ⟨fd, hqueue⟩ | hqueue | hqueue |
      ⟨err, -, hqueue⟩ <;>
    rw [hqueue]
  · simp [OnlyAt, Out.new]
  · exact onlyAt_emit _
  · exact onlyAt_of_no_records rfl
  · exact onlyAt_of_no_records (noteError_records err)

/-- Looking at a directory is about its path. -/
lemma readDirectory_onlyAt {name : Bytes} :
    OnlyAt rel (readDirectory wildmatch sys opts full rel name) := by
  cases hkept : isExcluded wildmatch opts.exclude rel with
  | true =>
    rw [readDirectory, if_pos hkept]
    exact onlyAt_of_no_records rfl
  | false =>
    rcases readDirectory_cases wildmatch sys opts full name hkept with hdir | hdir <;> rw [hdir]
    · exact onlyAt_emit _
    · exact queueChild_onlyAt

/-- Looking at a link is about its path. -/
lemma readSymlink_onlyAt {name : Bytes} :
    OnlyAt rel (readSymlink wildmatch sys opts rel name, []) := by
  unfold readSymlink
  cases hstat : sys.stat .link rel with
  | error err => split_ifs <;> exact onlyAt_of_no_records rfl
  | ok stat =>
    dsimp only
    split_ifs
    · exact onlyAt_of_no_records rfl
    · exact onlyAt_of_no_records rfl
    · exact onlyAt_emit _
    · exact onlyAt_emit _
    · exact onlyAt_of_no_records rfl

/-- Looking at an entry is about its path. -/
lemma readEnt_onlyAt (ent : Ent) :
    OnlyAt (joinRel rel ent.name) (readEnt wildmatch sys opts full rel ent) := by
  unfold readEnt
  split
  · exact readDirectory_onlyAt
  · exact readSymlink_onlyAt
  · exact onlyAt_of_no_records rfl

/-- An entry that could not be classified adds nothing. -/
lemma readEnt_unclassified {err : Errno} (h : classified sys rel e = .error err) :
    readEnt wildmatch sys opts full rel (entOf e) = (Out.new, []) := by
  have hkind : entryKind sys rel (entOf e) = none := by rw [entryKind_entOf, h]; rfl
  rw [readEnt, hkind]

/-- Whatever looking at an entry adds, the entry was classified. -/
lemma readEnt_known (he : sys.Lists rel e) :
    (∀ record ∈ (readEnt wildmatch sys opts full rel (entOf e)).1.records,
      Known sys rel record.rel) ∧
    ∀ child ∈ (readEnt wildmatch sys opts full rel (entOf e)).2, Known sys rel child.rel := by
  obtain ⟨hrecords, hchildren⟩ :
      OnlyAt (joinRel rel e.1) (readEnt wildmatch sys opts full rel (entOf e)) := readEnt_onlyAt _
  cases hclassified : classified sys rel e with
  | error err => simp [readEnt_unclassified hclassified, Out.new]
  | ok fileType =>
    exact ⟨fun record hrecord => ⟨e, fileType, he,
      hclassified, by rw [hrecords record hrecord]; rfl⟩,
      fun child hchild => ⟨e, fileType, he, hclassified, hchildren child hchild⟩⟩

/-- The records of a directory are its own, if directories are recorded, and those of its entries.
-/
lemma mem_listed_records {recorded : Bool} {mtime : Int64} {outs : List Out} {record : Record} :
    record ∈ (Out.mergeAll (Out.noteRead :: Out.noteDir recorded rel mtime :: outs)).records ↔
      (recorded = true ∧ record = .dir rel mtime) ∨ ∃ out ∈ outs, record ∈ out.records := by
  rw [← Out.mem_mergeAll_records]
  cases recorded <;> simp [Out.merge, Out.noteRead, Out.noteDir]

/-- A job records its own directory and repositories among the entries it has classified, and queues
such entries. -/
lemma run_known (job : Job) :
    (∀ record ∈ (run wildmatch sys opts full job).1.records,
      record.rel = job.rel ∨ record.isRepo = true ∧ Known sys job.rel record.rel) ∧
    ∀ child ∈ (run wildmatch sys opts full job).2, Known sys job.rel child.rel := by
  rcases run_cases wildmatch sys opts full job with hread | ⟨err, -, hrun⟩
  · rw [hread]
    rcases readDir_cases wildmatch sys opts full job.rel with ⟨err, -, hdir⟩ | hdir | hdir | hdir
    · simp [hdir, noteError_records]
    · simp [hdir, Out.noteIncomplete]
    · rw [hdir]
      refine ⟨fun record hrecord => .inl ?_, by simp⟩
      rw [(onlyAt_emit opts.record).1 record (by simpa [Out.merge, Out.noteRead] using hrecord)]
      rfl
    · rw [hdir]
      constructor
      · intro record hrecord
        rcases mem_listed_records.mp hrecord with ⟨-, rfl⟩ | ⟨out, hout, hrecord⟩
        · exact .inl rfl
        · obtain ⟨ent, hent, rfl⟩ := List.mem_map.mp hout
          obtain ⟨e, he, hdots, rfl⟩ := mem_entryBuf.mp hent
          refine .inr ⟨?_, (readEnt_known ⟨he, hdots⟩).1 record hrecord⟩
          rw [(readEnt_onlyAt _).1 record hrecord]
          rfl
      · intro child hchild
        obtain ⟨ent, hent, hchild⟩ := List.mem_flatMap.mp hchild
        obtain ⟨e, he, hdots, rfl⟩ := mem_entryBuf.mp hent
        exact (readEnt_known ⟨he, hdots⟩).2 child hchild
  · simp [hrun, noteError_records]

/-- What a job records and leaves is about its own path or about a repository or a directory known
in it. -/
lemma JobRuns.known {job : Job} {children : List Job} {out : Out}
    (h : JobRuns wildmatch sys opts job children out) :
    (∀ record ∈ out.records, record.rel = job.rel ∨ record.isRepo = true ∧
      Known sys job.rel record.rel) ∧
    ∀ child ∈ children, Known sys job.rel child.rel := by
  obtain ⟨full, hrun⟩ := h
  have hknown := @run_known wildmatch sys opts full job
  rwa [hrun] at hknown

/-- A job that records a directory has read that directory, and looked at each of its entries. -/
lemma run_dir {job : Job} {mtime : Int64}
    (h : Record.dir rel mtime ∈ (run wildmatch sys opts full job).1.records) :
    job.rel = rel ∧ ∀ e, sys.Lists rel e →
      (readEnt wildmatch sys opts full rel (entOf e)).2 ⊆ (run wildmatch sys opts full job).2 ∧
      ∃ outs, (readEnt wildmatch sys opts full rel (entOf e)).1 ∈ outs ∧
        (run wildmatch sys opts full job).1 = Out.mergeAll outs := by
  have hrel : job.rel = rel := by
    rcases (run_known job).1 _ h with heq | ⟨hrepo, -⟩
    · exact heq.symm
    · exact absurd hrepo (by simp [Record.isRepo, Record.dir])
  refine ⟨hrel, fun e he => ?_⟩
  rcases run_cases wildmatch sys opts full job with hread | ⟨err, -, hrun⟩
  · rw [hread, hrel] at h ⊢
    rcases readDir_cases wildmatch sys opts full rel with ⟨err, -, hdir⟩ | hdir | hdir | hdir
    · simp [hdir, noteError_records] at h
    · simp [hdir, Out.noteIncomplete] at h
    · rw [hdir] at h
      have := (onlyAt_emit opts.record).1 _ (by simpa [Out.merge, Out.noteRead] using h)
      simp [Record.dir, Record.repo] at this
    · rw [hdir]
      refine ⟨fun child hchild => List.mem_flatMap.mpr ⟨_, he.mem_entryBuf, hchild⟩, _, ?_, rfl⟩
      exact List.mem_cons_of_mem _
        (List.mem_cons_of_mem _ (List.mem_map.mpr ⟨_, he.mem_entryBuf, rfl⟩))
  · simp [hrun, noteError_records] at h

/-! ## A whole walk -/

section Walk

variable {log : List (Job × Out)}

/-- Every path that a sequential run from the root records, but the root, is an entry that was
classified. -/
lemma drains_known (h : Drains (JobRuns wildmatch sys opts) {rootJob} log) {entry : Job × Out}
    (hentry : entry ∈ log) {record : Record} (hrecord : record ∈ entry.2.records)
    (hne : record.rel ≠ []) : ∃ rel, Known sys rel record.rel := by
  have hjobs : ∀ entry ∈ log, entry.1.rel = [] ∨ ∃ rel, Known sys rel entry.1.rel := by
    refine h.forall_log (P := fun job => job.rel = [] ∨ ∃ rel, Known sys rel job.rel) ?_ ?_
    · exact fun {job children out} hrun _ child hchild => .inr ⟨job.rel, hrun.known.2 child hchild⟩
    · intro job hjob
      obtain rfl := Multiset.mem_singleton.mp hjob
      exact .inl rfl
  obtain ⟨children, hrun, -⟩ := h.exists_children hentry
  rcases hrun.known.1 record hrecord with heq | ⟨-, hknown⟩
  · rcases hjobs entry hentry with hroot | hknown
    · exact absurd (heq.trans hroot) hne
    · rwa [heq]
  · exact ⟨_, hknown⟩

/-- A sequential run none of whose jobs notes a loss has every directory entry that it could
classify, in a directory that it recorded, unless the entry is gone. -/
lemma drains_has (h : Drains (JobRuns wildmatch sys opts) {rootJob} log)
    (hrecord : opts.record = true)
    (hcomplete : ∀ entry ∈ log, entry.2.incomplete = false) (htrue : sys.Truthful real)
    {entry : Job × Out} (hentry : entry ∈ log) {mtime : Int64}
    (hdir : Record.dir rel mtime ∈ entry.2.records) (he : sys.Lists rel e)
    (hreal : real (joinRel rel e.1) = .directory)
    (hkept : isExcluded wildmatch opts.exclude (joinRel rel e.1) = false) {fileType : FileType}
    (hclassified : classified sys rel e = .ok fileType) :
    (Out.mergeAll (log.map Prod.snd)).Has (joinRel rel e.1) ∨ Gone sys rel e := by
  have hne : joinRel rel e.1 ≠ [] := joinRel_ne_nil (htrue.valid he).nonempty
  have hlogged : ∀ {entry : Job × Out}, entry ∈ log → entry.2.Has (joinRel rel e.1) →
      (Out.mergeAll (log.map Prod.snd)).Has (joinRel rel e.1) := fun hentry hhas =>
    hhas.mergeAll (List.mem_map_of_mem hentry)
  have hgone : ∀ {err}, dropsASubtree err = false → (sys.openAt (joinRel rel e.1) = .error err ∨
      sys.openPath (joinRel rel e.1) = .error err ∨ sys.dirNew (joinRel rel e.1) = .error err) →
      Gone sys rel e := fun {err} herr hfails => ⟨err, herr, by rwa [hclassified]⟩
  -- The job that recorded the directory looked at the entry, as at a directory.
  obtain ⟨children, ⟨full, hrun⟩, hchildren⟩ := h.exists_children hentry
  have hout : (run wildmatch sys opts full entry.1).1 = entry.2 := by rw [hrun]
  obtain ⟨-, hents⟩ := run_dir (hout ▸ hdir)
  obtain ⟨hqueued, outs, houts, hmerge⟩ := hents e he
  have hkind : entryKind sys rel (entOf e) = some .dir := by
    rw [entryKind_entOf, hclassified, htrue.classified_eq he hclassified, hreal]
    rfl
  have hread : readEnt wildmatch sys opts full rel (entOf e) =
      readDirectory wildmatch sys opts full (joinRel rel e.1) e.1 := by
    rw [readEnt, hkind]
    rfl
  rw [hread] at hqueued houts
  rw [hrun] at hqueued
  rw [hout] at hmerge
  have hcomplete' : ∀ out ∈ outs, out.incomplete = false := by
    intro out hmem
    by_contra hne
    have := Out.mergeAll_incomplete_iff.mpr ⟨out, hmem, by simpa using hne⟩
    rw [← hmerge, hcomplete entry hentry] at this
    exact Bool.false_ne_true this
  rcases readDirectory_has hrecord hne hkept (hcomplete' _ houts) with
    hhas | ⟨fd, hchild⟩ | ⟨err, herr, hopen⟩
  · refine .inl (hlogged hentry ?_)
    rw [hmerge]
    exact hhas.mergeAll houts
  · -- The entry was queued, so it was run.
    obtain ⟨out, hlog⟩ := hchildren _ (hqueued hchild)
    obtain ⟨grandchildren, ⟨full', hrun'⟩, -⟩ := h.exists_children hlog
    have hout' : (run wildmatch sys opts full' ⟨fd, joinRel rel e.1⟩).1 = out := by rw [hrun']
    rcases run_has hrecord hne (hout' ▸ hcomplete _ hlog) with hhas | ⟨err, herr, hfails⟩
    · exact .inl (hlogged hlog (hout' ▸ hhas))
    · exact .inr (hgone herr (.inr hfails))
  · exact .inr (hgone herr (.inl hopen))

/-- A listing with a directory is that of a root the walk opened and read. -/
lemma WalkRoot.opened {host : Host} {root : Bytes} {listing : RootListing}
    (h : WalkRoot wildmatch host root opts (.ok listing)) {mtime : Int64}
    (hdir : Record.dir rel mtime ∈ listing.records) : 0 ∉ root ∧ rootIsWalkable host = true ∧
      isBareRoot root = false ∧ host.openBase = .ok () ∧ host.openRead = .ok () := by
  unfold WalkRoot at h
  split_ifs at h with hnul hwalkable hbare
  · obtain rfl : listing = Out.new := by simpa using h
    simp [Out.new] at hdir
  · obtain rfl : listing = Out.emit opts.record [] := by simpa using h
    have := (onlyAt_emit opts.record).1 _ hdir
    simp [Record.dir, Record.repo] at this
  · split at h
    · rename_i hbase hread
      exact ⟨hnul, by simpa using hwalkable, by simpa using hbare, hbase, hread⟩
    · obtain rfl : listing = RootListing.unreadable := by simpa using h
      simp [RootListing.unreadable, Out.noteIncomplete] at hdir

/-- In the listing of a walk that did not set its flag, take an entry of a recorded directory that
really is a directory and is not excluded.  The listing has it, or it was gone when the walk got to
it, unless the `lstat` that was to classify it failed for another reason. -/
theorem complete_listing_has_iff {host : Host} (htrue : host.sys.Truthful real) {root : Bytes}
    (hrecord : opts.record = true) {listing : RootListing}
    (h : WalkRoot wildmatch host root opts (.ok listing)) (hcomplete : listing.incomplete = false)
    {mtime : Int64} (hdir : Record.dir rel mtime ∈ listing.records) (he : host.sys.Lists rel e)
    (hreal : real (joinRel rel e.1) = .directory)
    (hkept : isExcluded wildmatch opts.exclude (joinRel rel e.1) = false) :
    (listing.Has (joinRel rel e.1) ∨ Gone host.sys rel e) ↔ ¬Unclassified host.sys rel e := by
  obtain ⟨hnul, hwalkable, hbare, hbase, hread⟩ := h.opened hdir
  obtain ⟨_, log, heq, hdrains, hequiv⟩ := h.drains wildmatch hnul hwalkable hbare hbase hread
  obtain rfl := Except.ok.inj heq
  have hrecords : ∀ {record}, record ∈ listing.records → ∃ entry ∈ log,
      record ∈ entry.2.records := by
    intro record hmem
    obtain ⟨out, hout, hmem⟩ := Out.mem_mergeAll_records.mp (hequiv.records.mem_iff.mp hmem)
    obtain ⟨entry, hentry, rfl⟩ := List.mem_map.mp hout
    exact ⟨entry, hentry, hmem⟩
  constructor
  · -- Nothing but this entry could have put the path into the listing.
    rintro hhas ⟨err, hclassified, hdrops⟩
    rcases hhas with hhas | ⟨err', hkeeps, hfails⟩
    · obtain ⟨record, hmem, hrel⟩ : ∃ record ∈ listing.records, record.rel = joinRel rel e.1 := by
        rcases hhas with ⟨-, hmem⟩ | ⟨mtime, hmem⟩ <;> exact ⟨_, hmem, rfl⟩
      have hne : record.rel ≠ [] := hrel ▸ joinRel_ne_nil (htrue.valid he).nonempty
      obtain ⟨entry, hentry, hmem⟩ := hrecords hmem
      obtain ⟨rel', e', fileType, he', hclassified', hpath⟩ := drains_known hdrains hentry hmem hne
      obtain ⟨rfl, hname⟩ :=
        joinRel_injective (htrue.valid he) (htrue.valid he') (hrel.symm.trans hpath)
      obtain rfl : e = e' := List.inj_on_of_nodup_map (htrue.distinct rel) he.1 he'.1 hname
      rw [hclassified] at hclassified'
      cases hclassified'
    · rw [hclassified] at hfails
      rw [hfails, hkeeps] at hdrops
      exact Bool.false_ne_true hdrops
  · intro hclassified
    obtain ⟨entry, hentry, hmem⟩ := hrecords hdir
    have hlosses : ∀ entry ∈ log, entry.2.incomplete = false := by
      intro entry hentry
      by_contra hne
      have := Out.mergeAll_incomplete_iff.mpr
        ⟨entry.2, List.mem_map_of_mem hentry, by simpa using hne⟩
      rw [← hequiv.incomplete, hcomplete] at this
      exact Bool.false_ne_true this
    cases hkind : classified host.sys rel e with
    | error err =>
      refine .inr ⟨err, ?_, by rw [hkind]⟩
      by_contra hdrops
      exact hclassified ⟨err, hkind, by simpa using hdrops⟩
    | ok fileType =>
      rcases drains_has hdrains hrecord hlosses htrue hentry hmem he hreal hkept hkind with
        hhas | hgone
      · exact .inl (hequiv.has hhas)
      · exact .inr hgone

end Walk

/-! ## Trees -/

/-- The type of the object at a path of a tree. -/
def Tree.typeAt (t : Tree) (path : Bytes) : FileType :=
  ((t.root.at? (components path)).map Node.fileType).getD .regularFile

/-- What a tree's directory lists are its entries. -/
lemma Tree.lists_iff {t : Tree} : t.sys.Lists rel e ↔ ∃ attr r x entries,
    t.root.at? (components rel) = some (.dir attr r x entries) ∧
      ∃ d ∈ entries, (d.1, if d.2.1 then d.2.2.fileType else .unknown) = e := by
  have hstream : (t.sys.readDir rel).1 = ((t.root.at? (components rel)).map Node.stream).getD [] :=
      rfl
  rw [Sys.Lists, hstream]
  cases hat : t.root.at? (components rel) with
  | none => simp
  | some n =>
    cases n with
    | dir attr r x entries =>
      have hvalid : ∀ d ∈ entries, ¬(d.1 = dot ∨ d.1 = dotDot) := fun d hd h =>
        h.elim (t.valid _ attr r x entries hat d hd).ne_dot
          (t.valid _ attr r x entries hat d hd).ne_dotDot
      constructor
      · rintro ⟨hmem, hdots⟩
        rcases List.mem_cons.mp hmem with rfl | hmem
        · exact absurd (.inl rfl) hdots
        · rcases List.mem_cons.mp hmem with rfl | hmem
          · exact absurd (.inr rfl) hdots
          · obtain ⟨d, hd, rfl⟩ := List.mem_map.mp hmem
            exact ⟨attr, r, x, entries, rfl, d, hd, rfl⟩
      · rintro ⟨attr', r', x', entries', heq, d, hd, rfl⟩
        cases heq
        exact ⟨List.mem_cons_of_mem _ (List.mem_cons_of_mem _ (List.mem_map_of_mem hd)),
          hvalid d hd⟩
    | _ => simp [Node.stream]

/-- The kernel of a tree tells the truth about it. -/
lemma Tree.truthful (t : Tree) : t.sys.Truthful t.typeAt := by
  have htype : ∀ {rel attr r x entries},
      t.root.at? (components rel) = some (.dir attr r x entries) →
      ∀ d ∈ entries, t.root.at? (components (joinRel rel d.1)) = some d.2.2 := by
    intro rel attr r x entries hat d hd
    rw [components_joinRel (t.valid _ attr r x entries hat d hd), Tree.at?_entry hat hd]
  refine ⟨fun rel => ?_, fun {rel e} he => ?_, fun {rel e} he => ?_,
    fun {rel e stat} he hstat => ?_⟩
  · show ((((t.root.at? (components rel)).map Node.stream).getD []).map Prod.fst).Nodup
    cases hat : t.root.at? (components rel) with
    | none => exact List.nodup_nil
    | some n =>
      cases n with
      | dir attr r x entries =>
        have hnames : ∀ name ∈ entries.map Prod.fst, ValidName name := by
          intro name hname
          obtain ⟨d, hd, rfl⟩ := List.mem_map.mp hname
          exact t.valid _ attr r x entries hat d hd
        simp only [Option.map_some, Option.getD_some, Node.stream, List.map_cons, List.map_map]
        change (dot :: dotDot :: entries.map Prod.fst).Nodup
        refine List.nodup_cons.mpr ⟨fun hmem => ?_, List.nodup_cons.mpr ⟨fun hmem => ?_,
          t.distinct _ attr r x entries hat⟩⟩
        · rcases List.mem_cons.mp hmem with heq | hmem
          · exact absurd heq (by decide)
          · exact (hnames _ hmem).ne_dot rfl
        · exact (hnames _ hmem).ne_dotDot rfl
      | _ => exact List.nodup_nil
  · obtain ⟨attr, r, x, entries, hat, d, hd, rfl⟩ := Tree.lists_iff.mp he
    exact t.valid _ attr r x entries hat d hd
  · obtain ⟨attr, r, x, entries, hat, d, hd, rfl⟩ := Tree.lists_iff.mp he
    cases htyped : d.2.1 with
    | false => exact .inl rfl
    | true => exact .inr (by simp [typeAt, htype hat d hd])
  · obtain ⟨attr, r, x, entries, hat, d, hd, rfl⟩ := Tree.lists_iff.mp he
    have hname := t.valid _ attr r x entries hat d hd
    have hfind : t.sys.lstat (joinRel rel d.1) = t.root.find false (components rel ++ [d.1]) := by
      rw [← components_joinRel hname]
      rfl
    rw [hfind, Node.find_append false (Tree.validPath hat) hat] at hstat
    have hlookup := Node.lookup_eq_some_of_mem (t.distinct _ attr r x entries hat) hd
    split_ifs at hstat
    · have hlink : d.2.2.find false [] = .ok d.2.2.stat := by cases d.2.2 <;> rfl
      cases x
      · simp [Node.find] at hstat
      · obtain rfl : d.2.2.stat = stat := by
          simpa [Node.find, hname.ne_dot, hlookup, hlink] using hstat
        simp [typeAt, htype hat d hd, Node.stat]

/-- A directory that can be read and holds one directory, which is empty. -/
def oneDir (mode : ℕ) (searchable : Bool) (name : Bytes) (typed : Bool) : Node :=
  .dir ⟨1, 2, mode, 100, 0⟩ true searchable [(name, typed, .dir ⟨1, 3, 0o755, 100, 0⟩ true true [])]

/-- Such a directory as a tree. -/
def oneDirTree (mode : ℕ) (searchable : Bool) (name : Bytes) (typed : Bool)
    (hname : ValidName name) : Tree :=
  have hdirs : ∀ p attr r x entries,
      (oneDir mode searchable name typed).at? p = some (.dir attr r x entries) →
      (entries.map Prod.fst).Nodup ∧ ∀ e ∈ entries, ValidName e.1 := by
    refine Node.forall_dir ⟨List.nodup_singleton _, by simpa using hname⟩ ?_
    simp only [List.forall_mem_cons, List.not_mem_nil, false_imp_iff, implies_true, and_true]
    exact Node.forall_dir (by simp) (by simp)
  { root := oneDir mode searchable name typed
    resolved := by simp [oneDir]
    distinct := fun p attr r x entries h => (hdirs p attr r x entries h).1
    valid := fun p attr r x entries h => (hdirs p attr r x entries h).2 }

/-- A root with the repository `b.git`. -/
def bareTree : Tree := oneDirTree 0o755 true (ascii ['b', '.', 'g', 'i', 't']) true (by decide)

/-- A root of mode 0444 with a directory `b`, whose type is not reported. -/
def lockedTree : Tree := oneDirTree 0o444 false (ascii ['b']) false (by decide)

/-- What the walk of the root with `b.git` finds. -/
lemma walkRoot_bareTree : WalkRoot (fun _ _ => false) bareTree.host (ascii ['/', 'r'])
    ⟨2, [], .openScan, true⟩ (.ok ⟨[ascii ['b', '.', 'g', 'i', 't']], 1, 0,
      [.dir [] 100000000000, .repo (ascii ['b', '.', 'g', 'i', 't'])], false⟩) := by
  rw [WalkRoot, if_neg (by decide), if_neg (by decide), if_neg (by decide)]
  exact ⟨fun _ => false, (if_pos rfl).mpr rfl⟩

/-- The entry `b.git` is in that listing. -/
theorem complete_listing_has_iff_sample : ∃ listing,
    WalkRoot (fun _ _ => false) bareTree.host (ascii ['/', 'r']) ⟨2, [], .openScan, true⟩
      (.ok listing) ∧
    ((listing.Has (ascii ['b', '.', 'g', 'i', 't']) ∨
        Gone bareTree.sys [] (ascii ['b', '.', 'g', 'i', 't'], .directory)) ↔
      ¬Unclassified bareTree.sys [] (ascii ['b', '.', 'g', 'i', 't'], .directory)) :=
  ⟨_, walkRoot_bareTree, complete_listing_has_iff bareTree.truthful rfl walkRoot_bareTree rfl
    (List.mem_cons_self ..)
    (Tree.lists_iff.mpr ⟨_, _, _, _, rfl, _, List.mem_singleton_self _, rfl⟩) rfl rfl⟩

/-- The walk of the root of mode 0444 reads it, cannot classify `b`, drops it, and ends without its
flag. -/
theorem complete_listing_misses : ∃ listing,
    WalkRoot (fun _ _ => false) lockedTree.host (ascii ['/', 'r']) ⟨2, [], .openScan, true⟩
      (.ok listing) ∧ listing.incomplete = false ∧ Record.dir [] 100000000000 ∈ listing.records ∧
    lockedTree.sys.Lists [] (ascii ['b'], .unknown) ∧
    lockedTree.typeAt (ascii ['b']) = .directory ∧
    ¬listing.Has (ascii ['b']) ∧ ¬Gone lockedTree.sys [] (ascii ['b'], .unknown) := by
  refine ⟨⟨[], 1, 0, [.dir [] 100000000000], false⟩, ?_, rfl, List.mem_singleton_self _, ?_, rfl,
    ?_, ?_⟩
  · rw [WalkRoot, if_neg (by decide), if_neg (by decide), if_neg (by decide)]
    exact ⟨fun _ => false, (if_pos rfl).mpr rfl⟩
  · exact Tree.lists_iff.mpr ⟨_, _, _, _, rfl, _, List.mem_singleton_self _, rfl⟩
  · rintro (⟨hmem, -⟩ | ⟨mtime, hmem⟩)
    · exact List.not_mem_nil hmem
    · have hrel : ascii ['b'] = [] := congrArg Record.rel (List.mem_singleton.mp hmem)
      exact absurd hrel (by decide)
  · have hclassified : classified lockedTree.sys [] (ascii ['b'], .unknown) = .error .ACCESS := rfl
    rintro ⟨err, hkeeps, hfails⟩
    rw [hclassified] at hfails
    obtain rfl : Errno.ACCESS = err := hfails
    exact absurd hkeeps (by decide)

end Scap
