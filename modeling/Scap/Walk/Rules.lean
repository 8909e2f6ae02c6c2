import Scap.Walk.TreeWalk

/-!
# The rules of the walk

A declarative description of what a walk finds (`Tree.FoundAt`): which paths are reached, which of
these are repositories and which are directories to remember.  It mentions neither the strategy nor
the order in which directories are read.  `mem_found_iff` and `nodup_found` compare it with the
walk from any set of starting points; the walk of a whole root and the walk of some subtrees are two
cases.
-/

namespace Scap

variable (wildmatch : Bytes → Bytes → Bool) (exclude : List Bytes) (t : Tree)

namespace Tree

/-- A real directory. -/
def IsDir (p : List Bytes) : Prop :=
  ∃ attr r x entries, t.root.at? p = some (.dir attr r x entries)

/-- A symlink that resolves to a directory. -/
def IsDirLink (p : List Bytes) : Prop :=
  (∃ attr resolve, t.root.at? p = some (.link attr resolve)) ∧ t.leadsToDir (render p) = true

/-- The path's own name ends in `.git`. -/
def BareName (p : List Bytes) : Prop := ∃ name ∈ p.getLast?, dotGit <:+ name

/-- A repository, for a directory or a link to one: by its own name, or by a `.git` that stats. -/
def IsRepo (p : List Bytes) : Prop := BareName p ∨ t.hasGit (render p) = true

/-- The path lies below real directories none of which is a repository, and neither it nor an
ancestor below the root is excluded. -/
structure Reached (p : List Bytes) : Prop where
  above : ∀ q, q <+: p → q ≠ p → t.IsDir q ∧ ¬t.IsRepo q
  kept : ∀ q, q <+: p → q ≠ [] → isExcluded wildmatch exclude (render q) = false

/-- What there is to be found at a path: a repository or a directory. -/
def FoundAt (p : List Bytes) (record : Record) : Prop :=
  t.Reached wildmatch exclude p ∧
    ((t.IsDir p ∨ t.IsDirLink p) ∧ t.IsRepo p ∧ record = .repo (render p) ∨
      ¬t.IsRepo p ∧ ∃ attr r x entries, t.root.at? p = some (.dir attr r x entries) ∧
        record = .dir (render p) (mtimeNs ⟨attr, .directory⟩))

end Tree

variable {wildmatch exclude t}

namespace Tree

/-- A directory has a valid path. -/
lemma IsDir.validPath {p : List Bytes} (h : t.IsDir p) : ValidPath p := by
  obtain ⟨attr, r, x, entries, h⟩ := h
  exact Tree.validPath h

/-- A directory and a link to one have a valid path. -/
lemma validPath_of_kind {p : List Bytes} (h : t.IsDir p ∨ t.IsDirLink p) : ValidPath p := by
  rcases h with hdir | ⟨⟨attr, resolve, hlink⟩, -⟩
  · exact hdir.validPath
  · exact Tree.validPath hlink

/-- What is found has a valid path. -/
lemma FoundAt.validPath {p : List Bytes} {record : Record}
    (h : t.FoundAt wildmatch exclude p record) : ValidPath p := by
  obtain ⟨-, ⟨hkind, -⟩ | ⟨-, attr, r, x, entries, hdir, -⟩⟩ := h
  · exact validPath_of_kind hkind
  · exact Tree.validPath hdir

/-- The record found at a path carries that path. -/
lemma FoundAt.rel_eq {p : List Bytes} {record : Record}
    (h : t.FoundAt wildmatch exclude p record) : record.rel = render p := by
  obtain ⟨-, ⟨-, -, rfl⟩ | ⟨-, _, _, _, _, -, rfl⟩⟩ := h <;> rfl

/-- A path is named like a bare repository if its last name ends in `.git`. -/
@[simp] lemma bareName_append_singleton {p : List Bytes} {name : Bytes} :
    BareName (p ++ [name]) ↔ dotGit <:+ name := by
  simp [BareName]

/-- The root itself is not named like a bare repository. -/
@[simp] lemma not_bareName_nil : ¬BareName [] := by simp [BareName]

/-- A path that is no repository has no `.git`. -/
lemma hasGit_eq_false {p : List Bytes} (h : ¬t.IsRepo p) : t.hasGit (render p) = false :=
  Bool.eq_false_iff.mpr fun hgit => h (.inr hgit)

/-- The root is reached. -/
lemma reached_nil : t.Reached wildmatch exclude [] where
  above _ hq hne := absurd (List.prefix_nil.mp hq) hne
  kept _ hq hne := absurd (List.prefix_nil.mp hq) hne

/-- A path is reached through its parent. -/
lemma reached_append_singleton {p : List Bytes} {name : Bytes} :
    t.Reached wildmatch exclude (p ++ [name]) ↔
      t.Reached wildmatch exclude p ∧ t.IsDir p ∧ ¬t.IsRepo p ∧
        isExcluded wildmatch exclude (render (p ++ [name])) = false := by
  have hpre : ∀ q, q <+: p ++ [name] ↔ q = p ++ [name] ∨ q <+: p := fun q =>
    List.prefix_concat_iff
  have hne : p ≠ p ++ [name] := by simp
  constructor
  · intro h
    have hp := h.above p (List.prefix_append ..) hne
    refine ⟨⟨fun q hq hqp => h.above q ((hpre q).mpr (.inr hq)) ?_, fun q hq hqn =>
      h.kept q ((hpre q).mpr (.inr hq)) hqn⟩, hp.1, hp.2, h.kept _ (List.prefix_refl _) (by simp)⟩
    exact ne_append_singleton_of_isPrefix hq
  · rintro ⟨hp, hdir, hrepo, hkept⟩
    refine ⟨fun q hq hqp => ?_, fun q hq hqn => ?_⟩
    · rcases (hpre q).mp hq with rfl | hq
      · exact absurd rfl hqp
      · rcases eq_or_ne q p with rfl | hqp'
        · exact ⟨hdir, hrepo⟩
        · exact hp.above q hq hqp'
    · rcases (hpre q).mp hq with rfl | hq
      · exact hkept
      · exact hp.kept q hq hqn

/-! ## Entries -/

section Entries

variable {opts : WalkOptions} {p : List Bytes} {attr : Attr} {r x : Bool}
  {entries : List (Bytes × Bool × Node)} {e : Bytes × Bool × Node}

/-- An entry is queued exactly if it is a directory that is kept, not named like a bare repository
and, where its `.git` is looked at first, without one. -/
lemma fate_queued_iff (hp : t.root.at? p = some (.dir attr r x entries)) (he : e ∈ entries) :
    t.fate wildmatch opts (render p) e = .queued ↔ t.IsDir (p ++ [e.1]) ∧
      isExcluded wildmatch opts.exclude (render (p ++ [e.1])) = false ∧ ¬BareName (p ++ [e.1]) ∧
      (opts.detect = .statFirst → t.hasGit (render (p ++ [e.1])) = false) := by
  have hat := at?_entry hp he
  obtain ⟨name, typed, n⟩ := e
  rw [bareName_append_singleton, render_append_singleton, IsDir, hat]
  cases n with
  | dir attr r x entries =>
    cases hexcluded : isExcluded wildmatch opts.exclude (joinRel (render p) name) <;>
      by_cases hsuffix : dotGit <:+ name <;> simp [fate, hexcluded, hsuffix]
  | link attr resolve =>
    simp only [fate]
    split_ifs <;> simp
  | file attr fileType plain => simp [fate]

/-- An entry is listed exactly if it is kept and is a directory named like a bare repository, one
with a `.git` that is looked at first, or a link to a directory with a `.git`. -/
lemma fate_emitted_iff (hp : t.root.at? p = some (.dir attr r x entries)) (he : e ∈ entries) :
    t.fate wildmatch opts (render p) e = .emitted ↔
      isExcluded wildmatch opts.exclude (render (p ++ [e.1])) = false ∧
      (t.IsDir (p ++ [e.1]) ∧ (BareName (p ++ [e.1]) ∨
          opts.detect = .statFirst ∧ t.hasGit (render (p ++ [e.1])) = true) ∨
        t.IsDirLink (p ++ [e.1]) ∧ t.IsRepo (p ++ [e.1])) := by
  have hat := at?_entry hp he
  obtain ⟨name, typed, n⟩ := e
  rw [IsRepo, bareName_append_singleton, render_append_singleton, IsDir, IsDirLink, hat,
    render_append_singleton]
  cases n with
  | dir attr r x entries =>
    cases hexcluded : isExcluded wildmatch opts.exclude (joinRel (render p) name) <;>
      by_cases hsuffix : dotGit <:+ name <;> simp [fate, hexcluded, hsuffix]
  | link attr resolve =>
    cases hexcluded : isExcluded wildmatch opts.exclude (joinRel (render p) name) <;>
      by_cases hsuffix : dotGit <:+ name <;> simp [fate, hexcluded, hsuffix]
  | file attr fileType plain => simp [fate]

end Entries

/-! ## The walk from some starting points -/

/-- The printed form of a repository's path. -/
def printed (rel : Bytes) : Bytes := if rel.isEmpty then dot else rel

/-- The repositories among some records, as they are printed. -/
def reposOf (records : List Record) : List Bytes :=
  (records.filter Record.isRepo).map fun record => printed record.rel

/-- No records list no repositories. -/
@[simp] lemma reposOf_nil : reposOf [] = [] := rfl

/-- A repository among the records is listed. -/
@[simp] lemma reposOf_repo_cons (rel : Bytes) (records : List Record) :
    reposOf (.repo rel :: records) = printed rel :: reposOf records := rfl

/-- A directory among the records is not listed. -/
@[simp] lemma reposOf_dir_cons (rel : Bytes) (mtime : Int64) (records : List Record) :
    reposOf (.dir rel mtime :: records) = reposOf records := rfl

/-- Records of repositories are listed as they are. -/
@[simp] lemma reposOf_map_repo (rels : List Bytes) :
    reposOf (rels.map Record.repo) = rels.map printed := by
  induction rels with
  | nil => rfl
  | cons rel rels ih => rw [List.map_cons, reposOf_repo_cons, ih, List.map_cons]

/-- Two lists of records are listed one after the other. -/
@[simp] lemma reposOf_append (xs ys : List Record) :
    reposOf (xs ++ ys) = reposOf xs ++ reposOf ys := by simp [reposOf]

/-- The entries of a directory the walk emits at once. -/
def emittedIn (wildmatch : Bytes → Bytes → Bool) (t : Tree) (opts : WalkOptions) (rel : Bytes)
    (entries : List (Bytes × Bool × Node)) : List Bytes :=
  (entries.filter fun e => t.fate wildmatch opts rel e = .emitted).map fun e => joinRel rel e.1

/-- What reading the directory `rel` finds. -/
def dirFound (wildmatch : Bytes → Bytes → Bool) (t : Tree) (opts : WalkOptions) (rel : Bytes) :
    List Record :=
  match t.root.at? (components rel) with
  | some (.dir attr _ _ entries) =>
    if t.hasGit rel then [.repo rel]
    else .dir rel (mtimeNs ⟨attr, .directory⟩) ::
      (t.emittedIn wildmatch opts rel entries).map Record.repo
  | _ => []

/-- The entries of a directory together list what each of them lists. -/
lemma mergeAll_entOut (wildmatch : Bytes → Bytes → Bool) (t : Tree) (opts : WalkOptions)
    (rel : Bytes) (entries : List (Bytes × Bool × Node)) :
    let out := Out.mergeAll (entries.map (t.entOut wildmatch opts rel))
    out.arena = (t.emittedIn wildmatch opts rel entries).map printed ∧
      out.records = (if opts.record then (t.emittedIn wildmatch opts rel entries).map Record.repo
        else []) ∧
      out.incomplete = false := by
  induction entries with
  | nil => simp [Out.new, emittedIn]
  | cons e entries ih =>
    obtain ⟨harena, hrecords, hincomplete⟩ := ih
    rw [List.map_cons, Out.mergeAll_cons]
    simp only [Out.merge, harena, hrecords, hincomplete]
    cases hfate : t.fate wildmatch opts rel e <;>
      simp [entOut, emittedIn, hfate, Out.new, Out.noteExcluded, Out.emit, printed]
    cases opts.record <;> rfl

/-- What reading a directory adds to the output is what it finds. -/
lemma dirOut_eq (wildmatch : Bytes → Bytes → Bool) (t : Tree) (opts : WalkOptions) (rel : Bytes) :
    (t.dirOut wildmatch opts rel).arena = reposOf (t.dirFound wildmatch opts rel) ∧
      (t.dirOut wildmatch opts rel).records =
        (if opts.record then t.dirFound wildmatch opts rel else []) ∧
      (t.dirOut wildmatch opts rel).incomplete = false := by
  cases hat : t.root.at? (components rel) with
  | none => simp [dirOut, dirFound, hat, Out.new]
  | some n =>
    cases n with
    | dir attr r x entries =>
      obtain ⟨harena, hrecords, hincomplete⟩ := mergeAll_entOut wildmatch t opts rel entries
      by_cases hgit : t.hasGit rel = true
      · simp [dirOut, dirFound, hat, hgit, Out.merge, Out.noteRead, Out.emit, printed]
      · simp only [dirOut, dirFound, hat, hgit, Bool.false_eq_true, if_false, Out.mergeAll_cons,
          Out.merge, harena, hrecords, hincomplete, reposOf_dir_cons, reposOf_map_repo]
        cases opts.record <;> simp [Out.noteRead, Out.noteDir]
    | _ => simp [dirOut, dirFound, hat, Out.new]

/-- The output of a traversal is what the directories it visits find. -/
lemma mergeAll_dirOut (wildmatch : Bytes → Bytes → Bool) (t : Tree) (opts : WalkOptions)
    (visited : List Bytes) :
    let out := Out.mergeAll (visited.map (t.dirOut wildmatch opts))
    let found := visited.flatMap (t.dirFound wildmatch opts)
    out.arena = reposOf found ∧ out.records = (if opts.record then found else []) ∧
      out.incomplete = false := by
  induction visited with
  | nil => simp [Out.new]
  | cons rel visited ih =>
    obtain ⟨harena, hrecords, hincomplete⟩ := ih
    obtain ⟨harena', hrecords', hincomplete'⟩ := dirOut_eq wildmatch t opts rel
    simp only [List.map_cons, Out.mergeAll_cons, Out.merge, harena, hrecords, hincomplete, harena',
      hrecords', hincomplete', List.flatMap_cons, reposOf_append]
    cases opts.record <;> simp

/-- Where a walk may be started: at a directory it would have read on its way down from the root,
had a stat not found its `.git` first. -/
structure Start (wildmatch : Bytes → Bytes → Bool) (exclude : List Bytes) (t : Tree)
    (p : List Bytes) : Prop where
  dir : t.IsDir p
  reached : t.Reached wildmatch exclude p
  plain : ¬BareName p

/-- The directory `p` is read by a walk started at `s`. -/
structure Visits (wildmatch : Bytes → Bytes → Bool) (t : Tree) (opts : WalkOptions)
    (s p : List Bytes) : Prop extends Start wildmatch opts.exclude t p where
  below : s <+: p
  settled : p ≠ s → opts.detect = .statFirst → t.hasGit (render p) = false

section Traversal

variable {opts : WalkOptions} {s p : List Bytes}

/-- A start is visited. -/
lemma Start.visits (h : Start wildmatch opts.exclude t s) : Visits wildmatch t opts s s :=
  ⟨h, List.prefix_refl s, fun hne => absurd rfl hne⟩

/-- The children queued from a directory that is read are the directories read next. -/
lemma Visits.mem_queued_iff (h : Visits wildmatch t opts s p) {rel : Bytes} :
    rel ∈ t.queued wildmatch opts (render p) ↔ t.hasGit (render p) = false ∧
      ∃ name, Visits wildmatch t opts s (p ++ [name]) ∧ rel = render (p ++ [name]) := by
  have hvalid := h.dir.validPath
  rw [mem_queued]
  constructor
  · rintro ⟨attr, r, x, entries, hat, hgit, e, he, hfate, rfl⟩
    rw [components_render hvalid] at hat
    obtain ⟨hdir, hkept, hplain, hsettled⟩ := (fate_queued_iff hat he).mp hfate
    have hrepo : ¬t.IsRepo p := fun hrepo => hrepo.elim h.plain (by simp [hgit])
    refine ⟨hgit, e.1, ⟨⟨hdir, reached_append_singleton.mpr ⟨h.reached, h.dir, hrepo, hkept⟩,
      hplain⟩, h.below.trans (List.prefix_append ..), fun _ => hsettled⟩, ?_⟩
    rw [render_append_singleton]
  · rintro ⟨hgit, name, hvisits, rfl⟩
    obtain ⟨attr, r, x, entries, hat⟩ := h.dir
    obtain ⟨attr', r', x', entries', hchild⟩ := hvisits.dir
    obtain ⟨e, he, rfl, -⟩ := exists_entry hat hchild
    have hne : p ++ [e.1] ≠ s := (ne_append_singleton_of_isPrefix h.below).symm
    have hkept := (reached_append_singleton.mp hvisits.reached).2.2.2
    refine ⟨attr, r, x, entries, by rwa [components_render hvalid], hgit, e, he, ?_,
      render_append_singleton ..⟩
    exact (fate_queued_iff hat he).mpr ⟨hvisits.dir, hkept, hvisits.plain, hvisits.settled hne⟩

/-- A directory that is read is the starting point or a child of one that is read. -/
lemma Visits.parent {name : Bytes} (h : Visits wildmatch t opts s (p ++ [name]))
    (hne : p ++ [name] ≠ s) :
    Visits wildmatch t opts s p ∧ t.hasGit (render p) = false := by
  obtain ⟨hreached, hdir, hrepo, -⟩ := reached_append_singleton.mp h.reached
  have hbelow : s <+: p := by
    rcases List.prefix_concat_iff.mp h.below with heq | hbelow
    · exact absurd heq.symm hne
    · exact hbelow
  have hgit := hasGit_eq_false hrepo
  exact ⟨⟨⟨hdir, hreached, fun hbare => hrepo (.inl hbare)⟩, hbelow, fun _ _ => hgit⟩, hgit⟩

/-- The directories a walk started at `s` reads. -/
lemma Start.reads_iff (hs : Start wildmatch opts.exclude t s) {rel : Bytes} :
    Relation.ReflTransGen (fun a b => b ∈ t.queued wildmatch opts a) (render s) rel ↔
      ∃ p, Visits wildmatch t opts s p ∧ rel = render p := by
  constructor
  · intro h
    induction h with
    | refl => exact ⟨s, hs.visits, rfl⟩
    | tail _ hchild ih =>
      obtain ⟨p, hp, rfl⟩ := ih
      obtain ⟨-, name, hname, rfl⟩ := hp.mem_queued_iff.mp hchild
      exact ⟨p ++ [name], hname, rfl⟩
  · rintro ⟨p, hp, rfl⟩
    induction p using List.reverseRecOn with
    | nil =>
      obtain rfl := List.prefix_nil.mp hp.below
      exact .refl
    | append_singleton p name ih =>
      rcases eq_or_ne (p ++ [name]) s with rfl | hne
      · exact .refl
      · obtain ⟨hparent, hgit⟩ := hp.parent hne
        exact (ih hparent).tail (hparent.mem_queued_iff.mpr ⟨hgit, name, hp, rfl⟩)

/-- What a directory records is itself as a repository, or else itself as a directory and the
entries that are listed. -/
lemma mem_dirFound_iff {attr : Attr} {r x : Bool} {entries : List (Bytes × Bool × Node)}
    (hat : t.root.at? p = some (.dir attr r x entries)) {record : Record} :
    record ∈ t.dirFound wildmatch opts (render p) ↔
      t.hasGit (render p) = true ∧ record = .repo (render p) ∨
      t.hasGit (render p) = false ∧ (record = .dir (render p) (mtimeNs ⟨attr, .directory⟩) ∨
        ∃ e ∈ entries, t.fate wildmatch opts (render p) e = .emitted ∧
          record = .repo (render (p ++ [e.1]))) := by
  rw [dirFound, components_render (validPath hat), hat]
  cases hgit : t.hasGit (render p) with
  | true => simp
  | false => simp [emittedIn, eq_comm, and_assoc]

/-- What a directory that is read yields is there to be found. -/
lemma Visits.foundAt (h : Visits wildmatch t opts s p) {record : Record}
    (hrecord : record ∈ t.dirFound wildmatch opts (render p)) :
    ∃ q, s <+: q ∧ t.FoundAt wildmatch opts.exclude q record := by
  have hdir := h.dir
  obtain ⟨attr, r, x, entries, hat⟩ := h.dir
  rcases (mem_dirFound_iff hat).mp hrecord with ⟨hgit, rfl⟩ | ⟨hgit, hrecord⟩
  · exact ⟨p, h.below, h.reached, .inl ⟨.inl hdir, .inr hgit, rfl⟩⟩
  · have hrepo : ¬t.IsRepo p := fun hrepo => hrepo.elim h.plain (by simp [hgit])
    rcases hrecord with rfl | ⟨e, he, hfate, rfl⟩
    · exact ⟨p, h.below, h.reached, .inr ⟨hrepo, attr, r, x, entries, hat, rfl⟩⟩
    · obtain ⟨hkept, hfate⟩ := (fate_emitted_iff hat he).mp hfate
      refine ⟨p ++ [e.1], h.below.trans (List.prefix_append ..),
        reached_append_singleton.mpr ⟨h.reached, hdir, hrepo, hkept⟩, .inl ?_⟩
      rcases hfate with ⟨hchild, hchildRepo⟩ | ⟨hlink, hchildRepo⟩
      · exact ⟨.inl hchild, hchildRepo.imp id And.right, rfl⟩
      · exact ⟨.inr hlink, hchildRepo, rfl⟩

/-- What is there to be found below a starting point is found by a directory that is read. -/
lemma Start.exists_visits (hs : Start wildmatch opts.exclude t s) {q : List Bytes} {record : Record}
    (hbelow : s <+: q) (h : t.FoundAt wildmatch opts.exclude q record) :
    ∃ p, Visits wildmatch t opts s p ∧ record ∈ t.dirFound wildmatch opts (render p) := by
  obtain ⟨hreached, hcase⟩ := h
  -- A directory that no stat has settled is read itself.
  have hself : ∀ {attr r x entries}, t.root.at? q = some (.dir attr r x entries) → ¬BareName q →
      (q ≠ s → opts.detect = .statFirst → t.hasGit (render q) = false) →
      Visits wildmatch t opts s q := fun hat hplain hsettled =>
    ⟨⟨⟨_, _, _, _, hat⟩, hreached, hplain⟩, hbelow, hsettled⟩
  rcases hcase with ⟨hkind, hrepo, rfl⟩ | ⟨hrepo, attr, r, x, entries, hat, rfl⟩
  · rcases eq_or_ne q s with rfl | hne
    · obtain ⟨attr, r, x, entries, hat⟩ := hs.dir
      have hgit : t.hasGit (render q) = true := hrepo.resolve_left hs.plain
      exact ⟨q, hs.visits, (mem_dirFound_iff hat).mpr (.inl ⟨hgit, rfl⟩)⟩
    · -- A repository below the starting point is emitted by its parent, or read.
      obtain ⟨p, name, rfl⟩ : ∃ p name, q = p ++ [name] := by
        rcases List.eq_nil_or_concat' q with rfl | ⟨p, name, rfl⟩
        · exact absurd (List.prefix_nil.mp hbelow).symm hne
        · exact ⟨p, name, rfl⟩
      obtain ⟨hparent, hdir, hnotRepo, hkept⟩ := reached_append_singleton.mp hreached
      have hvisits : Visits wildmatch t opts s p :=
        ⟨⟨hdir, hparent, fun hbare => hnotRepo (.inl hbare)⟩,
          (List.prefix_concat_iff.mp hbelow).resolve_left fun heq => hne heq.symm,
          fun _ _ => hasGit_eq_false hnotRepo⟩
      have hgit := hasGit_eq_false hnotRepo
      obtain ⟨attr, r, x, entries, hat⟩ := hdir
      rcases hkind with ⟨attr', r', x', entries', hchild⟩ | hlink
      · obtain ⟨e, he, rfl, -⟩ := exists_entry hat hchild
        by_cases hfate : t.fate wildmatch opts (render p) e = .emitted
        · exact ⟨p, hvisits, (mem_dirFound_iff hat).mpr (.inr ⟨hgit, .inr ⟨e, he, hfate, rfl⟩⟩)⟩
        · rw [fate_emitted_iff hat he] at hfate
          have hplain : ¬BareName (p ++ [e.1]) := fun hbare =>
            hfate ⟨hkept, .inl ⟨⟨_, _, _, _, hchild⟩, .inl hbare⟩⟩
          have hchildGit : t.hasGit (render (p ++ [e.1])) = true := hrepo.resolve_left hplain
          have hscan : opts.detect ≠ .statFirst := fun hdetect =>
            hfate ⟨hkept, .inl ⟨⟨_, _, _, _, hchild⟩, .inr ⟨hdetect, hchildGit⟩⟩⟩
          exact ⟨p ++ [e.1], hself hchild hplain fun _ hdetect => absurd hdetect hscan,
            (mem_dirFound_iff hchild).mpr (.inl ⟨hchildGit, rfl⟩)⟩
      · obtain ⟨attr', resolve, hchild⟩ := hlink.1
        obtain ⟨e, he, rfl, -⟩ := exists_entry hat hchild
        have hfate : t.fate wildmatch opts (render p) e = .emitted :=
          (fate_emitted_iff hat he).mpr ⟨hkept, .inr ⟨hlink, hrepo⟩⟩
        exact ⟨p, hvisits, (mem_dirFound_iff hat).mpr (.inr ⟨hgit, .inr ⟨e, he, hfate, rfl⟩⟩)⟩
  · have hgit := hasGit_eq_false hrepo
    exact ⟨q, hself hat (fun hbare => hrepo (.inl hbare)) fun _ _ => hgit,
      (mem_dirFound_iff hat).mpr (.inr ⟨hgit, .inl rfl⟩)⟩

/-- A walk from some starting points finds what there is to be found below them. -/
theorem mem_found_iff {starts : List (List Bytes)}
    (hstarts : ∀ s ∈ starts, Start wildmatch opts.exclude t s) {visited : List Bytes}
    (h : Unfolds (t.queued wildmatch opts) (starts.map render) visited) {record : Record} :
    record ∈ visited.flatMap (t.dirFound wildmatch opts) ↔
      ∃ s ∈ starts, ∃ p, s <+: p ∧ t.FoundAt wildmatch opts.exclude p record := by
  simp only [List.mem_flatMap, h.mem_iff, List.mem_map]
  constructor
  · rintro ⟨_, ⟨_, ⟨s, hs, rfl⟩, hreads⟩, hrecord⟩
    obtain ⟨p, hp, rfl⟩ := (hstarts s hs).reads_iff.mp hreads
    exact ⟨s, hs, hp.foundAt hrecord⟩
  · rintro ⟨s, hs, p, hbelow, hfound⟩
    obtain ⟨q, hq, hrecord⟩ := (hstarts s hs).exists_visits hbelow hfound
    exact ⟨render q, ⟨render s, ⟨s, hs, rfl⟩, (hstarts s hs).reads_iff.mpr ⟨q, hq, rfl⟩⟩, hrecord⟩

/-- Distinct entries of a directory have distinct paths. -/
lemma nodup_joined {rel : Bytes} {attr : Attr} {r x : Bool} {entries : List (Bytes × Bool × Node)}
    (hat : t.root.at? (components rel) = some (.dir attr r x entries))
    (keep : Bytes × Bool × Node → Bool) :
    ((entries.filter keep).map fun e => joinRel rel e.1).Nodup := by
  have hnames : ((entries.filter keep).map Prod.fst).Nodup :=
    (t.distinct _ _ _ _ _ hat).sublist (List.filter_sublist.map _)
  rw [← Function.comp_def, ← List.map_map]
  refine hnames.map_on fun name hname name' hname' heq => ?_
  have hvalid : ∀ name ∈ (entries.filter keep).map Prod.fst, ValidName name := by
    intro name hname
    obtain ⟨e, he, rfl⟩ := List.mem_map.mp hname
    exact t.valid _ _ _ _ _ hat e (List.mem_of_mem_filter he)
  exact (joinRel_injective (hvalid name hname) (hvalid name' hname') heq).2

/-- A walk from starting points none of which lies below another reads no directory twice. -/
lemma nodup_visited {starts : List (List Bytes)}
    (hstarts : ∀ s ∈ starts, Start wildmatch opts.exclude t s) (hnodup : starts.Nodup)
    (hapart : ∀ s ∈ starts, ∀ s' ∈ starts, s <+: s' → s = s') {visited : List Bytes}
    (h : Unfolds (t.queued wildmatch opts) (starts.map render) visited) : visited.Nodup := by
  refine h.nodup t.rank (fun _ _ hc => rank_lt_of_mem_queued wildmatch hc) ?_ ?_ ?_
  · intro rel
    unfold queued
    split
    · rename_i attr r x entries hat
      split
      · exact List.nodup_nil
      · exact nodup_joined hat _
    · exact List.nodup_nil
  · intro a b c hca hcb
    obtain ⟨_, _, _, _, ha, -, e, he, -, rfl⟩ := (mem_queued wildmatch).mp hca
    obtain ⟨_, _, _, _, hb, -, e', he', -, heq⟩ := (mem_queued wildmatch).mp hcb
    exact (joinRel_injective (t.valid _ _ _ _ _ ha e he) (t.valid _ _ _ _ _ hb e' he') heq).1
  · refine List.pairwise_map.mpr (hnodup.pairwise_of_forall_ne fun s hs s' hs' hne x hx hx' => ?_)
    obtain ⟨p, hp, rfl⟩ := (hstarts s hs).reads_iff.mp hx
    obtain ⟨p', hp', heq⟩ := (hstarts s' hs').reads_iff.mp hx'
    obtain rfl := render_injective hp.dir.validPath hp'.dir.validPath heq
    rcases List.prefix_or_prefix_of_prefix hp.below hp'.below with hle | hle
    · exact hne (hapart s hs s' hs' hle)
    · exact hne (hapart s' hs' s hs hle).symm

/-- What a directory that is read finds lies at the directory or at an entry it emits. -/
lemma rel_of_mem_dirFound (hat : t.IsDir p) {record : Record}
    (h : record ∈ t.dirFound wildmatch opts (render p)) :
    record.rel = render p ∨ ∃ name, record.rel = render (p ++ [name]) ∧ ValidPath (p ++ [name]) ∧
      (t.IsDir (p ++ [name]) → BareName (p ++ [name]) ∨
        opts.detect = .statFirst ∧ t.hasGit (render (p ++ [name])) = true) := by
  obtain ⟨attr, r, x, entries, hat⟩ := hat
  rcases (mem_dirFound_iff hat).mp h with ⟨-, rfl⟩ | ⟨-, rfl | ⟨e, he, hfate, rfl⟩⟩
  · exact .inl rfl
  · exact .inl rfl
  · refine .inr ⟨e.1, rfl, validPath (at?_entry hat he), fun hdir => ?_⟩
    rcases ((fate_emitted_iff hat he).mp hfate).2 with
      ⟨-, hrepo⟩ | ⟨⟨⟨attr', resolve, hlink⟩, -⟩, -⟩
    · exact hrepo
    · obtain ⟨_, _, _, _, hdir⟩ := hdir
      exact absurd (hdir.symm.trans hlink) (by simp)

/-- A directory that is read is not also found by another one that is read. -/
lemma Visits.eq_of_found {s' p' : List Bytes} (h : Visits wildmatch t opts s p)
    (h' : Visits wildmatch t opts s' p') (hapart : s' <+: s → s' = s) {record record' : Record}
    (hrecord : record ∈ t.dirFound wildmatch opts (render p)) (hrel : record.rel = render p)
    (hrecord' : record' ∈ t.dirFound wildmatch opts (render p')) (heq : record.rel = record'.rel) :
    p = p' := by
  rw [hrel] at heq
  rcases rel_of_mem_dirFound h'.dir hrecord' with hrel' | ⟨name, hrel', hvalid, hemitted⟩
  · exact render_injective h.dir.validPath h'.dir.validPath (heq.trans hrel')
  · obtain rfl := render_injective h.dir.validPath hvalid (heq.trans hrel')
    rcases hemitted h.dir with hbare | ⟨hdetect, hgit⟩
    · exact absurd hbare h.plain
    · rcases eq_or_ne (p' ++ [name]) s with rfl | hne
      · obtain rfl := hapart (h'.below.trans (List.prefix_append ..))
        exact absurd rfl (ne_append_singleton_of_isPrefix h'.below)
      · exact absurd hgit (by rw [h.settled hne hdetect]; exact Bool.false_ne_true)

/-- A directory finds no path twice. -/
lemma nodup_dirFound (hat : t.IsDir p) :
    ((t.dirFound wildmatch opts (render p)).map Record.rel).Nodup := by
  have hvalid := hat.validPath
  obtain ⟨attr, r, x, entries, hat⟩ := hat
  have hat' : t.root.at? (components (render p)) = some (.dir attr r x entries) := by
    rwa [components_render hvalid]
  by_cases hgit : t.hasGit (render p) = true
  · simp [dirFound, hat', hgit]
  · have hemitted : (t.emittedIn wildmatch opts (render p) entries).Nodup := nodup_joined hat' _
    have hrels : ((t.emittedIn wildmatch opts (render p) entries).map Record.repo).map Record.rel =
        t.emittedIn wildmatch opts (render p) entries := by
      rw [List.map_map]
      exact List.map_id _
    simp only [dirFound, hat', hgit, Bool.false_eq_true, if_false, List.map_cons, hrels]
    refine List.nodup_cons.mpr ⟨fun hmem => ?_, hemitted⟩
    obtain ⟨e, he, heq⟩ := List.mem_map.mp hmem
    have hentry := at?_entry hat (List.mem_of_mem_filter he)
    have hsame := render_injective (validPath hentry) hvalid
      ((render_append_singleton ..).trans heq)
    exact absurd (congrArg List.length hsame) (by simp)

/-- A walk from starting points none of which lies below another finds no path twice. -/
theorem nodup_found {starts : List (List Bytes)}
    (hstarts : ∀ s ∈ starts, Start wildmatch opts.exclude t s) (hnodup : starts.Nodup)
    (hapart : ∀ s ∈ starts, ∀ s' ∈ starts, s <+: s' → s = s') {visited : List Bytes}
    (h : Unfolds (t.queued wildmatch opts) (starts.map render) visited) :
    ((visited.flatMap (t.dirFound wildmatch opts)).map Record.rel).Nodup := by
  have hvisits : ∀ rel ∈ visited, ∃ s ∈ starts, ∃ p, Visits wildmatch t opts s p ∧
      rel = render p := by
    intro rel hrel
    obtain ⟨_, hstart, hreads⟩ := h.mem_iff.mp hrel
    obtain ⟨s, hs, rfl⟩ := List.mem_map.mp hstart
    exact ⟨s, hs, (hstarts s hs).reads_iff.mp hreads⟩
  rw [List.map_flatMap]
  refine List.nodup_flatMap.mpr ⟨fun rel hrel => ?_, ?_⟩
  · obtain ⟨s, -, p, hp, rfl⟩ := hvisits rel hrel
    exact nodup_dirFound hp.dir
  · refine (nodup_visited hstarts hnodup hapart h).pairwise_of_forall_ne fun rel hrel rel' hrel'
      hne => ?_
    obtain ⟨s, hs, p, hp, rfl⟩ := hvisits rel hrel
    obtain ⟨s', hs', p', hp', rfl⟩ := hvisits rel' hrel'
    intro path hpath hpath'
    obtain ⟨record, hrecord, rfl⟩ := List.mem_map.mp hpath
    obtain ⟨record', hrecord', heq⟩ := List.mem_map.mp hpath'
    refine hne (congrArg render ?_)
    rcases rel_of_mem_dirFound hp.dir hrecord with hself | ⟨name, hjoin, hvalid, -⟩
    · exact hp.eq_of_found hp' (hapart s' hs' s hs) hrecord hself hrecord' heq.symm
    · rcases rel_of_mem_dirFound hp'.dir hrecord' with hself' | ⟨name', hjoin', hvalid', -⟩
      · exact (hp'.eq_of_found hp (hapart s hs s' hs') hrecord' hself' hrecord heq).symm
      · have hjoined := render_injective hvalid hvalid' (hjoin.symm.trans (heq.symm.trans hjoin'))
        exact (List.append_inj' hjoined rfl).1

end Traversal

end Tree

/-! ## A whole root -/

variable {opts : WalkOptions}

/-- The walk of a root found exactly these records. -/
structure Out.Finds (listing : Out) (opts : WalkOptions) (found : List Record) : Prop where
  arena : listing.arena.Perm (Tree.reposOf found)
  records : opts.record = true → listing.records.Perm found
  complete : listing.incomplete = false

/-- A listing that comes to what the visits list holds what they find. -/
lemma Out.Equiv.finds {listing : Out} {visited : List Bytes}
    (h : listing.Equiv (Out.mergeAll (visited.map (t.dirOut wildmatch opts)))) :
    listing.Finds opts (visited.flatMap (t.dirFound wildmatch opts)) := by
  obtain ⟨harena, hrecords, hincomplete⟩ := Tree.mergeAll_dirOut wildmatch t opts visited
  refine ⟨harena ▸ h.arena, fun hrecord => ?_, h.incomplete.trans hincomplete⟩
  have := h.records
  rwa [hrecords, if_pos hrecord] at this

/-- The walk of a root that is a directory and not named `*.git` finds what there is to be found. -/
theorem WalkRoot.finds (h : t.Accessible) (hdir : t.IsDir []) {root : Bytes} (hnul : 0 ∉ root)
    (hbare : isBareRoot root = false) {result : Except WalkError RootListing}
    (hwalk : WalkRoot wildmatch t.host root opts result) :
    ∃ listing found, result = .ok listing ∧ listing.Finds opts found ∧
      (found.map Record.rel).Nodup ∧
      ∀ record, record ∈ found ↔ ∃ p, t.FoundAt wildmatch opts.exclude p record := by
  have hstart : ∀ s ∈ [([] : List Bytes)], Tree.Start wildmatch opts.exclude t s := by
    intro s hs
    obtain rfl : s = [] := by simpa using hs
    exact ⟨hdir, Tree.reached_nil, Tree.not_bareName_nil⟩
  obtain ⟨attr, r, x, entries, hat⟩ := hdir
  obtain ⟨listing, visited, rfl, hvisited, hequiv⟩ :=
    hwalk.tree wildmatch h (by simpa using hat) hnul hbare
  refine ⟨listing, _, rfl, hequiv.finds, ?_, fun record => ?_⟩
  · exact Tree.nodup_found hstart (List.nodup_singleton _) (by simp) hvisited
  · rw [Tree.mem_found_iff hstart hvisited]
    simp

/-- The paths listed are those of the repositories among the records. -/
lemma Tree.mem_reposOf_iff {found : List Record} {path : Bytes} :
    path ∈ Tree.reposOf found ↔ ∃ rel, Record.repo rel ∈ found ∧ path = Tree.printed rel := by
  simp only [Tree.reposOf, List.mem_map, List.mem_filter]
  constructor
  · rintro ⟨⟨rel, mtime⟩, ⟨hmem, hrepo⟩, rfl⟩
    obtain rfl : mtime = none := by simpa [Record.isRepo] using hrepo
    exact ⟨rel, hmem, rfl⟩
  · rintro ⟨rel, hmem, rfl⟩
    exact ⟨.repo rel, ⟨hmem, rfl⟩, rfl⟩

/-- The paths the rules make a listing of the root hold: the root alone when it is a repository
itself, otherwise the repositories that are reached. -/
def Tree.Listed (wildmatch : Bytes → Bytes → Bool) (exclude : List Bytes) (t : Tree) (root : Bytes)
    (path : Bytes) : Prop :=
  if isBareRoot root ∨ t.hasGit [] then path = dot
  else ∃ p, p ≠ [] ∧ (t.IsDir p ∨ t.IsDirLink p) ∧ t.IsRepo p ∧ t.Reached wildmatch exclude p ∧
    path = render p

/-- A repository is found exactly where a directory or a link to one is reached and has a `.git`. -/
lemma Tree.foundAt_repo_iff {p : List Bytes} {rel : Bytes} :
    t.FoundAt wildmatch exclude p (.repo rel) ↔ (t.IsDir p ∨ t.IsDirLink p) ∧ t.IsRepo p ∧
      t.Reached wildmatch exclude p ∧ rel = render p := by
  constructor
  · rintro ⟨hreached, ⟨hkind, hrepo, heq⟩ | ⟨-, _, _, _, _, -, heq⟩⟩
    · exact ⟨hkind, hrepo, hreached, congrArg Record.rel heq⟩
    · exact absurd (congrArg Record.mtimeNs heq) (by simp [Record.repo, Record.dir])
  · rintro ⟨hkind, hrepo, hreached, rfl⟩
    exact ⟨hreached, .inl ⟨hkind, hrepo, rfl⟩⟩

/-- Different paths are printed differently. -/
lemma printed_injective {p q : List Bytes} (hp : ValidPath p) (hq : ValidPath q)
    (h : Tree.printed (render p) = Tree.printed (render q)) : p = q := by
  have hdot : ∀ {p : List Bytes}, ValidPath p → render p ≠ dot := by
    intro p hp heq
    have hcomponents := components_render hp
    rw [heq] at hcomponents
    have hmem : dot ∈ p := by
      rw [← hcomponents]
      decide
    exact (hp dot hmem).ne_dot rfl
  unfold Tree.printed at h
  rcases eq_or_ne p [] with rfl | hpne <;> rcases eq_or_ne q [] with rfl | hqne
  · rfl
  · have hq' : render q ≠ [] := by rwa [Ne, render_eq_nil_iff hq]
    exact absurd (by simpa [hq'] using h.symm) (hdot hq)
  · have hp' : render p ≠ [] := by rwa [Ne, render_eq_nil_iff hp]
    exact absurd (by simpa [hp'] using h) (hdot hp)
  · have hp' : render p ≠ [] := by rwa [Ne, render_eq_nil_iff hp]
    have hq' : render q ≠ [] := by rwa [Ne, render_eq_nil_iff hq]
    exact render_injective hp hq (by simpa [hp', hq'] using h)

/-- The paths printed for records found at distinct paths are distinct. -/
lemma nodup_reposOf {found : List Record} (hnodup : (found.map Record.rel).Nodup)
    (hfound : ∀ record ∈ found, ∃ p, t.FoundAt wildmatch exclude p record) :
    (Tree.reposOf found).Nodup := by
  have hfilter : ((found.filter Record.isRepo).map Record.rel).Nodup :=
    hnodup.sublist (List.filter_sublist.map _)
  rw [Tree.reposOf, show (fun record : Record => Tree.printed record.rel) =
    Tree.printed ∘ Record.rel from rfl, ← List.map_map]
  refine hfilter.map_on fun rel hrel rel' hrel' heq => ?_
  have hrender : ∀ rel ∈ (found.filter Record.isRepo).map Record.rel,
      ∃ p, ValidPath p ∧ rel = render p := by
    intro rel hrel
    obtain ⟨record, hrecord, rfl⟩ := List.mem_map.mp hrel
    obtain ⟨p, hp⟩ := hfound record (List.mem_of_mem_filter hrecord)
    exact ⟨p, hp.validPath, hp.rel_eq⟩
  obtain ⟨p, hp, rfl⟩ := hrender rel hrel
  obtain ⟨q, hq, rfl⟩ := hrender rel' hrel'
  rw [printed_injective hp hq heq]

/-- The repositories found in a root that is not named `*.git` are the listed ones. -/
lemma Tree.mem_reposOf_found_iff (hdir : t.IsDir []) {root : Bytes}
    (hbare : isBareRoot root = false) {found : List Record}
    (hfound : ∀ record, record ∈ found ↔ ∃ p, t.FoundAt wildmatch exclude p record) {path : Bytes} :
    path ∈ Tree.reposOf found ↔ t.Listed wildmatch exclude root path := by
  rw [Tree.mem_reposOf_iff]
  simp only [hfound, Tree.foundAt_repo_iff]
  cases hgit : t.hasGit [] with
  | true =>
    rw [Tree.Listed, if_pos (.inr hgit)]
    constructor
    · rintro ⟨_, ⟨p, -, -, hreached, rfl⟩, rfl⟩
      rcases eq_or_ne p [] with rfl | hne
      · rfl
      · exact absurd (.inr hgit) (hreached.above [] List.nil_prefix hne.symm).2
    · rintro rfl
      exact ⟨[], ⟨[], .inl hdir, .inr hgit, Tree.reached_nil, rfl⟩, rfl⟩
  | false =>
    have hnotRepo : ¬t.IsRepo [] := by
      rintro (hbare | hgit')
      · exact Tree.not_bareName_nil hbare
      · exact absurd hgit' (by rw [render_nil, hgit]; exact Bool.false_ne_true)
    rw [Tree.Listed, if_neg (by simp [hbare, hgit])]
    have hprinted : ∀ {p : List Bytes}, ValidPath p → p ≠ [] →
        Tree.printed (render p) = render p := by
      intro p hp hne
      have : render p ≠ [] := by rwa [Ne, render_eq_nil_iff hp]
      simp [Tree.printed, this]
    constructor
    · rintro ⟨_, ⟨p, hkind, hrepo, hreached, rfl⟩, rfl⟩
      have hne : p ≠ [] := by
        rintro rfl
        exact hnotRepo hrepo
      exact ⟨p, hne, hkind, hrepo, hreached, hprinted (Tree.validPath_of_kind hkind) hne⟩
    · rintro ⟨p, hne, hkind, hrepo, hreached, rfl⟩
      exact ⟨render p, ⟨p, hkind, hrepo, hreached, rfl⟩,
        (hprinted (Tree.validPath_of_kind hkind) hne).symm⟩

/-- `walk_root` always can return, and whatever the schedule it emits each listed path exactly once
and nothing else. -/
theorem walk_root_emits_listed (wildmatch : Bytes → Bytes → Bool) (t : Tree) (h : t.Accessible)
    (hdir : t.IsDir []) (root : Bytes) (hnul : 0 ∉ root) (opts : WalkOptions) :
    (∃ result, WalkRoot wildmatch t.host root opts result) ∧
      ∀ result, WalkRoot wildmatch t.host root opts result → ∃ listing, result = .ok listing ∧
        listing.arena.Nodup ∧
        ∀ path, path ∈ listing.arena ↔ t.Listed wildmatch opts.exclude root path := by
  have hroot : ∃ attr r x entries,
      t.root = .dir attr r x entries := by simpa [Tree.IsDir] using hdir
  obtain ⟨attr, r, x, entries, hroot⟩ := hroot
  refine ⟨WalkRoot.exists_tree wildmatch h hroot hnul, fun result hwalk => ?_⟩
  cases hbare : isBareRoot root with
  | true =>
    rw [walkRoot_tree_iff wildmatch h hroot hnul, if_pos hbare] at hwalk
    exact ⟨_, hwalk, List.nodup_singleton _, fun path => by simp [Tree.Listed, hbare, Out.emit]⟩
  | false =>
    obtain ⟨listing, found, rfl, hfinds, hnodup, hfound⟩ := hwalk.finds h hdir hnul hbare
    refine ⟨listing, rfl, ?_, fun path => ?_⟩
    · exact hfinds.arena.nodup_iff.mpr (nodup_reposOf hnodup fun record hr => (hfound record).mp hr)
    · rw [hfinds.arena.mem_iff, Tree.mem_reposOf_found_iff hdir hbare hfound]

/-- A directory anyone may read, with the given entries. -/
def sampleDir (ino : UInt64) (entries : List (Bytes × Bool × Node)) : Node :=
  .dir ⟨1, ino, 0o755, 100, 0⟩ true true entries

/-- A root with a repository `a`, a plain directory `b` and a link `l` to a repository. -/
def sampleNode : Node :=
  sampleDir 2 [(ascii ['a'], true, sampleDir 3 [(dotGit, true, sampleDir 4 [])]),
    (ascii ['b'], false, sampleDir 5 []),
    (ascii ['l'], true,
      .link ⟨1, 6, 0o777, 100, 0⟩ fun _ => .ok ⟨⟨1, 7, 0o755, 100, 0⟩, .directory⟩)]

/-- The directories of the sample are accessible and their entries have distinct and valid names. -/
lemma sampleNode_dirs : ∀ p attr r x entries, sampleNode.at? p = some (.dir attr r x entries) →
    (r = true ∧ x = true ∧ attr.mode &&& 0o444 ≠ 0) ∧ (entries.map Prod.fst).Nodup ∧
      ∀ e ∈ entries, ValidName e.1 := by
  have hleaf : ∀ ino p attr r x entries, (sampleDir ino []).at? p = some (.dir attr r x entries) →
      (r = true ∧ x = true ∧ attr.mode &&& 0o444 ≠ 0) ∧ (entries.map Prod.fst).Nodup ∧
        ∀ e ∈ entries, ValidName e.1 := fun ino =>
    Node.forall_dir (by simp) (by simp)
  refine Node.forall_dir ⟨by simp, by decide, by simp; decide⟩ ?_
  simp only [List.forall_mem_cons, List.not_mem_nil, false_imp_iff, implies_true, and_true]
  refine ⟨Node.forall_dir ⟨by simp, by simp, by simp; decide⟩ ?_, hleaf 5, ?_⟩
  · simp only [List.forall_mem_cons, List.not_mem_nil, false_imp_iff, implies_true, and_true]
    exact hleaf 4
  · intro p attr r x entries h
    cases p <;> simp [Node.at?] at h

/-- The sample as a tree. -/
def sampleTree : Tree where
  root := sampleNode
  resolved := by simp [sampleNode, sampleDir]
  distinct p attr r x entries h := (sampleNode_dirs p attr r x entries h).2.1
  valid p attr r x entries h := (sampleNode_dirs p attr r x entries h).2.2

/-- The walk of the sample lists the repository and not the plain directory. -/
theorem walk_root_emits_listed_sample : ∃ listing,
    WalkRoot (fun _ _ => false) sampleTree.host (ascii ['/', 'r']) ⟨2, [], .statFirst, false⟩
      (.ok listing) ∧ ascii ['a'] ∈ listing.arena ∧ ascii ['b'] ∉ listing.arena := by
  obtain ⟨⟨result, hwalk⟩, hlisted⟩ := walk_root_emits_listed (fun _ _ => false) sampleTree
    (fun p attr r x entries h => (sampleNode_dirs p attr r x entries h).1) ⟨_, _, _, _, rfl⟩
    (ascii ['/', 'r']) (by decide) ⟨2, [], .statFirst, false⟩
  obtain ⟨listing, rfl, -, hmem⟩ := hlisted result hwalk
  have hroot : ¬(isBareRoot (ascii ['/', 'r']) = true ∨ sampleTree.hasGit [] = true) := by decide
  have hnotRepo : ¬sampleTree.IsRepo [] := by
    rintro (hbare | hgit)
    · exact Tree.not_bareName_nil hbare
    · exact absurd hgit (by decide)
  refine ⟨listing, hwalk, (hmem _).mpr ?_, fun hb => ?_⟩
  · rw [Tree.Listed, if_neg hroot]
    refine ⟨[ascii ['a']], by simp, .inl ⟨_, _, _, _, rfl⟩, .inr (by decide), ?_, rfl⟩
    exact Tree.reached_append_singleton (p := []).mpr
      ⟨Tree.reached_nil, ⟨_, _, _, _, rfl⟩, hnotRepo, rfl⟩
  · have hb := (hmem _).mp hb
    rw [Tree.Listed, if_neg hroot] at hb
    obtain ⟨p, -, hkind, hrepo, -, heq⟩ := hb
    have hp : p = [ascii ['b']] := by
      exact render_injective (Tree.validPath_of_kind hkind) (by decide) (heq.symm.trans rfl)
    subst hp
    rcases hrepo with ⟨name, hname, hbare⟩ | hgit
    · obtain rfl : ascii ['b'] = name := by simpa using hname
      exact absurd hbare (by decide)
    · exact absurd hgit (by decide)

end Scap
